import Osdev2.Efi.Safety

/-!
# A kernel at its own addresses

The pages of an `ET_EXEC` kernel are asked for one segment at a time. `Claimed` says
how far that has come when `load_elf` returns: the pages of all segments are allocated,
or those before the one that was refused. `load_image_pages` finds it at the end of
every run.
-/

namespace Osdev2.Efi

open Osdev2.Lib

/-! ## The parts that do not fail -/

section Completes

variable {α : Type} {elf_data base dest : Addr}

theorem completes_pure (a : α) : Completes (pure a : Load α) := .of_ok fun s => ⟨a, s, [], rfl⟩

theorem completes_load (p : Addr) (fld : Field) : Completes (load p fld) :=
  .of_ok fun s => ⟨_, s, _, rfl⟩

theorem completes_SetMem (a : Addr) (n : BitVec 64) (v : Byte) : Completes (SetMem a n v) :=
  .of_ok fun _ => ⟨(), _, _, rfl⟩

theorem completes_CopyMem (dest src : Addr) (n : BitVec 64) : Completes (CopyMem dest src n) :=
  .of_ok fun _ => ⟨(), _, _, rfl⟩

theorem completes_relocStore (a v : BitVec 64) : Completes (relocStore a v) :=
  .of_ok fun _ => ⟨(), _, _, rfl⟩

theorem completes_eachPhdr {body : Addr → α → Load (ForInStep α)}
    (hbody : ∀ p a, Completes (body p a)) : ∀ fuel i a, Completes (eachPhdr elf_data body fuel i a)
  | 0, _, _ => fun _ _ _ _ h => by cases h
  | fuel + 1, i, a => by
    unfold eachPhdr
    refine (completes_load _ _).bind fun phnum => .ite ?_ (completes_pure a)
    refine (completes_load _ _).bind fun phoff => (completes_load _ _).bind fun phentsize => ?_
    refine (hbody _ _).bind fun step => ?_
    cases step with
    | done a => exact completes_pure a
    | yield a => exact completes_eachPhdr hbody fuel (i + 1) a

theorem completes_measure (phdr : Addr) (r : Range) : Completes (measure phdr r) :=
  (completes_load _ _).bind fun _ => .ite ((completes_load _ _).bind fun _ =>
    (completes_load _ _).bind fun _ => completes_pure _) (completes_pure _)

theorem completes_copy_file (phdr dest src : Addr) : Completes (copy_file phdr dest src) :=
  (completes_load _ _).bind fun _ => .ite (completes_CopyMem _ _ _) (completes_pure ())

theorem completes_clear_bss (phdr dest : Addr) : Completes (clear_bss phdr dest) :=
  (completes_load _ _).bind fun _ => (completes_load _ _).bind fun _ =>
    .ite (completes_SetMem _ _ _) (completes_pure ())

/-- The segments of a position-independent kernel ask for no pages. -/
theorem completes_load_segment (B : Boot) (phdr : Addr) (u : Unit) :
    Completes (load_segment B elf_data true base phdr u) := by
  refine (completes_load _ _).bind fun _ => .ite ?_ (completes_pure _)
  refine (completes_load _ _).bind fun _ => (completes_load _ _).bind fun _ => ?_
  refine (completes_pure ()).bind fun _ => (completes_copy_file _ _ _).bind fun _ => ?_
  exact (completes_clear_bss _ _).bind fun _ => completes_pure _

theorem completes_apply_relas (rela : Addr) : ∀ n i, Completes (apply_relas base rela n i)
  | 0, _ => completes_pure ()
  | n + 1, i => by
    refine Completes.bind (Completes.bind (.of_ok fun s => ⟨s.mem, s, [], rfl⟩) fun m => ?_)
      fun _ => completes_apply_relas rela n (i + 1)
    exact .ite (completes_relocStore _ _) (completes_pure ())

theorem completes_relocate (elf_data base : Addr) : Completes (relocate elf_data base) := by
  refine (completes_eachPhdr (fun p _ => ?_) _ _ _).bind fun dyn => .ite ?_ (completes_pure ())
  · exact (completes_load _ _).bind fun _ =>
      .ite ((completes_load _ _).bind fun _ => completes_pure _) (completes_pure _)
  · refine Completes.bind (fun s e s' ops h => ?_) fun _ =>
      .ite (completes_apply_relas _ _ _) (completes_pure ())
    obtain ⟨i, -, heq⟩ := Option.map_eq_some_iff.mp h
    cases heq

end Completes

/-! ## The pages of the segments -/

/-- The pages once those of the segments are allocated, in turn; `none` is an error. -/
def Boot.claims (B : Boot) (gs : List Segment) (ps : List Block) : Option (List Block) :=
  gs.foldlM (fun ps g => B.claim false g.vaddr g.memsz ps) ps

/-- The pages `ps'` of the first segments are allocated, and those of the next one are refused. -/
def Boot.Refuses (B : Boot) (gs : List Segment) (ps ps' : List Block) : Prop :=
  ∃ us g vs, gs = us ++ g :: vs ∧ B.claims us ps = some ps' ∧
    B.claim false g.vaddr g.memsz ps' = none

/-- How far the pages have come when the program returns. -/
def Boot.Claimed {α : Type} (B : Boot) (gs : List Segment) (ps : List Block) (s' : Store) :
    Except Status α → Prop
  | .ok _ => B.claims gs ps = some s'.pages
  | .error _ => B.Refuses gs ps s'.pages

section Claims

variable {B : Boot} {g : Segment} {gs : List Segment} {ps ps' qs : List Block} {o : Addr}

theorem claims_cons : B.claims (g :: gs) ps = (B.claim false g.vaddr g.memsz ps).bind (B.claims gs) :=
  List.foldlM_cons

theorem claims_append (us : List Segment) :
    B.claims (us ++ gs) ps = (B.claims us ps).bind (B.claims gs) :=
  List.foldlM_append

theorem claims_loadsAt (B : Boot) (o : Addr) (os : List Addr) (ps : List Block) :
    B.claims (loadsAt B.read.2 (o :: os)) ps =
      (B.claimAt false o ps).bind (B.claims (loadsAt B.read.2 os)) := by
  by_cases ht : fileField B.read.2 o p_type = PT_LOAD
  · rw [loadsAt_load ht, claims_cons, Boot.claimAt, if_pos ht]
  · rw [loadsAt_other ht, Boot.claimAt, if_neg ht, Option.bind_some]

theorem refuses_here (h : B.claim false g.vaddr g.memsz ps = none) : B.Refuses (g :: gs) ps ps :=
  ⟨[], g, gs, rfl, rfl, h⟩

theorem Boot.Refuses.cons (h : B.claim false g.vaddr g.memsz ps = some qs)
    (hr : B.Refuses gs qs ps') : B.Refuses (g :: gs) ps ps' := by
  obtain ⟨us, g', vs, rfl, hus, hg⟩ := hr
  exact ⟨g :: us, g', vs, rfl, by rw [claims_cons, h]; exact hus, hg⟩

theorem refuses_claimAt {os : List Addr} (h : B.claimAt false o ps = none) :
    B.Refuses (loadsAt B.read.2 (o :: os)) ps ps := by
  unfold Boot.claimAt at h
  split at h
  · rename_i ht
    rw [loadsAt_load ht]
    exact refuses_here h
  · cases h

theorem Boot.Refuses.claimAt {os : List Addr} (h : B.claimAt false o ps = some qs)
    (hr : B.Refuses (loadsAt B.read.2 os) qs ps') : B.Refuses (loadsAt B.read.2 (o :: os)) ps ps' := by
  unfold Boot.claimAt at h
  split at h
  · rename_i ht
    rw [loadsAt_load ht]
    exact hr.cons h
  · rename_i ht
    cases h
    rwa [loadsAt_other ht]

theorem length_claims (h : B.claims gs ps = some ps') : ps'.length = ps.length + gs.length := by
  induction gs generalizing ps with
  | nil =>
    cases h
    rfl
  | cons g gs ih =>
    rw [claims_cons, Option.bind_eq_some_iff] at h
    obtain ⟨qs, hg, hgs⟩ := h
    simp only [Boot.claim, Bool.false_eq_true, if_false, Option.map_eq_some_iff] at hg
    obtain ⟨b, -, rfl⟩ := hg
    rw [ih hgs, List.length_cons, List.length_cons]
    omega

theorem Boot.Refuses.claims_eq_none (h : B.Refuses gs ps ps') : B.claims gs ps = none := by
  obtain ⟨us, g, vs, rfl, hus, hg⟩ := h
  rw [claims_append, hus, Option.bind_some, claims_cons, hg, Option.bind_none]

end Claims

/-! ## The second pass -/

section Fixed

variable {B : Boot} {s : Store} {m : Mem64} {base : Addr}

/-- The pages the second pass leaves from the headers `os` on. -/
theorem spec_claims (hB : B.Behaves) (hh : HeaderRead B.read.2) {os : List Addr} :
    ∀ {fuel i : Nat} {s : Store}, Ready B.dataPool.2 B.read.2 s →
      (offsets B.read.2).drop i = os → os.length < fuel → (∀ o ∈ os, Measured B.read.2 o) →
      Spec (Op.Ok B.dataPool.2 B.read.2.length)
        (eachPhdr B.dataPool.2 (load_segment B B.dataPool.2 false base) fuel i ()) s
        (SegmentsOk B false base os s.pages)
        fun r s' => B.Claimed (loadsAt B.read.2 os) s.pages s' r := by
  refine spec_segments (Q := fun os s r s' => B.Claimed (loadsAt B.read.2 os) s.pages s' r) hB hh
    (fun s _ => rfl) (fun o os s e hc => refuses_claimAt hc) fun o os s s1 r s' hc _ hcl => ?_
  cases r with
  | ok _ =>
    change B.claims _ _ = _
    rw [claims_loadsAt, hc]
    exact hcl
  | error e => exact Boot.Refuses.claimAt hc hcl

/-! ## The pages at the end -/

/-- What the loader leaves of the pages. -/
structure Boot.Leaves {α : Type} (B : Boot) (s' : Store) (r : Except Status α) : Prop where
  /-- Of a kernel at its own addresses, the pages that were granted. -/
  fixed : Accepted B.read.2 → isPie B.read.2 = false → B.Claimed (loads B.read.2) [] s' r
  /-- Of any other file, none after an error. -/
  other : ¬(Accepted B.read.2 ∧ isPie B.read.2 = false) → ∀ e, r = .error e → s'.pages = []

theorem load_segments_pages {r : Except Status (Bool × Addr)} {s' : Store} {ops : List Op}
    (hB : B.Behaves) (hf : HeadersOk B.read.2) (h : Ready B.dataPool.2 B.read.2 s)
    (hs : s.pages = []) (hrun : load_segments B B.dataPool.2 s = some (r, s', ops)) :
    B.Leaves s' r := by
  have hlen : B.read.2.length < 2 ^ 64 := Nat.lt_of_le_of_lt hB.read B.getInfo.2.isLt
  have hheader := (spec_check_header h).leaves (hf.looked hlen)
  have hmeas := hf.measured hlen
  rcases bind_eq_some hrun with ⟨e, rfl, h1⟩ | ⟨is_pie, s1, l1, l2, h1, h2, rfl⟩
  · obtain ⟨rfl, hok, -⟩ := hheader _ _ _ h1
    exact ⟨fun hacc => (by cases hok hacc), fun _ _ _ => hs⟩
  obtain ⟨rfl, hok, herr⟩ := hheader _ _ _ h1
  have hacc : Accepted B.read.2 := by
    by_contra hna
    obtain ⟨_, ⟨⟩⟩ := herr hna
  obtain rfl : is_pie = isPie B.read.2 := Except.ok.inj (hok hacc)
  have hrange := (spec_first_pass h (hf.read hlen) List.drop_zero
    (length_offsets_lt _) (r := (BitVec.allOnes 64, 0))).leaves hmeas
  rcases bind_eq_some h2 with ⟨e, rfl, h3⟩ | ⟨range, s2, l3, l4, h3, h4, rfl⟩
  · obtain ⟨⟨⟩, -⟩ := hrange _ _ _ h3
  obtain ⟨-, rfl⟩ := hrange _ _ _ h3
  have hplace := (@spec_place_image B _ (isPie B.read.2) range hB h hs).leaves trivial
  cases hpie : isPie B.read.2 with
  | true =>
    refine ⟨fun _ hp => absurd (hpie.symm.trans hp) (by decide), fun _ e he => ?_⟩
    subst he
    -- only the pages of the whole image can be refused
    rcases bind_eq_some h4 with ⟨e, -, h5⟩ | ⟨base, s3, l5, l6, h5, h6, rfl⟩
    · have hq := hplace _ _ _ h5
      split at hq
      · obtain ⟨-, -, rfl⟩ := hq
        exact hs
      · obtain ⟨⟨⟩, -⟩ := hq
    · rw [hpie] at h6
      have hpass := Completes.error (fun _ => completes_pure _) h6
      exact absurd hpass (completes_eachPhdr (completes_load_segment B) _ _ _ _ _ _ _)
  | false =>
    refine ⟨fun _ _ => ?_, fun hno => absurd ⟨hacc, hpie⟩ hno⟩
    rw [hpie] at hplace h4
    rcases bind_eq_some h4 with ⟨e, rfl, h5⟩ | ⟨base, s3, l5, l6, h5, h6, rfl⟩
    · obtain ⟨⟨⟩, -⟩ := hplace _ _ _ h5
    obtain ⟨hbase, hp, hr3, -⟩ := hplace _ _ _ h5
    obtain rfl : base = 0 := Except.ok.inj hbase
    have hpass := (spec_claims hB (hf.read hlen) hr3 List.drop_zero (length_offsets_lt _)
      hmeas).leaves (segmentsOk_fixed hB hf hlen _)
    rw [hp] at hpass
    rcases bind_eq_some h6 with ⟨e, rfl, h7⟩ | ⟨_, s4, l7, l8, h7, h8, -⟩
    · exact hpass _ _ _ h7
    · cases h8
      exact hpass _ _ _ h7

theorem completes_entry (elf_data base : Addr) (is_pie : Bool) : Completes (do
    (if is_pie then relocate elf_data base else pure ())
    let entry ← load elf_data e_entry
    pure (⟨base + entry, base⟩ : Loaded)) :=
  (Completes.ite (completes_relocate _ _) (completes_pure ())).bind fun _ =>
    (completes_load _ _).bind fun _ => completes_pure _

theorem entry_store {r : Except Status Loaded} {elf_data : Addr} {s' : Store} {ops : List Op}
    (h : (do
      (if false then relocate elf_data base else pure ())
      let entry ← load elf_data e_entry
      pure (⟨base + entry, base⟩ : Loaded)) s = some (r, s', ops)) : s' = s :=
  (Prod.mk.inj (Prod.mk.inj (Option.some.inj h)).2).1.symm

theorem load_image_pages {r : Except Status Loaded} {s' : Store} {ops : List Op}
    (hB : B.Behaves) (hf : HeadersOk B.read.2) (h : Ready B.dataPool.2 B.read.2 s)
    (hs : s.pages = []) (hrun : load_image B B.dataPool.2 s = some (r, s', ops)) :
    B.Leaves s' r := by
  rcases bind_eq_some hrun with ⟨e, rfl, h1⟩ | ⟨⟨is_pie, base⟩, s1, l1, l2, h1, h2, rfl⟩
  · obtain ⟨hfix, hother⟩ := load_segments_pages hB hf h hs h1
    exact ⟨hfix, fun hno _ _ => hother hno e rfl⟩
  cases r with
  | error e => exact absurd h2 (completes_entry _ _ _ _ _ _ _)
  | ok a =>
    refine ⟨fun hacc hpie => ?_, fun _ _ he => by cases he⟩
    have hcl := (load_segments_pages hB hf h hs h1).fixed hacc hpie
    have himg := (spec_load_segments hB h hs).leaves (passesOk_fixed hB hf hpie) _ _ _ h1
    obtain ⟨-, _, _, -, ⟨⟩, -⟩ := himg
    rw [hpie] at h2
    rw [entry_store h2]
    exact hcl

theorem load_elf_pages {r : Except Status Loaded} {s' : Store} {ops : List Op} (hB : B.Behaves)
    (hf : HeadersOk B.read.2) (ho : B.opened) (hrun : load_elf B m = some (r, s', ops)) :
    B.Leaves s' r := by
  rw [load_elf_opened ho] at hrun
  exact load_image_pages hB hf (ready_filled B m) rfl hrun

/-- A kernel at its own addresses: `load_elf` returns, and stops only where pages are refused. -/
theorem load_elf_fixed (hB : B.Behaves) (hf : HeadersOk B.read.2) (ho : B.opened)
    (hacc : Accepted B.read.2) (hpie : isPie B.read.2 = false) (m : Mem64) :
    ∃ r s' ops, load_elf B m = some (r, s', ops) ∧ B.Claimed (loads B.read.2) [] s' r := by
  have hharmless : Harmless B (B.filled m).mem :=
    ⟨passesOk_fixed hB hf hpie, fun _ _ _ hp => absurd hp (by rw [hpie]; decide)⟩
  obtain ⟨r, s', ops, hrun, -, -⟩ := (spec_load_image hB (ready_filled B m) rfl).run hharmless
  rw [← load_elf_opened ho] at hrun
  exact ⟨r, s', ops, hrun, (load_elf_pages hB hf ho hrun).fixed hacc hpie⟩

end Fixed

end Osdev2.Efi
