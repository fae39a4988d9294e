import Osdev2.Efi.Pages

/-!
# What `load_elf` still holds

`Held.load_elf` is the loader with its calls of `AllocatePool` and `FreePool`. The pool
is always given back (`held_load_elf`), the pages of a position-independent kernel are the
last thing that can be refused, but those of a kernel at its own addresses come segment by
segment: `nothing_held_iff` says that they are left behind exactly if a later one is
refused (`Boot.Strands`).
-/

namespace Osdev2.Efi

open Osdev2.Lib

/-- The buffers from the pool. -/
inductive Pool where
  | file_info
  | elf_data
  deriving DecidableEq

/-- The store, and the buffers allocated and not freed. `load_elf` never frees pages: those
of the store are allocated to the end. -/
structure Held where
  store : Store
  pool : List Pool

abbrev Ledger := Traced Held Status Op

/-! ## The calls -/

section Calls

variable {α : Type}

def AllocatePool (status : Status) (b : Pool) : Ledger Unit := fun h =>
  if EFI_ERROR status then some (.error status, h, [])
  else some (.ok (), { h with pool := b :: h.pool }, [])

def FreePool (b : Pool) : Ledger Unit := fun h =>
  some (.ok (), { h with pool := h.pool.erase b }, [])

/-- A part of `load_elf` without a call of the pool. -/
def onStore (x : Load α) : Ledger α := fun h =>
  (x h.store).map fun t => (t.1, { h with store := t.2.1 }, t.2.2)

/-- A part of `load_elf` whose every error return comes after `FreePool(b)`. -/
def orFree (b : Pool) (x : Ledger α) : Ledger α := fun h =>
  (x h).map fun t => match t.1 with
    | .ok a => (.ok a, t.2.1, t.2.2)
    | .error e => (.error e, { t.2.1 with pool := t.2.1.pool.erase b }, t.2.2)

/-- A call whose error is returned. -/
def checked (status : Status) : Load Unit := fun s =>
  if EFI_ERROR status then some (.error status, s, []) else some (.ok (), s, [])

/-- `Read`: the file, in its buffer. -/
def Read (B : Boot) : Load Unit := fun s =>
  if EFI_ERROR B.read.1 then some (.error B.read.1, s, [])
  else some (.ok (), { s with mem := placeBytes B.dataPool.2 B.read.2 s.mem }, [])

end Calls

/-- `load_elf` with the pool. -/
def Held.load_elf (B : Boot) : Ledger Loaded := do
  AllocatePool B.infoPool .file_info
  orFree .file_info (onStore (checked B.getInfo.1))
  FreePool .file_info
  AllocatePool B.dataPool.1 .elf_data
  orFree .elf_data (onStore (Read B))
  -- three returns: the magic, the class, the type
  let is_pie ← orFree .elf_data (onStore (check_header B.dataPool.2))
  let r ← onStore (eachPhdr B.dataPool.2 measure (2 ^ 16) 0 (BitVec.allOnes 64, 0))
  let base_addr ← orFree .elf_data (onStore (place_image B is_pie r))
  orFree .elf_data
    (onStore (eachPhdr B.dataPool.2 (load_segment B B.dataPool.2 is_pie base_addr) (2 ^ 16) 0 ()))
  onStore (if is_pie then relocate B.dataPool.2 base_addr else pure ())
  let entry ← onStore (load B.dataPool.2 e_entry)
  FreePool .elf_data
  pure ⟨base_addr + entry, base_addr⟩

/-! ## The pool -/

section Pool

variable {α β : Type} {p q r u : List Pool} {y : Ledger α} {x : Load α} {g : α → Ledger β}
  {f : α → Load β} {b : Pool}

/-- The program `y` is `x` with the pool: from `p` it comes to `q`, and to `r` with an error. -/
def Holds (p q r : List Pool) (y : Ledger α) (x : Load α) : Prop :=
  ∀ s, y ⟨s, p⟩ = (x s).map fun t => (t.1, ⟨t.2.1, if t.1.toOption.isSome then q else r⟩, t.2.2)

theorem Holds.bind (hx : Holds p q r y x) (hf : ∀ a, Holds q u r (g a) (f a)) :
    Holds p u r (y >>= g) (x >>= f) := by
  intro s
  change Traced.bind y g ⟨s, p⟩ = (Traced.bind x f s).map _
  rw [Traced.bind, hx s, Traced.bind]
  rcases x s with _ | ⟨_ | a, t, l⟩
  · rfl
  · rfl
  · simp only [Option.map_some, Except.toOption, Option.isSome_some, if_true]
    rw [hf a t, Option.map_map, Option.map_map]
    rfl

theorem holds_onStore (p r : List Pool) (hx : Completes x) : Holds p p r (onStore x) x := by
  intro s
  rw [onStore]
  rcases h : x s with _ | ⟨e | a, t, l⟩
  · rfl
  · exact absurd h (hx s e t l)
  · rfl

theorem holds_orFree (b : Pool) (x : Load α) : Holds [b] [b] [] (orFree b (onStore x)) x := by
  intro s
  rw [orFree, onStore, Option.map_map]
  congr 1
  funext t
  rcases t with ⟨e | a, t, l⟩
  · simp [Except.toOption]
  · rfl

theorem holds_AllocatePool (status : Status) (b : Pool) (p : List Pool) :
    Holds p (b :: p) p (AllocatePool status b) (checked status) := by
  intro s
  rw [AllocatePool, checked]
  split
  · rfl
  · rfl

theorem Holds.free {k : Unit → Ledger α} (hk : Holds [] q r (k ()) x) :
    Holds [b] q r (FreePool b >>= k) x := by
  intro s
  have hfree : FreePool b ⟨s, [b]⟩ = some (.ok (), ⟨s, []⟩, []) := by
    rw [FreePool, List.erase_cons_head]
  rw [Traced.bind_quiet hfree]
  exact hk s

theorem holds_pure (a : α) (p r : List Pool) : Holds p p r (pure a) (pure a) := fun _ => rfl

/-- `load_elf` as a program. -/
def loadElf (B : Boot) : Load Loaded := do
  checked B.infoPool
  checked B.getInfo.1
  checked B.dataPool.1
  Read B
  load_image B B.dataPool.2

theorem checked_bind (status : Status) (f : Unit → Load α) (s : Store) :
    (checked status >>= f) s =
      if EFI_ERROR status then some (.error status, s, []) else f () s := by
  by_cases h : EFI_ERROR status
  · rw [if_pos h]
    exact Traced.bind_error (if_pos h)
  · rw [if_neg h]
    exact Traced.bind_quiet (if_neg h)

theorem loadElf_eq (B : Boot) (m : Mem64) : loadElf B ⟨m, []⟩ = load_elf B m := by
  rw [loadElf, load_elf, checked_bind, checked_bind, checked_bind]
  by_cases h : EFI_ERROR B.read.1
  · rw [if_pos h]
    congr 3
    exact Traced.bind_error (if_pos h)
  · rw [if_neg h]
    congr 3
    exact Traced.bind_quiet (if_neg h)

/-- The pool is given back, whatever happens. -/
theorem holds_load_elf (B : Boot) : Holds [] [] [] (Held.load_elf B) (loadElf B) := by
  have hflat : loadElf B = (do
      checked B.infoPool
      checked B.getInfo.1
      checked B.dataPool.1
      Read B
      let is_pie ← check_header B.dataPool.2
      let r ← eachPhdr B.dataPool.2 measure (2 ^ 16) 0 (BitVec.allOnes 64, 0)
      let base_addr ← place_image B is_pie r
      eachPhdr B.dataPool.2 (load_segment B B.dataPool.2 is_pie base_addr) (2 ^ 16) 0 ()
      (if is_pie then relocate B.dataPool.2 base_addr else pure ())
      let entry ← load B.dataPool.2 e_entry
      pure ⟨base_addr + entry, base_addr⟩) := by
    simp only [loadElf, load_image, load_segments, bind_assoc, pure_bind]
  rw [hflat]
  refine (holds_AllocatePool _ .file_info []).bind fun _ => ?_
  refine (holds_orFree .file_info _).bind fun _ => Holds.free ?_
  refine (holds_AllocatePool _ .elf_data []).bind fun _ => (holds_orFree .elf_data _).bind fun _ => ?_
  refine (holds_orFree .elf_data _).bind fun is_pie => ?_
  refine (holds_onStore _ [] (completes_eachPhdr completes_measure _ _ _)).bind fun r => ?_
  refine (holds_orFree .elf_data _).bind fun base_addr => (holds_orFree .elf_data _).bind fun _ => ?_
  refine (holds_onStore _ [] (.ite (completes_relocate _ _) (completes_pure ()))).bind fun _ => ?_
  refine (holds_onStore _ [] (completes_load _ _)).bind fun entry => ?_
  exact Holds.free (holds_pure _ _ _)

theorem held_load_elf (B : Boot) (m : Mem64) : Held.load_elf B ⟨⟨m, []⟩, []⟩ =
    (load_elf B m).map fun t => (t.1, ⟨t.2.1, []⟩, t.2.2) := by
  rw [holds_load_elf B ⟨m, []⟩, loadElf_eq]
  simp only [ite_self]

end Pool

/-! ## The pages -/

/-- A later segment is refused: the file is opened, a kernel at its own addresses, and the
pages of a segment are refused after those of the ones before it. -/
def Boot.Strands (B : Boot) : Prop :=
  B.opened ∧ Accepted B.read.2 ∧ isPie B.read.2 = false ∧
    ∃ us g vs ps, loads B.read.2 = us ++ g :: vs ∧ us ≠ [] ∧ B.claims us [] = some ps ∧
      B.claim false g.vaddr g.memsz ps = none

section Strands

variable {B : Boot} {ps : List Block}

/-- What is refused leaves pages behind unless it is the first segment. -/
theorem refuses_pages (ho : B.opened) (hacc : Accepted B.read.2) (hpie : isPie B.read.2 = false)
    (h : B.Refuses (loads B.read.2) [] ps) : ps = [] ↔ ¬B.Strands := by
  obtain ⟨us, g, vs, hsplit, hus, hg⟩ := h
  have hlen := length_claims hus
  constructor
  · rintro rfl ⟨-, -, -, us', g', vs', ps', hsplit', hne, hus', hg'⟩
    obtain rfl : us = [] := List.length_eq_zero_iff.mp (by simpa using hlen.symm)
    -- the first segment is refused, so it is not one of those granted
    cases us' with
    | nil => exact hne rfl
    | cons u us' =>
      rw [hsplit, List.nil_append, List.cons_append] at hsplit'
      obtain ⟨rfl, -⟩ := List.cons.inj hsplit'
      rw [claims_cons, hg, Option.bind_none] at hus'
      cases hus'
  · intro hno
    by_contra hne
    refine hno ⟨ho, hacc, hpie, us, g, vs, ps, hsplit, ?_, hus, hg⟩
    rintro rfl
    exact hne (List.length_eq_zero_iff.mp hlen)

/-- **What is left behind by a failure.** -/
theorem nothing_held_iff (hB : B.Behaves) (hf : HeadersOk B.read.2) (m : Mem64) :
    (∀ e h ops, Held.load_elf B ⟨⟨m, []⟩, []⟩ = some (.error e, h, ops) →
      h.pool = [] ∧ h.store.pages = []) ↔ ¬B.Strands := by
  rw [held_load_elf]
  constructor
  · rintro H hstr
    obtain ⟨ho, hacc, hpie, us, g, vs, ps, hsplit, hne, hus, hg⟩ := hstr
    obtain ⟨r, s, ops, hrun, hcl⟩ := load_elf_fixed hB hf ho hacc hpie m
    have hrefused : B.claims (loads B.read.2) [] = none :=
      Boot.Refuses.claims_eq_none ⟨us, g, vs, hsplit, hus, hg⟩
    cases r with
    | ok a =>
      rw [show B.claims (loads B.read.2) [] = some s.pages from hcl] at hrefused
      cases hrefused
    | error e =>
      have hpages := (H e ⟨s, []⟩ ops (by rw [hrun]; rfl)).2
      exact (refuses_pages ho hacc hpie hcl).mp hpages
        ⟨ho, hacc, hpie, us, g, vs, ps, hsplit, hne, hus, hg⟩
  · intro hno e h ops hrun
    obtain ⟨⟨r, s, l⟩, hplain, heq⟩ := Option.map_eq_some_iff.mp hrun
    obtain ⟨rfl, hh⟩ := Prod.mk.inj heq
    obtain ⟨rfl, -⟩ := Prod.mk.inj hh
    refine ⟨rfl, ?_⟩
    by_cases ho : B.opened
    · have hleaves := load_elf_pages hB hf ho hplain
      by_cases hfix : Accepted B.read.2 ∧ isPie B.read.2 = false
      · exact (refuses_pages ho hfix.1 hfix.2 (hleaves.fixed hfix.1 hfix.2)).mpr hno
      · exact hleaves.other hfix e rfl
    · obtain ⟨e', he'⟩ := load_elf_not_opened ho m
      rw [he'] at hplain
      cases hplain
      rfl

end Strands

theorem nothing_held_iff_shared :
    (∀ e h ops, Held.load_elf (pageBoot sharedKernel) ⟨⟨fun _ => 0, []⟩, []⟩ =
        some (.error e, h, ops) → h.pool = [] ∧ h.store.pages = []) ↔
    ¬(pageBoot sharedKernel).Strands :=
  nothing_held_iff (pageBoot_behaves (by decide +kernel)) sharedKernel_wellFormed.headersOk _

/-- The first segment's page is granted and the second's refused: it stays allocated. -/
theorem nothing_held_not : ¬∀ (B : Boot) m e h ops, B.Behaves → HeadersOk B.read.2 →
    Held.load_elf B ⟨⟨m, []⟩, []⟩ = some (.error e, h, ops) →
    h.pool = [] ∧ h.store.pages = [] := by
  intro H
  have hrun : (load_elf (pageBoot sharedKernel) fun _ => 0).any fun t =>
      !t.1.toOption.isSome && !t.2.1.pages.isEmpty := by decide +kernel
  rw [Option.any_eq_true] at hrun
  obtain ⟨⟨r, s, ops⟩, heq, hrun⟩ := hrun
  obtain ⟨herr, hpages⟩ := Bool.and_eq_true _ _ |>.mp hrun
  cases r with
  | ok a => cases herr
  | error e =>
    have hheld := (H (pageBoot sharedKernel) (fun _ => 0) e ⟨s, []⟩ ops
      (pageBoot_behaves (by decide +kernel)) sharedKernel_wellFormed.headersOk
      (by rw [held_load_elf, heq]; rfl)).2
    rw [show s.pages = [] from hheld] at hpages
    cases hpages

end Osdev2.Efi
