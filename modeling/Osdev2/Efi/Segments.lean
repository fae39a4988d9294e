import Osdev2.Efi.Image

/-!
# The second pass

A segment is placed by three steps: its pages (when it is loaded at its own
address), the bytes of the file, the zeros after them. `spec_segments` is the rule of
the whole pass; `spec_second_pass` is the exact condition for its writes and reads
(`SegmentsOk`), and the memory it leaves: every segment in its place.
-/

namespace Osdev2.Efi

open Osdev2.Lib

/-- The firmware: it reads no more than it was asked for, gives pages that are not
the buffer's, and gives the address that was asked for or none. -/
structure Boot.Behaves (B : Boot) : Prop where
  read : B.read.2.length ≤ B.getInfo.2.toNat
  free : ∀ ps type n a, ¬EFI_ERROR (B.allocatePages ps type n a).1 → ∀ x,
    InRange (B.allocatePages ps type n a).2 (4096 * n.toNat) x →
      ¬InRange B.dataPool.2 B.getInfo.2.toNat x
  fixed : ∀ ps n a, ¬EFI_ERROR (B.allocatePages ps .AllocateAddress n a).1 →
    (B.allocatePages ps .AllocateAddress n a).2 = a

/-- The pages the firmware gives; `none` is an error. -/
def Boot.granted (B : Boot) (ps : List Block) (type : AllocateType) (n : BitVec 64) (a : Addr) :
    Option Block :=
  let answer := B.allocatePages ps type n a
  if EFI_ERROR answer.1 then none else some ⟨answer.2, n.toNat⟩

theorem granted_eq_some {B : Boot} {ps : List Block} {type : AllocateType} {n : BitVec 64}
    {a : Addr} {b : Block} (h : B.granted ps type n a = some b) :
    ¬EFI_ERROR (B.allocatePages ps type n a).1 ∧ b.addr = (B.allocatePages ps type n a).2 ∧
      b.pages = n.toNat := by
  simp only [Boot.granted] at h
  split at h
  · cases h
  · rename_i he
    cases h
    exact ⟨he, rfl, rfl⟩

/-- The pages once those of a segment are allocated. -/
def Boot.claim (B : Boot) (is_pie : Bool) (vaddr memsz : BitVec 64) (ps : List Block) :
    Option (List Block) :=
  if is_pie then some ps
  else (B.granted ps .AllocateAddress (EFI_SIZE_TO_PAGES memsz) vaddr).map (· :: ps)

/-- The header at `o` as the second pass takes it. -/
def Boot.claimAt (B : Boot) (is_pie : Bool) (o : Addr) (ps : List Block) : Option (List Block) :=
  if fileField B.read.2 o p_type = PT_LOAD then
    B.claim is_pie (fileField B.read.2 o p_vaddr) (fileField B.read.2 o p_memsz) ps
  else some ps

/-- The bytes of the segment are in the file, and its place is in the pages. -/
def Fits (f : List Byte) (ps : List Block) (base : Addr) (g : Segment) : Prop :=
  Inside f g.offset g.filesz.toNat ∧
    Covered ps (base + g.vaddr) (max g.filesz.toNat g.memsz.toNat)

/-- The header at `o`, with `ps` allocated before. -/
def SegmentOk (B : Boot) (is_pie : Bool) (base : Addr) (ps : List Block) (o : Addr) : Prop :=
  fileField B.read.2 o p_type = PT_LOAD → Has B.read.2 o p_offset ∧
    ∀ ps', B.claimAt is_pie o ps = some ps' →
      Has B.read.2 o p_filesz ∧ Fits B.read.2 ps' base (segmentAt B.read.2 o)

/-- The headers from `os` on, up to a segment whose pages are refused. -/
def SegmentsOk (B : Boot) (is_pie : Bool) (base : Addr) : List Addr → List Block → Prop
  | [], _ => True
  | o :: os, ps => SegmentOk B is_pie base ps o ∧
    ∀ ps', B.claimAt is_pie o ps = some ps' → SegmentsOk B is_pie base os ps'

section Steps

variable {B : Boot} {elf_data o dest : Addr} {f : List Byte} {s : Store} {is_pie : Bool}

theorem spec_AllocatePages (hB : B.Behaves) (h : Ready B.dataPool.2 B.read.2 s)
    (type : AllocateType) (n : BitVec 64) (a : Addr) :
    Spec (Op.Ok B.dataPool.2 B.read.2.length) (AllocatePages B type n a) s True fun r s' =>
      match B.granted s.pages type n a with
      | none => ∃ e, r = .error e ∧ s' = s
      | some b => r = .ok b.addr ∧ s' = { s with pages := b :: s.pages } ∧
          Ready B.dataPool.2 B.read.2 s' := by
  unfold Boot.granted
  by_cases he : EFI_ERROR (B.allocatePages s.pages type n a).1
  · have hrun : AllocatePages B type n a s =
        some (.error (B.allocatePages s.pages type n a).1, s, []) := by
      simp only [AllocatePages, if_pos he]
    refine Spec.of_eq hrun (by simp) fun _ => ?_
    rw [if_pos he]
    exact ⟨_, rfl, rfl⟩
  · have hrun : AllocatePages B type n a s = some (.ok (B.allocatePages s.pages type n a).2,
        { s with pages := ⟨(B.allocatePages s.pages type n a).2, n.toNat⟩ :: s.pages }, []) := by
      simp only [AllocatePages, if_neg he]
    refine Spec.of_eq hrun (by simp) fun _ => ?_
    · rw [if_neg he]
      refine ⟨rfl, rfl, h.buffered, fun b hb x hx hin => ?_⟩
      rcases List.mem_cons.mp hb with rfl | hb
      · exact hB.free _ _ _ _ he x hx (Nat.lt_of_lt_of_le hin hB.read)
      · exact h.free b hb x hx hin

theorem spec_claim (hB : B.Behaves) (h : Ready B.dataPool.2 B.read.2 s)
    (hm : Has B.read.2 o p_memsz) (hv : Has B.read.2 o p_vaddr) :
    Spec (Op.Ok B.dataPool.2 B.read.2.length)
      (if is_pie then pure () else claim_segment B (B.dataPool.2 + o) dest) s
      (∀ ps, B.claim is_pie (fileField B.read.2 o p_vaddr) (fileField B.read.2 o p_memsz) s.pages =
        some ps → is_pie = false → Covered ps dest (fileField B.read.2 o p_memsz).toNat)
      fun r s' => match B.claim is_pie (fileField B.read.2 o p_vaddr)
          (fileField B.read.2 o p_memsz) s.pages with
        | none => ∃ e, r = .error e ∧ s' = s
        | some ps => r = .ok () ∧ s'.pages = ps ∧ Ready B.dataPool.2 B.read.2 s' ∧ s'.mem =
            if is_pie then s.mem
            else setMem dest (fileField B.read.2 o p_memsz).toNat 0 s.mem := by
  cases is_pie with
  | true =>
    refine ((Spec.pure ()).congr (by simp [Boot.claim])).mono ?_
    rintro _ _ - ⟨rfl, rfl⟩
    exact ⟨rfl, rfl, h, rfl⟩
  | false =>
    refine (spec_load h o p_memsz).bind_known hm ((spec_load h o p_vaddr).bind_known hv ?_)
    have halloc := spec_AllocatePages hB h .AllocateAddress
      (EFI_SIZE_TO_PAGES (fileField B.read.2 o p_memsz)) (fileField B.read.2 o p_vaddr)
    simp only [Boot.claim, Bool.false_eq_true, if_false]
    cases hg : B.granted s.pages .AllocateAddress
      (EFI_SIZE_TO_PAGES (fileField B.read.2 o p_memsz)) (fileField B.read.2 o p_vaddr) with
    | none =>
      rw [hg] at halloc
      refine (halloc.bind (D := True) ?_ ?_).congr (by simp)
      · rintro _ _ - ⟨_, ⟨⟩, -⟩
      · rintro e s' - ⟨-, -, hs⟩
        exact ⟨trivial, e, rfl, hs⟩
    | some b =>
      rw [hg] at halloc
      refine (halloc.bind (D := Covered (b :: s.pages) dest (fileField B.read.2 o p_memsz).toNat)
        ?_ ?_).congr (by simp)
      · rintro _ _ - ⟨⟨⟩, rfl, hr⟩
        refine (spec_load hr o p_memsz).bind_known hm ((spec_SetMem hr dest _ 0).mono ?_)
        rintro _ _ - ⟨rfl, rfl, hr'⟩
        exact ⟨rfl, rfl, hr', by dsimp only⟩
      · rintro _ _ - ⟨⟨⟩, -⟩

theorem spec_copy_file (h : Ready elf_data f s) (o' : Addr) :
    Spec (Op.Ok elf_data f.length) (copy_file (elf_data + o) dest (elf_data + o')) s
      (Has f o p_filesz ∧ Inside f o' (fileField f o p_filesz).toNat ∧
        Covered s.pages dest (fileField f o p_filesz).toNat)
      fun r s' => r = .ok () ∧ s'.pages = s.pages ∧ Ready elf_data f s' ∧
        s'.mem = copyMem dest (elf_data + o') (fileField f o p_filesz).toNat s.mem := by
  refine (spec_load h o p_filesz).bind_ok fun _ => ?_
  by_cases hpos : 0 < fileField f o p_filesz
  · rw [if_pos hpos]
    refine (spec_CopyMem h dest _ _).mono ?_
    rintro _ _ - ⟨rfl, rfl, hr⟩
    exact ⟨rfl, rfl, hr, by dsimp only⟩
  · have h0 : (fileField f o p_filesz).toNat = 0 := by
      rw [BitVec.lt_def] at hpos
      exact Nat.eq_zero_of_not_pos hpos
    rw [if_neg hpos, h0]
    refine ((Spec.pure ()).congr ?_).mono ?_
    · exact ⟨fun _ => ⟨fun k hk => absurd hk (Nat.not_lt_zero k),
        fun k hk => absurd hk (Nat.not_lt_zero k)⟩, fun _ => trivial⟩
    · rintro _ _ - ⟨rfl, rfl⟩
      exact ⟨rfl, rfl, h, (funext fun x => if_neg (Nat.not_lt_zero _)).symm⟩

theorem spec_clear_bss (h : Ready elf_data f s) (hf : Has f o p_filesz) (hm : Has f o p_memsz) :
    Spec (Op.Ok elf_data f.length) (clear_bss (elf_data + o) dest) s
      (fileField f o p_filesz < fileField f o p_memsz →
        Covered s.pages (dest + fileField f o p_filesz)
          (fileField f o p_memsz - fileField f o p_filesz).toNat)
      fun r s' => r = .ok () ∧ s'.pages = s.pages ∧ Ready elf_data f s' ∧ s'.mem =
        if fileField f o p_filesz < fileField f o p_memsz then
          setMem (dest + fileField f o p_filesz)
            (fileField f o p_memsz - fileField f o p_filesz).toNat 0 s.mem
        else s.mem := by
  refine (spec_load h o p_memsz).bind_known hm ((spec_load h o p_filesz).bind_known hf ?_)
  refine Spec.ite (fun hlt => ?_) fun hge => ?_
  · rw [if_pos hlt]
    refine (spec_SetMem h _ _ 0).mono ?_
    rintro _ _ - ⟨rfl, rfl, hr⟩
    exact ⟨rfl, rfl, hr, by dsimp only⟩
  · rw [if_neg hge]
    refine (Spec.pure ()).mono ?_
    rintro _ _ - ⟨rfl, rfl⟩
    exact ⟨rfl, rfl, h, rfl⟩

theorem inRange_bss {x F M : BitVec 64} (h : F < M) :
    InRange (dest + F) (M - F).toNat x ↔ F ≤ x - dest ∧ x - dest < M := by
  have hx : x - (dest + F) = x - dest - F := by ring
  rw [InRange, hx]
  generalize x - dest = k
  have hF := F.isLt
  have hM := M.isLt
  have hk := k.isLt
  simp only [BitVec.lt_def, BitVec.le_def, BitVec.toNat_sub] at h ⊢
  omega

/-- What the three steps have written is the segment in its place. -/
theorem place_eq {base : Addr} {m : Mem64} {g : Segment} (hr : Ready elf_data f s)
    (hin : Inside f g.offset g.filesz.toNat)
    (hs : s.mem = if is_pie then m else setMem (base + g.vaddr) g.memsz.toNat 0 m) :
    (if g.filesz < g.memsz then
      setMem (base + g.vaddr + g.filesz) (g.memsz - g.filesz).toNat 0
        (copyMem (base + g.vaddr) (elf_data + g.offset) g.filesz.toNat s.mem)
      else copyMem (base + g.vaddr) (elf_data + g.offset) g.filesz.toNat s.mem) =
    Segment.place f base m g := by
  funext x
  have hcopy : copyMem (base + g.vaddr) (elf_data + g.offset) g.filesz.toNat s.mem x =
      if x - (base + g.vaddr) < g.filesz then fileMem f (g.offset + (x - (base + g.vaddr)))
      else s.mem x := by
    by_cases hk : x - (base + g.vaddr) < g.filesz
    · rw [copyMem, if_pos hk, if_pos (show InRange _ _ _ from hk), BitVec.add_assoc]
      apply hr.buffered
      have h := hin _ hk
      rwa [BitVec.ofNat_toNat, BitVec.setWidth_eq] at h
    · rw [copyMem, if_neg hk, if_neg (show ¬InRange _ _ _ from hk)]
  have hclear : ¬x - (base + g.vaddr) < g.memsz → s.mem x = m x := fun hM => by
    rw [hs]
    split
    · rfl
    · exact if_neg hM
  rw [Segment.place]
  by_cases hlt : g.filesz < g.memsz
  · rw [if_pos hlt, setMem]
    by_cases hb : InRange (base + g.vaddr + g.filesz) (g.memsz - g.filesz).toNat x
    · obtain ⟨h1, h2⟩ := (inRange_bss hlt).mp hb
      rw [if_pos hb, if_neg (BitVec.not_lt.mpr h1), if_pos h2]
    · rw [if_neg hb, hcopy]
      split
      · rfl
      · rename_i hk
        have hM : ¬x - (base + g.vaddr) < g.memsz := fun hM =>
          hb ((inRange_bss hlt).mpr ⟨BitVec.not_lt.mp hk, hM⟩)
        rw [if_neg hM, hclear hM]
  · rw [if_neg hlt, hcopy]
    split
    · rfl
    · rename_i hk
      have hM : ¬x - (base + g.vaddr) < g.memsz := by
        simp only [BitVec.lt_def] at hk hlt ⊢
        omega
      rw [if_neg hM, hclear hM]

/-! ## A segment -/

theorem fits_iff {ps : List Block} {base : Addr} {g : Segment} : Fits f ps base g ↔
    (Inside f g.offset g.filesz.toNat ∧ Covered ps (base + g.vaddr) g.filesz.toNat) ∧
      (g.filesz < g.memsz →
        Covered ps (base + g.vaddr + g.filesz) (g.memsz - g.filesz).toNat) := by
  rw [Fits, covered_max, and_assoc, BitVec.ofNat_toNat, BitVec.setWidth_eq, BitVec.lt_def]
  refine and_congr_right fun _ => and_congr_right fun _ => forall_congr' fun hlt => ?_
  rw [BitVec.toNat_sub_of_le (BitVec.le_of_lt hlt)]

theorem fits_at_iff {ps : List Block} {base : Addr} :
    Has f o p_filesz ∧ Fits f ps base (segmentAt f o) ↔
      (Has f o p_filesz ∧ Inside f (fileField f o p_offset) (fileField f o p_filesz).toNat ∧
        Covered ps (base + fileField f o p_vaddr) (fileField f o p_filesz).toNat) ∧
      (fileField f o p_filesz < fileField f o p_memsz →
        Covered ps (base + fileField f o p_vaddr + fileField f o p_filesz)
          (fileField f o p_memsz - fileField f o p_filesz).toNat) :=
  (and_congr_right fun _ => fits_iff).trans and_assoc.symm

theorem spec_load_segment {base : Addr} (hB : B.Behaves) (h : Ready B.dataPool.2 B.read.2 s)
    (hm : Measured B.read.2 o) :
    Spec (Op.Ok B.dataPool.2 B.read.2.length)
      (load_segment B B.dataPool.2 is_pie base (B.dataPool.2 + o) ()) s
      (SegmentOk B is_pie base s.pages o)
      fun r s' => match B.claimAt is_pie o s.pages with
        | none => ∃ e, r = .error e ∧ s' = s
        | some ps => r = .ok (.yield ()) ∧ s'.pages = ps ∧ Ready B.dataPool.2 B.read.2 s' ∧
            s'.mem = (loadsAt B.read.2 [o]).foldl (Segment.place B.read.2 base) s.mem := by
  refine (spec_load h o p_type).bind_known hm.1 (Spec.ite (fun ht => ?_) fun ht => ?_)
  · rw [loadsAt_load ht, Boot.claimAt, if_pos ht]
    obtain ⟨hv, hmem⟩ := hm.2 ht
    refine (spec_load h o p_vaddr).bind_known hv ((spec_load h o p_offset).bind_ok fun _ => ?_)
    have hclaim := @spec_claim B o (base + fileField B.read.2 o p_vaddr) s is_pie hB h hmem hv
    cases hc : B.claim is_pie (fileField B.read.2 o p_vaddr) (fileField B.read.2 o p_memsz)
      s.pages with
    | none =>
      rw [hc] at hclaim
      refine (hclaim.bind (D := True) ?_ ?_).congr (by simp)
      · rintro _ _ - ⟨_, ⟨⟩, -⟩
      · rintro e s' - ⟨-, -, hs⟩
        exact ⟨trivial, e, rfl, hs⟩
    | some ps =>
      rw [hc] at hclaim
      refine (hclaim.bind
        (D := Has B.read.2 o p_filesz ∧ Fits B.read.2 ps base (segmentAt B.read.2 o)) ?_ ?_).congr ?_
      · rintro _ s1 - ⟨⟨⟩, rfl, hr1, hm1⟩
        refine Spec.congr ((spec_copy_file hr1 _).bind ?_ ?_) fits_at_iff.symm
        · rintro _ s2 hc ⟨⟨⟩, hp2, hr2, hm2⟩
          rw [← hp2]
          refine Spec.congr ((spec_clear_bss hr2 hc.1 hmem).bind ?_ ?_) (and_iff_left trivial)
          · rintro _ s3 - ⟨⟨⟩, hp3, hr3, hm3⟩
            refine (Spec.pure _).mono ?_
            rintro _ _ - ⟨rfl, rfl⟩
            refine ⟨rfl, hp3, hr3, ?_⟩
            rw [hm3, hm2]
            exact place_eq (g := segmentAt B.read.2 o) hr1 hc.2.1 hm1
          · rintro _ _ - ⟨⟨⟩, -⟩
        · rintro _ _ - ⟨⟨⟩, -⟩
      · rintro _ _ - ⟨⟨⟩, -⟩
      · refine ⟨fun hd ps' he => ?_, fun hd => ⟨fun ps' he _ => ?_, hd ps rfl⟩⟩
        · cases he
          exact hd.2
        · cases he
          exact (hd ps rfl).2.2.mono (Nat.le_max_right _ _)
  · rw [loadsAt_other ht, Boot.claimAt, if_neg ht]
    refine (Spec.pure _).mono ?_
    rintro _ _ - ⟨rfl, rfl⟩
    exact ⟨rfl, rfl, h, rfl⟩

end Steps

section SecondPass

variable {B : Boot} {base : Addr} {is_pie : Bool}

theorem claimAt_pie (B : Boot) (o : Addr) (ps : List Block) : B.claimAt true o ps = some ps := by
  simp only [Boot.claimAt, Boot.claim, if_true, ite_self]

/-- The rule of the second pass: what holds at its end, where a segment is refused, and of the
headers from one on if of those behind it. -/
theorem spec_segments {Q : List Addr → Store → Except Status Unit → Store → Prop} (hB : B.Behaves)
    (hh : HeaderRead B.read.2) (hnil : ∀ s, Ready B.dataPool.2 B.read.2 s → Q [] s (.ok ()) s)
    (hrefused : ∀ o os s e, B.claimAt is_pie o s.pages = none → Q (o :: os) s (.error e) s)
    (hplaced : ∀ o os s s1 r s', B.claimAt is_pie o s.pages = some s1.pages →
      s1.mem = (loadsAt B.read.2 [o]).foldl (Segment.place B.read.2 base) s.mem →
      Q os s1 r s' → Q (o :: os) s r s') {os : List Addr} :
    ∀ {fuel i : Nat} {s : Store}, Ready B.dataPool.2 B.read.2 s →
      (offsets B.read.2).drop i = os → os.length < fuel → (∀ o ∈ os, Measured B.read.2 o) →
      Spec (Op.Ok B.dataPool.2 B.read.2.length)
        (eachPhdr B.dataPool.2 (load_segment B B.dataPool.2 is_pie base) fuel i ()) s
        (SegmentsOk B is_pie base os s.pages) (Q os s) := by
  induction os with
  | nil =>
    intro fuel i s h hi hfuel _
    refine (eachPhdr_nil h hh hi hfuel).mono ?_
    rintro _ _ - ⟨rfl, rfl⟩
    exact hnil _ h
  | cons o os ih =>
    intro fuel i s h hi hfuel hm
    have hbody := @spec_load_segment B o s is_pie base hB h (hm o List.mem_cons_self)
    have hsplit : SegmentsOk B is_pie base (o :: os) s.pages ↔ SegmentOk B is_pie base s.pages o ∧
        ∀ ps, B.claimAt is_pie o s.pages = some ps → SegmentsOk B is_pie base os ps := Iff.rfl
    cases hc : B.claimAt is_pie o s.pages with
    | none =>
      rw [hc] at hbody hsplit
      refine Spec.congr (eachPhdr_cons (D := True) h hh hi hfuel hbody ?_ ?_ ?_)
        (by rw [hsplit]; simp)
      · rintro _ _ - ⟨_, ⟨⟩, -⟩
      · rintro _ _ - ⟨_, ⟨⟩, -⟩
      · rintro e s' - ⟨-, -, rfl⟩
        exact ⟨trivial, hrefused o os s' e hc⟩
    | some ps =>
      rw [hc] at hbody hsplit
      refine Spec.congr (eachPhdr_cons (D := SegmentsOk B is_pie base os ps) h hh hi hfuel hbody
        ?_ ?_ ?_) (by rw [hsplit]; simp)
      · rintro _ s1 - ⟨⟨⟩, rfl, hr, hmem⟩ fuel' hos hfuel'
        exact (ih hr hos hfuel' fun o ho => hm o (List.mem_cons_of_mem _ ho)).mono fun r s' _ hq =>
          hplaced o os s s1 r s' hc hmem hq
      · rintro _ _ - ⟨⟨⟩, -⟩
      · rintro _ _ - ⟨⟨⟩, -⟩

/-- What the second pass leaves from the headers `os` on: an error, or the segments in
their places. -/
def Placed (B : Boot) (is_pie : Bool) (base : Addr) (os : List Addr) (s : Store)
    (r : Except Status Unit) (s' : Store) : Prop :=
  (is_pie = false ∧ ∃ e, r = .error e) ∨
    (r = .ok () ∧ Ready B.dataPool.2 B.read.2 s' ∧
      s'.mem = (loadsAt B.read.2 os).foldl (Segment.place B.read.2 base) s.mem ∧
      (is_pie = true → s'.pages = s.pages))

/-- **The second pass.** -/
theorem spec_second_pass (hB : B.Behaves) (hh : HeaderRead B.read.2) {os : List Addr} :
    ∀ {fuel i : Nat} {s : Store}, Ready B.dataPool.2 B.read.2 s →
      (offsets B.read.2).drop i = os → os.length < fuel → (∀ o ∈ os, Measured B.read.2 o) →
      Spec (Op.Ok B.dataPool.2 B.read.2.length)
        (eachPhdr B.dataPool.2 (load_segment B B.dataPool.2 is_pie base) fuel i ()) s
        (SegmentsOk B is_pie base os s.pages) (Placed B is_pie base os s) := by
  refine spec_segments hB hh (fun s h => .inr ⟨rfl, h, rfl, fun _ => rfl⟩) (fun o os s e hc => ?_)
    fun o os s s1 r s' hc hmem hq => ?_
  · cases is_pie with
    | false => exact .inl ⟨rfl, e, rfl⟩
    | true =>
      rw [claimAt_pie] at hc
      cases hc
  · obtain herr | ⟨rfl, hr', hmem', hp'⟩ := hq
    · exact .inl herr
    · refine .inr ⟨rfl, hr', ?_, fun hp => ?_⟩
      · rw [hmem', hmem, loadsAt_cons B.read.2 o os, List.foldl_append]
      · subst hp
        rw [claimAt_pie] at hc
        rw [hp' rfl, Option.some.inj hc]

end SecondPass

end Osdev2.Efi
