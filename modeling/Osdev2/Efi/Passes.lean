import Osdev2.Efi.Segments

/-!
# From the header to the image

The checks of the header, the pages of a position-independent image, and the two
passes together (`spec_load_segments`). What the checks accept is `Accepted`;
`Boot.placed` is the base address, and the pages, the image goes to.
-/

namespace Osdev2.Efi

open Osdev2.Lib

/-! ## The header -/

section Header

variable {α : Type} {elf_data : Addr} {f : List Byte} {s : Store}

/-- The bytes of the header the checks look at, each once the ones before are right. -/
def HeaderLooked (f : List Byte) : Prop :=
  Has f 0 (e_ident 0) ∧ (fileField f 0 (e_ident 0) = 0x7F#64 →
  Has f 0 (e_ident 1) ∧ (fileField f 0 (e_ident 1) = 0x45#64 →
  Has f 0 (e_ident 2) ∧ (fileField f 0 (e_ident 2) = 0x4C#64 →
  Has f 0 (e_ident 3) ∧ (fileField f 0 (e_ident 3) = 0x46#64 →
  Has f 0 (e_ident 4) ∧ (fileField f 0 (e_ident 4) = 2#64 → Has f 0 e_type)))))

/-- An ELF64 file of type `ET_EXEC` or `ET_DYN`. -/
def Accepted (f : List Byte) : Prop :=
  fileField f 0 (e_ident 0) = 0x7F#64 ∧ fileField f 0 (e_ident 1) = 0x45#64 ∧
  fileField f 0 (e_ident 2) = 0x4C#64 ∧ fileField f 0 (e_ident 3) = 0x46#64 ∧
  fileField f 0 (e_ident 4) = 2#64 ∧
  (fileField f 0 e_type = ET_EXEC ∨ fileField f 0 e_type = ET_DYN)

def isPie (f : List Byte) : Bool := fileField f 0 e_type = ET_DYN

/-- The program passes `a` on when `A` holds, and fails otherwise. -/
def Verdict (A : Prop) (a : α) (s : Store) (r : Except Status α) (s' : Store) : Prop :=
  s' = s ∧ (A → r = .ok a) ∧ (¬A → ∃ e, r = .error e)

theorem spec_expect {k : Unit → Load α} {fld : Field} {v : BitVec 64} {status : Status}
    {A D : Prop} {a : α} (h : Ready elf_data f s)
    (hk : fileField f 0 fld = v → Spec (Op.Ok elf_data f.length) (k ()) s D (Verdict A a s)) :
    Spec (Op.Ok elf_data f.length) (expect elf_data fld v status >>= k) s
      (Has f 0 fld ∧ (fileField f 0 fld = v → D)) (Verdict (fileField f 0 fld = v ∧ A) a s) := by
  have hexpect : Spec (Op.Ok elf_data f.length) (expect elf_data fld v status) s (Has f 0 fld)
      (Verdict (fileField f 0 fld = v) () s) := by
    refine Spec.congr ((spec_load_header h fld).bind_ok fun _ => ?_) (and_iff_left trivial)
    by_cases hv : fileField f 0 fld = v
    · rw [if_pos hv]
      exact (Spec.pure ()).mono fun _ _ _ hr => ⟨hr.2, fun _ => hr.1, fun hn => absurd hv hn⟩
    · rw [if_neg hv]
      exact (Spec.throw status).mono fun _ _ _ hr =>
        ⟨hr.2, fun hp => absurd hp hv, fun _ => ⟨_, hr.1⟩⟩
  refine hexpect.bind ?_ ?_
  · rintro _ _ - ⟨rfl, -, hne⟩
    have hv : fileField f 0 fld = v := by
      by_contra hv
      obtain ⟨_, ⟨⟩⟩ := hne hv
    refine ((hk hv).congr ⟨fun hd _ => hd, fun hd => hd hv⟩).mono ?_
    rintro r s' - ⟨hs, hok, herr⟩
    exact ⟨hs, fun hA => hok hA.2, fun hA => herr fun hA' => hA ⟨hv, hA'⟩⟩
  · rintro e _ - ⟨rfl, hok, -⟩
    have hv : fileField f 0 fld ≠ v := fun hv => by cases hok hv
    exact ⟨fun hv' => absurd hv' hv, rfl, fun hA => absurd hA.1 hv, fun _ => ⟨e, rfl⟩⟩

theorem spec_check_header (h : Ready elf_data f s) :
    Spec (Op.Ok elf_data f.length) (check_header elf_data) s (HeaderLooked f)
      (Verdict (Accepted f) (isPie f) s) := by
  refine spec_expect h fun _ => spec_expect h fun _ => spec_expect h fun _ => spec_expect h fun _ =>
    spec_expect h fun _ => ?_
  refine Spec.congr ((spec_load_header h e_type).bind_ok fun _ => ?_) (and_iff_left trivial)
  by_cases ht : fileField f 0 e_type = ET_EXEC ∨ fileField f 0 e_type = ET_DYN
  · rw [if_pos ht]
    exact (Spec.pure _).mono fun _ _ _ hr => ⟨hr.2, fun _ => hr.1, fun hn => absurd ht hn⟩
  · rw [if_neg ht]
    exact (Spec.throw _).mono fun _ _ _ hr => ⟨hr.2, fun hp => absurd hp ht, fun _ => ⟨_, hr.1⟩⟩

end Header

/-! ## The base address -/

section Base

variable {B : Boot} {s : Store}

/-- The pages are those the bytes fill, the last one perhaps not whole. -/
theorem size_to_pages_toNat (a : BitVec 64) :
    (EFI_SIZE_TO_PAGES a).toNat = (a.toNat + 4095) / 4096 := by
  have hmask : (a &&& 0xFFF#64).toNat = a.toNat % 4096 := by
    rw [BitVec.toNat_and]
    exact Nat.and_two_pow_sub_one_eq_mod a.toNat 12
  have hlt := a.isLt
  have hshift : (a >>> 12).toNat = a.toNat / 4096 := by
    rw [BitVec.toNat_ushiftRight, Nat.shiftRight_eq_div_pow]
  rw [EFI_SIZE_TO_PAGES, BitVec.toNat_add, hshift]
  have hzero : a &&& 0xFFF#64 = 0 ↔ a.toNat % 4096 = 0 := by
    rw [← hmask, ← BitVec.toNat_inj]
    rfl
  by_cases h0 : a &&& 0xFFF#64 ≠ 0
  · rw [if_pos h0, BitVec.toNat_ofNat]
    rw [Ne, hzero] at h0
    omega
  · rw [if_neg h0, BitVec.toNat_ofNat]
    rw [not_ne_iff, hzero] at h0
    omega

theorem le_pages (a : BitVec 64) : a.toNat ≤ 4096 * (EFI_SIZE_TO_PAGES a).toNat := by
  rw [size_to_pages_toNat]
  omega

/-- The base address of the image and its pages. -/
def Boot.placed (B : Boot) (is_pie : Bool) (r : Range) : Option (Addr × List Block) :=
  if is_pie then
    (B.granted [] .AllocateAnyPages (EFI_SIZE_TO_PAGES (r.2 - r.1)) 0).map fun b =>
      (b.addr - r.1, [b])
  else some (0, [])

/-- The memory the second pass starts with. -/
def cleared (is_pie : Bool) (base : Addr) (r : Range) (m : Mem64) : Mem64 :=
  if is_pie then setMem (base + r.1) (r.2 - r.1).toNat 0 m else m

theorem spec_place_image {is_pie : Bool} {r : Range} (hB : B.Behaves)
    (h : Ready B.dataPool.2 B.read.2 s) (hs : s.pages = []) :
    Spec (Op.Ok B.dataPool.2 B.read.2.length) (place_image B is_pie r) s True fun res s' =>
      match B.placed is_pie r with
      | none => ∃ e, res = .error e ∧ s' = s
      | some (base, ps) => res = .ok base ∧ s'.pages = ps ∧ Ready B.dataPool.2 B.read.2 s' ∧
          s'.mem = cleared is_pie base r s.mem := by
  cases is_pie with
  | false =>
    refine (Spec.pure _).mono ?_
    rintro _ _ - ⟨rfl, rfl⟩
    exact ⟨rfl, hs, h, rfl⟩
  | true =>
    have halloc := spec_AllocatePages hB h .AllocateAnyPages (EFI_SIZE_TO_PAGES (r.2 - r.1)) 0
    simp only [place_image, if_true, Boot.placed]
    rw [hs] at halloc
    cases hg : B.granted [] .AllocateAnyPages (EFI_SIZE_TO_PAGES (r.2 - r.1)) 0 with
    | none =>
      rw [hg] at halloc
      refine (halloc.bind (D := True) ?_ ?_).congr (and_self_iff)
      · rintro _ _ - ⟨_, ⟨⟩, -⟩
      · rintro e s' - ⟨-, -, hs⟩
        exact ⟨trivial, e, rfl, hs⟩
    | some b =>
      rw [hg] at halloc
      have hpages := (granted_eq_some hg).2.2
      have hcov : Covered [b] b.addr (r.2 - r.1).toNat := fun k hk =>
        ⟨b, List.mem_singleton_self b, by
          have hle := le_pages (r.2 - r.1)
          apply inRange_self_add.mpr
          rw [hpages, BitVec.toNat_ofNat]
          exact Nat.lt_of_le_of_lt (Nat.mod_le _ _) (Nat.lt_of_lt_of_le hk hle)⟩
      refine (halloc.bind (D := True) ?_ ?_).congr (and_self_iff)
      · rintro _ _ - ⟨⟨⟩, rfl, hr⟩
        refine Spec.congr (((spec_SetMem hr _ _ 0).congr (iff_of_true hcov trivial)).bind
          (D := True) ?_ ?_) and_self_iff
        · rintro _ _ - ⟨⟨⟩, rfl, hr'⟩
          refine (Spec.pure _).mono ?_
          rintro _ _ - ⟨rfl, rfl⟩
          refine ⟨rfl, rfl, hr', ?_⟩
          rw [cleared, if_pos rfl, BitVec.sub_add_cancel]
        · rintro _ _ - ⟨⟨⟩, -⟩
      · rintro _ _ - ⟨⟨⟩, -⟩

end Base

/-! ## Both passes -/

section LoadSegments

variable {B : Boot} {s : Store}

theorem ready_filled (B : Boot) (m : Mem64) :
    Ready B.dataPool.2 B.read.2 (B.filled m) where
  buffered o ho := by
    simp only [Boot.filled, placeBytes, if_pos (inRange_self_add.mpr ho), add_sub_self_left]
    rfl
  free b hb := by cases hb

/-- The range of addresses the first pass finds. -/
def vaddrRange (f : List Byte) : Range := rangeOf (loads f) (BitVec.allOnes 64, 0)

/-- Where the kernel goes. -/
def Boot.kernelBase (B : Boot) : Option (Addr × List Block) :=
  B.placed (isPie B.read.2) (vaddrRange B.read.2)

/-- The accesses of the checks and of both passes are allowed. -/
def PassesOk (B : Boot) : Prop :=
  HeaderLooked B.read.2 ∧ (Accepted B.read.2 → HeaderRead B.read.2 ∧
    (∀ o ∈ offsets B.read.2, Measured B.read.2 o) ∧
    ∀ base ps, B.kernelBase = some (base, ps) →
      SegmentsOk B (isPie B.read.2) base (offsets B.read.2) ps)

/-- The image, with `m` the memory before. -/
def Boot.kernelImage (B : Boot) (base : Addr) (m : Mem64) : Mem64 :=
  image B.read.2 base (cleared (isPie B.read.2) base (vaddrRange B.read.2) m)

/-- What the passes leave. -/
def Imaged (B : Boot) (s : Store) : Except Status (Bool × Addr) → Store → Prop
  | .error _, _ => Accepted B.read.2 → isPie B.read.2 = true → B.kernelBase = none
  | .ok a, s' => Accepted B.read.2 ∧ ∃ base ps, B.kernelBase = some (base, ps) ∧
      a = (isPie B.read.2, base) ∧ Ready B.dataPool.2 B.read.2 s' ∧
      s'.mem = B.kernelImage base s.mem ∧ (isPie B.read.2 = true → s'.pages = ps)

/-- **Both passes.** -/
theorem spec_load_segments (hB : B.Behaves) (h : Ready B.dataPool.2 B.read.2 s)
    (hs : s.pages = []) :
    Spec (Op.Ok B.dataPool.2 B.read.2.length) (load_segments B B.dataPool.2) s (PassesOk B)
      (Imaged B s) := by
  refine (spec_check_header h).bind ?_ ?_
  rotate_left
  · rintro e s' - ⟨rfl, hok, -⟩
    have hna : ¬Accepted B.read.2 := fun ha => by cases hok ha
    exact ⟨fun ha => absurd ha hna, fun ha => absurd ha hna⟩
  rintro is_pie _ - ⟨rfl, hok, herr⟩
  have hacc : Accepted B.read.2 := by
    by_contra hna
    obtain ⟨_, ⟨⟩⟩ := herr hna
  obtain rfl : is_pie = isPie B.read.2 := Except.ok.inj (hok hacc)
  refine Spec.congr (Spec.of_imp (C := HeaderRead B.read.2) (fun hsound => ?_) fun hh => ?_)
    ⟨fun hc _ => hc, fun hc => hc hacc⟩
  · rw [sound_bind] at hsound
    obtain ⟨r, s', ops, hx, hok', -⟩ := hsound
    exact eachPhdr_reads h (by decide) ⟨r, s', ops, hx, hok'⟩
  refine (spec_first_pass h hh List.drop_zero (length_offsets_lt _)).bind_ok fun hm => ?_
  have hplace : Spec _ (place_image B (isPie B.read.2) (vaddrRange B.read.2)) _ True fun res s' =>
      match B.kernelBase with
      | none => ∃ e, res = .error e ∧ s' = _
      | some (base, ps) => res = .ok base ∧ s'.pages = ps ∧ Ready B.dataPool.2 B.read.2 s' ∧
          s'.mem = cleared (isPie B.read.2) base (vaddrRange B.read.2) _ :=
    spec_place_image hB h hs
  cases hk : B.kernelBase with
  | none =>
    rw [hk] at hplace
    refine (hplace.bind (D := True) ?_ ?_).congr (by simp)
    · rintro _ _ - ⟨_, ⟨⟩, -⟩
    · exact fun e s' _ _ => ⟨trivial, fun _ _ => hk⟩
  | some place =>
    obtain ⟨base, ps⟩ := place
    rw [hk] at hplace
    refine (hplace.bind (D := SegmentsOk B (isPie B.read.2) base (offsets B.read.2) ps)
      ?_ ?_).congr (by simp)
    · rintro _ s1 - ⟨⟨⟩, rfl, hr1, hm1⟩
      refine Spec.congr ((spec_second_pass hB hh hr1 List.drop_zero (length_offsets_lt _)
        hm).bind (D := True) ?_ ?_) (and_iff_left trivial)
      · rintro _ s2 - (⟨-, _, ⟨⟩⟩ | ⟨-, hr2, hm2, hp2⟩)
        refine (Spec.pure _).mono ?_
        rintro _ _ - ⟨rfl, rfl⟩
        refine ⟨hacc, base, s1.pages, hk, rfl, hr2, ?_, hp2⟩
        rw [hm2, hm1]
        rfl
      · rintro e s2 - (⟨hp, -⟩ | ⟨⟨⟩, -⟩)
        exact ⟨trivial, fun _ hp' => absurd hp' (by rw [hp]; decide)⟩
    · rintro _ _ - ⟨⟨⟩, -⟩

end LoadSegments

end Osdev2.Efi
