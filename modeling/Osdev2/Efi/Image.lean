import Osdev2.Efi.Buffer

/-!
# The image of the kernel

What the two passes are for, said on the file alone: `offsets` are the program
headers, `segmentAt` one of them, and `image` is memory with every `PT_LOAD`
segment in its place, the bytes of the file first and zeros after them.
`spec_first_pass` and `spec_second_pass` say when the passes make allowed
accesses only, and that they then leave the range of addresses and the image.
-/

namespace Osdev2.Efi

open Osdev2.Lib

/-- A program header. -/
structure Segment where
  type : BitVec 64
  offset : BitVec 64
  vaddr : BitVec 64
  filesz : BitVec 64
  memsz : BitVec 64
  deriving DecidableEq

/-- `min_vaddr` and `max_vaddr` of segments, from `r`. -/
def rangeOf (gs : List Segment) (r : Range) : Range :=
  gs.foldl (fun r g => r.extend g.vaddr g.memsz) r

section File

variable (f : List Byte)

abbrev segmentAt (o : Addr) : Segment where
  type := fileField f o p_type
  offset := fileField f o p_offset
  vaddr := fileField f o p_vaddr
  filesz := fileField f o p_filesz
  memsz := fileField f o p_memsz

def phdrOff (i : Nat) : Addr := fileField f 0 e_phoff + stride i (fileField f 0 e_phentsize)

/-- The offsets of the program headers. -/
def offsets : List Addr := (List.range (fileField f 0 e_phnum).toNat).map (phdrOff f)

/-- The segments to load among those at `os`. -/
def loadsAt (os : List Addr) : List Segment :=
  (os.map (segmentAt f)).filter fun g => g.type = PT_LOAD

def loads : List Segment := loadsAt f (offsets f)

/-- A segment in its place. -/
def Segment.place (base : Addr) (m : Mem64) (g : Segment) : Mem64 := fun x =>
  let k := x - (base + g.vaddr)
  if k < g.filesz then fileMem f (g.offset + k) else if k < g.memsz then 0 else m x

def image (base : Addr) (m : Mem64) : Mem64 := (loads f).foldl (Segment.place f base) m

end File

section Loop

variable {α : Type} {elf_data : Addr} {f : List Byte} {s : Store} {fuel i : Nat} {a : α}
  {body : Addr → α → Load (ForInStep α)}

/-- The header fields the loops read. -/
def HeaderRead (f : List Byte) : Prop :=
  Has f 0 e_phnum ∧ Has f 0 e_phoff ∧ Has f 0 e_phentsize ∧ Has f 0 e_entry

theorem headerRead_iff : Has f 0 e_phnum ↔ HeaderRead f := by
  refine ⟨fun h => ?_, fun h => h.1⟩
  have hlen : 57 < f.length := h 1 (by decide)
  have hall : ∀ fld : Field, fld.off + fld.size ≤ 58 → Has f 0 fld := fun fld hfld k hk => by
    rw [show (0 : Addr) + BitVec.ofNat 64 fld.off = BitVec.ofNat 64 fld.off from BitVec.zero_add _,
      ← BitVec.ofNat_add, BitVec.toNat_ofNat]
    omega
  exact ⟨h, hall _ (by decide), hall _ (by decide), hall _ (by decide)⟩

/-- Every loop starts by reading `e_phnum`. -/
theorem eachPhdr_reads (h : Ready elf_data f s) (hfuel : 0 < fuel)
    (hs : Sound (Op.Ok elf_data f.length) (eachPhdr elf_data body fuel i a) s) :
    HeaderRead f := by
  obtain ⟨fuel, rfl⟩ := Nat.exists_eq_succ_of_ne_zero (Nat.ne_of_gt hfuel)
  rw [eachPhdr, sound_bind] at hs
  obtain ⟨r, s', ops, hx, hok, -⟩ := hs
  exact headerRead_iff.mp ((spec_load_header h e_phnum).sound.mp ⟨r, s', ops, hx, hok⟩)

theorem length_offsets (f : List Byte) : (offsets f).length = (fileField f 0 e_phnum).toNat := by
  rw [offsets, List.length_map, List.length_range]

theorem length_offsets_lt (f : List Byte) : (offsets f).length < 2 ^ 16 := by
  have h := loadLE_lt (fileMem f) (0 + BitVec.ofNat 64 e_phnum.off) 2
  rw [length_offsets, fileField, field, BitVec.toNat_ofNat]
  exact Nat.lt_of_le_of_lt (Nat.mod_le _ _) h

theorem eachPhdr_nil (h : Ready elf_data f s) (hh : HeaderRead f) (hi : (offsets f).drop i = [])
    (hfuel : 0 < fuel) :
    Spec (Op.Ok elf_data f.length) (eachPhdr elf_data body fuel i a) s True
      fun r s' => r = .ok a ∧ s' = s := by
  obtain ⟨fuel, rfl⟩ := Nat.exists_eq_succ_of_ne_zero (Nat.ne_of_gt hfuel)
  rw [List.drop_eq_nil_iff, length_offsets] at hi
  rw [eachPhdr]
  refine (spec_load_header h e_phnum).bind_known hh.1 ?_
  rw [if_neg (by omega)]
  exact Spec.pure a

theorem eachPhdr_cons {o : Addr} {os : List Addr} {C D : Prop}
    {Q : Except Status (ForInStep α) → Store → Prop} {R : Except Status α → Store → Prop}
    (h : Ready elf_data f s) (hh : HeaderRead f) (hi : (offsets f).drop i = o :: os)
    (hfuel : os.length + 1 < fuel)
    (hbody : Spec (Op.Ok elf_data f.length) (body (elf_data + o) a) s C Q)
    (hyield : ∀ a' s', C → Q (.ok (.yield a')) s' → ∀ fuel', (offsets f).drop (i + 1) = os →
      os.length < fuel' →
      Spec (Op.Ok elf_data f.length) (eachPhdr elf_data body fuel' (i + 1) a') s' D R)
    (hdone : ∀ a' s', C → Q (.ok (.done a')) s' → D ∧ R (.ok a') s')
    (herr : ∀ e s', C → Q (.error e) s' → D ∧ R (.error e) s') :
    Spec (Op.Ok elf_data f.length) (eachPhdr elf_data body fuel i a) s (C ∧ D) R := by
  obtain ⟨fuel, rfl⟩ := Nat.exists_eq_succ_of_ne_zero (Nat.ne_of_gt (Nat.zero_lt_of_lt hfuel))
  have hlt : i < (offsets f).length := by
    by_contra hge
    rw [List.drop_eq_nil_of_le (Nat.le_of_not_lt hge)] at hi
    cases hi
  rw [List.drop_eq_getElem_cons hlt] at hi
  obtain ⟨ho, hos⟩ := List.cons.inj hi
  simp only [offsets, List.getElem_map, List.getElem_range] at ho
  rw [eachPhdr]
  refine (spec_load_header h e_phnum).bind_known hh.1 ?_
  rw [if_pos (by rwa [length_offsets] at hlt)]
  refine (spec_load_header h e_phoff).bind_known hh.2.1 ?_
  refine (spec_load_header h e_phentsize).bind_known hh.2.2.1 ?_
  rw [BitVec.add_assoc, show fileField f 0 e_phoff + stride i (fileField f 0 e_phentsize) = o from ho]
  refine hbody.bind (fun step s' hc hq => ?_) herr
  cases step with
  | done a' =>
    obtain ⟨hd, hr⟩ := hdone a' s' hc hq
    exact ((Spec.pure a').mono (by rintro _ _ - ⟨rfl, rfl⟩; exact hr)).congr (by simp [hd])
  | yield a' => exact hyield a' s' hc hq fuel hos (Nat.lt_of_succ_lt_succ hfuel)

end Loop

theorem loadsAt_load {f : List Byte} {o : Addr} (h : (segmentAt f o).type = PT_LOAD)
    (os : List Addr) : loadsAt f (o :: os) = segmentAt f o :: loadsAt f os := by
  rw [loadsAt, List.map_cons, List.filter_cons_of_pos (by simpa using h)]
  rfl

theorem loadsAt_other {f : List Byte} {o : Addr} (h : (segmentAt f o).type ≠ PT_LOAD)
    (os : List Addr) : loadsAt f (o :: os) = loadsAt f os := by
  rw [loadsAt, List.map_cons, List.filter_cons_of_neg (by simpa using h)]
  rfl

theorem loadsAt_cons (f : List Byte) (o : Addr) (os : List Addr) :
    loadsAt f (o :: os) = loadsAt f [o] ++ loadsAt f os := by
  rw [loadsAt, loadsAt, loadsAt, ← List.filter_append, ← List.map_append]
  rfl

/-! ## The first pass -/

section FirstPass

variable {elf_data : Addr} {f : List Byte} {s : Store}

/-- The fields the first pass reads. -/
def Measured (f : List Byte) (o : Addr) : Prop :=
  Has f o p_type ∧ ((segmentAt f o).type = PT_LOAD → Has f o p_vaddr ∧ Has f o p_memsz)

theorem spec_measure (h : Ready elf_data f s) (o : Addr) (r : Range) :
    Spec (Op.Ok elf_data f.length) (measure (elf_data + o) r) s (Measured f o) fun res s' =>
      res = .ok (.yield (rangeOf (loadsAt f [o]) r)) ∧ s' = s := by
  refine (spec_load h o p_type).bind_ok fun _ => Spec.ite (fun ht => ?_) fun ht => ?_
  · rw [loadsAt_load ht]
    refine (spec_load h o p_vaddr).bind_ok fun _ => Spec.congr ?_ (and_iff_left trivial)
    exact (spec_load h o p_memsz).bind_ok fun _ => Spec.pure _
  · rw [loadsAt_other ht]
    exact Spec.pure _

/-- The first pass from the headers `os` on. -/
theorem spec_first_pass (h : Ready elf_data f s) (hh : HeaderRead f) {os : List Addr} :
    ∀ {fuel i : Nat} {r : Range}, (offsets f).drop i = os → os.length < fuel →
      Spec (Op.Ok elf_data f.length) (eachPhdr elf_data measure fuel i r) s
        (∀ o ∈ os, Measured f o) fun res s' => res = .ok (rangeOf (loadsAt f os) r) ∧ s' = s := by
  induction os with
  | nil => exact fun hi hfuel => (eachPhdr_nil h hh hi hfuel).congr (by simp)
  | cons o os ih =>
    intro fuel i r hi hfuel
    rw [loadsAt_cons, rangeOf, List.foldl_append]
    refine Spec.congr (eachPhdr_cons h hh hi hfuel (spec_measure h o r) ?_ ?_ ?_)
      List.forall_mem_cons.symm
    · rintro _ _ - ⟨⟨⟩, rfl⟩ fuel' hos hfuel'
      exact ih hos hfuel'
    · rintro _ _ - ⟨⟨⟩, -⟩
    · rintro _ _ - ⟨⟨⟩, -⟩

end FirstPass

end Osdev2.Efi
