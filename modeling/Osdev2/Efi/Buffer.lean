import Osdev2.Efi.Loader

/-!
# The file buffer

The accesses that are allowed (`Op.Ok`): reads inside the file and writes inside
the pages allocated before. As long as only such accesses have been made, the
buffer holds the file (`Ready`), so a field of a header is the file's
(`spec_load`). Each operation has its exact condition here.
-/

namespace Osdev2.Efi

open Osdev2.Lib

/-- Every one of the `n` bytes from `a` is in one of the pages. -/
def Covered (pages : List Block) (a : Addr) (n : Nat) : Prop :=
  ∀ k < n, ∃ b ∈ pages, InRange b.addr (4096 * b.pages) (a + BitVec.ofNat 64 k)

/-- The accesses that are allowed, with `size` bytes of file at `elf_data`. -/
def Op.Ok (elf_data : Addr) (size : Nat) : Op → Prop
  | .read a n => ∀ k < n, InRange elf_data size (a + BitVec.ofNat 64 k)
  | .write pages a n => Covered pages a n
  | .store pages a => Covered pages a 8

/-- The file as a memory from address 0. -/
def fileMem (f : List Byte) : Mem64 := fun o => f.getD o.toNat 0

/-- The `n` bytes from offset `o` are in the file. -/
def Inside (f : List Byte) (o : Addr) (n : Nat) : Prop :=
  ∀ k < n, (o + BitVec.ofNat 64 k).toNat < f.length

/-- A field of the structure at offset `o`. -/
def fileField (f : List Byte) (o : Addr) (fld : Field) : BitVec 64 := field (fileMem f) o fld

def Has (f : List Byte) (o : Addr) (fld : Field) : Prop :=
  Inside f (o + BitVec.ofNat 64 fld.off) fld.size

/-- The buffer holds the file, and no page overlaps it. -/
structure Ready (elf_data : Addr) (f : List Byte) (s : Store) : Prop where
  buffered : ∀ o : Addr, o.toNat < f.length → s.mem (elf_data + o) = fileMem f o
  free : ∀ b ∈ s.pages, ∀ x, InRange b.addr (4096 * b.pages) x → ¬InRange elf_data f.length x

section Ranges

variable {elf_data a b : Addr} {f : List Byte} {ps : List Block} {n m : Nat}

theorem add_sub_self_left (a b : Addr) : a + b - a = b := by
  rw [BitVec.add_comm, BitVec.add_sub_cancel]

theorem inRange_self_add {o : Addr} : InRange a n (a + o) ↔ o.toNat < n := by
  rw [InRange, add_sub_self_left]

theorem add_sub_self_right (a x : Addr) : a + (x - a) = x := by
  rw [BitVec.add_comm, BitVec.sub_add_cancel]

theorem Covered.inRange (h : Covered ps a n) (x : Addr) (hx : InRange a n x) :
    ∃ b ∈ ps, InRange b.addr (4096 * b.pages) x := by
  obtain ⟨b, hb, hin⟩ := h _ hx
  rw [BitVec.ofNat_toNat, BitVec.setWidth_eq, add_sub_self_right] at hin
  exact ⟨b, hb, hin⟩

theorem Covered.mono (h : Covered ps a n) (hm : m ≤ n) : Covered ps a m :=
  fun k hk => h k (Nat.lt_of_lt_of_le hk hm)

theorem covered_max : Covered ps a (max n m) ↔
    Covered ps a n ∧ (n < m → Covered ps (a + BitVec.ofNat 64 n) (m - n)) := by
  have hshift : ∀ k, a + BitVec.ofNat 64 n + BitVec.ofNat 64 k = a + BitVec.ofNat 64 (n + k) :=
    fun k => by rw [BitVec.add_assoc, ← BitVec.ofNat_add]
  constructor
  · refine fun h => ⟨h.mono (Nat.le_max_left _ _), fun _ k hk => ?_⟩
    rw [hshift]
    exact h _ (by omega)
  · rintro ⟨h1, h2⟩ k hk
    rcases Nat.lt_or_ge k n with hkn | hkn
    · exact h1 k hkn
    · have h := h2 (by omega) (k - n) (by omega)
      rwa [hshift, Nat.add_sub_cancel' hkn] at h

theorem read_ok_iff {o : Addr} :
    (Op.read (elf_data + o) n).Ok elf_data f.length ↔ Inside f o n := by
  simp only [Op.Ok, BitVec.add_assoc, inRange_self_add, Inside]

end Ranges

/-! ## The specifications of the operations -/

section Operations

variable {elf_data o a : Addr} {f : List Byte} {s : Store} {fld : Field}

theorem field_buffered (h : Ready elf_data f s) (hf : Has f o fld) :
    field s.mem (elf_data + o) fld = fileField f o fld := by
  rw [fileField, field, field]
  congr 1
  refine loadLE_congr fun k hk => ?_
  rw [BitVec.add_assoc, BitVec.add_assoc, h.buffered _ (by rw [← BitVec.add_assoc]; exact hf k hk),
    BitVec.add_assoc]

theorem spec_load_raw (o : Addr) (fld : Field) :
    Spec (Op.Ok elf_data f.length) (load (elf_data + o) fld) s (Has f o fld)
      fun r s' => r = .ok (field s.mem (elf_data + o) fld) ∧ s' = s :=
  Spec.of_eq rfl (by rw [List.forall_mem_singleton, BitVec.add_assoc]; exact read_ok_iff)
    fun _ => ⟨rfl, rfl⟩

theorem spec_load (h : Ready elf_data f s) (o : Addr) (fld : Field) :
    Spec (Op.Ok elf_data f.length) (load (elf_data + o) fld) s (Has f o fld)
      fun r s' => r = .ok (fileField f o fld) ∧ s' = s :=
  (spec_load_raw o fld).mono fun _ _ hf hr => by rwa [field_buffered h hf] at hr

theorem spec_load_header (h : Ready elf_data f s) (fld : Field) :
    Spec (Op.Ok elf_data f.length) (load elf_data fld) s (Has f 0 fld)
      fun r s' => r = .ok (fileField f 0 fld) ∧ s' = s := by
  have := spec_load h 0 fld
  rwa [show elf_data + 0 = elf_data from BitVec.add_zero _] at this

theorem Ready.write {m : Mem64} {n : Nat} (h : Ready elf_data f s) (hc : Covered s.pages a n)
    (hm : ∀ x, ¬InRange a n x → m x = s.mem x) : Ready elf_data f { s with mem := m } where
  buffered o ho := by
    rw [← h.buffered o ho]
    refine hm _ fun hin => ?_
    obtain ⟨b, hb, hx⟩ := hc.inRange _ hin
    exact h.free b hb _ hx (inRange_self_add.mpr ho)
  free := h.free

theorem spec_SetMem (h : Ready elf_data f s) (a : Addr) (n : BitVec 64) (v : Byte) :
    Spec (Op.Ok elf_data f.length) (SetMem a n v) s (Covered s.pages a n.toNat)
      fun r s' => r = .ok () ∧ s' = { s with mem := setMem a n.toNat v s.mem } ∧
        Ready elf_data f s' :=
  Spec.of_eq rfl (by rw [List.forall_mem_singleton]; rfl)
    fun hc => ⟨rfl, rfl, h.write hc fun _ hx => if_neg hx⟩

theorem spec_CopyMem (h : Ready elf_data f s) (dest o : Addr) (n : BitVec 64) :
    Spec (Op.Ok elf_data f.length) (CopyMem dest (elf_data + o) n) s
      (Inside f o n.toNat ∧ Covered s.pages dest n.toNat)
      fun r s' => r = .ok () ∧
        s' = { s with mem := copyMem dest (elf_data + o) n.toNat s.mem } ∧ Ready elf_data f s' :=
  Spec.of_eq rfl
    (by rw [List.forall_mem_cons, List.forall_mem_singleton, read_ok_iff]; rfl)
    fun hc => ⟨rfl, rfl, h.write hc.2 fun _ hx => if_neg hx⟩

end Operations

-- from here on a field of the file is a value, never computed
attribute [irreducible] fileField

end Osdev2.Efi
