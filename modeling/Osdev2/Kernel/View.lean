import Osdev2.Kernel.Shell

/-!
# The shell's variables as values

A `View` gives every byte of the static variables its value, without addresses.
The `read_` lemmas compute the view of a machine after each operation from the
one before, so that nothing above this module looks at an address of the shell
again.
-/

namespace Osdev2.Kernel

open Osdev2.Lib Osdev2.Libk

namespace View

/-- Another `shellbuf`. -/
def withBuf (v : View) (b : Byte → Byte) : View
  | .shellbuf i => b i
  | x => v x

/-- Another row of `shellhist`. -/
def withRow (v : View) (row : Byte) (b : Byte → Byte) : View
  | .shellhist r i => if r = row then b i else v (.shellhist r i)
  | x => v x

@[simp] theorem withBuf_shellbuf (v : View) (b : Byte → Byte) (i : Byte) :
    v.withBuf b (.shellbuf i) = b i := rfl

theorem withBuf_other (v : View) (b : Byte → Byte) {x : Static} (h : ∀ i, x ≠ .shellbuf i) :
    v.withBuf b x = v x := by
  cases x with
  | shellbuf i => exact absurd rfl (h i)
  | _ => rfl

theorem withRow_other (v : View) (row : Byte) (b : Byte → Byte) {x : Static}
    (h : ∀ i, x ≠ .shellhist row i) : v.withRow row b x = v x := by
  cases x with
  | shellhist r i => exact if_neg fun hr => h i (by rw [hr])
  | _ => rfl

end View

section Ranges

variable {P : Platform} (L : Layout P)

theorem addr_shellbuf_iff (x : Static) :
    L.shellbuf ≤ L.addr x ∧ L.addr x < L.shellbuf + 256 ↔ ∃ i, x = .shellbuf i := by
  constructor
  · rintro ⟨h1, h2⟩
    refine ⟨BitVec.ofNat 8 (L.addr x - L.shellbuf), L.inj _ _ ?_⟩
    rw [show ∀ i, L.addr (.shellbuf i) = L.shellbuf + i.toNat from fun _ => rfl, BitVec.toNat_ofNat]
    omega
  · rintro ⟨i, rfl⟩
    have := i.isLt
    simp only [Addresses.addr]
    omega

theorem row_eq (row : Byte) : L.row row.toNat = L.shellhist + 256 * row.toNat := by
  rw [Addresses.row]
  omega

theorem addr_row_iff (row : Byte) (x : Static) :
    L.row row.toNat ≤ L.addr x ∧ L.addr x < L.row row.toNat + 256 ↔ ∃ i, x = .shellhist row i := by
  rw [row_eq]
  constructor
  · rintro ⟨h1, h2⟩
    refine ⟨BitVec.ofNat 8 (L.addr x - (L.shellhist + 256 * row.toNat)), L.inj _ _ ?_⟩
    rw [show ∀ i, L.addr (.shellhist row i) = L.shellhist + 256 * row.toNat + i.toNat from
      fun _ => rfl, BitVec.toNat_ofNat]
    omega
  · rintro ⟨i, rfl⟩
    have := i.isLt
    simp only [Addresses.addr]
    omega

theorem shellbuf_row_disjoint (row : Byte) :
    L.shellbuf + 256 ≤ L.row row.toNat ∨ L.row row.toNat + 256 ≤ L.shellbuf := by
  have h := addr_row_iff L row (.shellbuf 0)
  have h' := addr_shellbuf_iff L (.shellhist row 0)
  rw [row_eq] at h ⊢
  simp only [Addresses.addr, reduceCtorEq, exists_false, iff_false] at h h'
  simp at h h'
  omega

variable {L}

theorem not_shellbuf {a : Nat} (ha : ∀ x, a ≠ L.addr x) : ¬(L.shellbuf ≤ a ∧ a < L.shellbuf + 256) := by
  rintro ⟨h1, h2⟩
  refine ha (.shellbuf (BitVec.ofNat 8 (a - L.shellbuf))) ?_
  rw [Addresses.addr, BitVec.toNat_ofNat]
  omega

theorem not_row {a : Nat} (ha : ∀ x, a ≠ L.addr x) (row : Byte) :
    ¬(L.row row.toNat ≤ a ∧ a < L.row row.toNat + 256) := by
  rw [row_eq]
  rintro ⟨h1, h2⟩
  refine ha (.shellhist row (BitVec.ofNat 8 (a - (L.shellhist + 256 * row.toNat)))) ?_
  rw [Addresses.addr, BitVec.toNat_ofNat]
  omega

end Ranges

namespace Machine

variable {P : Platform} {L : Layout P} (s : Machine P)

theorem read_write (x : Static) (v : Byte) :
    (s.write L x v).read L = Function.update (s.read L) x v := by
  funext y
  simp only [read, write, Function.update_apply]
  exact if_congr ⟨L.inj y x, fun h => h ▸ rfl⟩ rfl rfl

theorem read_clearbuf : (s.clearbuf L).read L = (s.read L).withBuf fun _ => 0 := by
  funext x
  simp only [read, clearbuf, memset_apply, addr_shellbuf_iff]
  cases x with
  | shellbuf i => exact if_pos ⟨i, rfl⟩
  | _ => exact if_neg (by rintro ⟨i, h⟩; cases h)

theorem read_loadRow_other (row : Int) {x : Static} (h : ∀ i, x ≠ .shellbuf i) :
    (s.loadRow L row).read L x = s.read L x :=
  memcpy_outside _ fun H => by
    obtain ⟨i, hi⟩ := (addr_shellbuf_iff L x).mp H
    exact h i hi

theorem read_loadRow (row : Byte) : (s.loadRow L row.toNat).read L =
    (s.read L).withBuf fun i => s.read L (.shellhist row i) := by
  funext x
  cases x with
  | shellbuf i =>
    have hlt := i.isLt
    simp only [read, loadRow]
    rw [memcpy_apply _ (shellbuf_row_disjoint L row), if_pos ((addr_shellbuf_iff L _).mpr ⟨i, rfl⟩),
      View.withBuf_shellbuf, row_eq]
    simp only [Addresses.addr, Nat.add_sub_cancel_left]
  | _ => exact read_loadRow_other s _ (by rintro i ⟨⟩)

theorem read_saveRow (row : Byte) : (s.saveRow L row.toNat).read L =
    (s.read L).withRow row fun i => s.read L (.shellbuf i) := by
  funext x
  simp only [read, saveRow]
  rw [memcpy_apply _ (shellbuf_row_disjoint L row).symm]
  by_cases h : ∃ i, x = .shellhist row i
  · rw [if_pos ((addr_row_iff L row x).mpr h)]
    obtain ⟨i, rfl⟩ := h
    rw [row_eq]
    simp only [Addresses.addr, Nat.add_sub_cancel_left, View.withRow, if_true, read]
  · rw [if_neg (mt (addr_row_iff L row x).mp h), View.withRow_other _ _ _ fun i hi => h ⟨i, hi⟩]
    rfl

theorem read_loadCursor (row : Byte) : (s.loadCursor L row).read L =
    Function.update (s.read L) .shellptr (s.read L (.shellptr_hist row)) := s.read_write _ _

theorem read_saveCursor (row : Byte) : (s.saveCursor L row).read L =
    Function.update (s.read L) (.shellptr_hist row) (s.read L .shellptr) := s.read_write _ _

end Machine

end Osdev2.Kernel
