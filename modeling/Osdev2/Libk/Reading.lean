import Osdev2.Lib.Memory

/-!
# Checked reads of a string

A string may be read up to its terminator. `Reading` is a computation that fails at
the first read behind it; `Checked.read` is the read. Functions written over them are
the code's with the bound checked, and equal to it (`Reading.of`) where no read fails.
-/

namespace Osdev2.Libk

open Osdev2.Lib

/-- A computation that reads a string: `none` has read behind the terminator, `some none` does
not return. -/
abbrev Reading := OptionT Option

def Reading.of {α : Type} (x : Option α) : Reading α := OptionT.mk (some x)

/-- `s[i]`, of a string whose terminator is at `n`. -/
def Checked.read (s : CStr) (n i : Nat) : Reading Byte :=
  OptionT.mk (if i ≤ n then some (some (s i)) else none)

theorem of_bind {α β : Type} (x : Option α) (f : α → Reading β) :
    (Reading.of x >>= f) = match x with
      | none => Reading.of none
      | some a => f a := by
  cases x <;> rfl

section Read

variable {s : CStr} {l : List Byte} {i : Nat}

theorem read_eq (hi : i ≤ l.length) : Checked.read s l.length i = Reading.of (some (s i)) := by
  rw [Checked.read, if_pos hi]
  rfl

theorem drop_of_ne (h : IsText s l) (hi : i ≤ l.length) (hc : s i ≠ 0) :
    i + 1 ≤ l.length ∧ l.drop i = s i :: l.drop (i + 1) := by
  have hlt : i < l.length := by
    rcases Nat.eq_or_lt_of_le hi with rfl | hlt
    · exact absurd h.nul hc
    · exact hlt
  exact ⟨hlt, by rw [h.reads_lt hlt, ← List.drop_eq_getElem_cons hlt]⟩

theorem drop_cases (h : IsText s l) (hi : i ≤ l.length) :
    (s i = 0 ∧ i = l.length ∧ l.drop i = []) ∨
      (s i ≠ 0 ∧ i + 1 ≤ l.length ∧ l.drop i = s i :: l.drop (i + 1)) := by
  rcases Nat.eq_or_lt_of_le hi with rfl | hlt
  · exact Or.inl ⟨h.nul, rfl, List.drop_length⟩
  · have hne := h.ne_zero hlt
    exact Or.inr ⟨hne, drop_of_ne h hi hne⟩

end Read

end Osdev2.Libk
