import Mathlib

/-!
# First and last

The result of a search for an element with a property, as a relation: the first index
at which it holds, or the last, or `none` if it holds nowhere. A search that goes on to
the end finds the last one by `Last.succ`.
-/

namespace Osdev2.Lib

/-- The first index below `n` at which `p` holds. -/
def First {α : Type*} (p : α → Prop) (s : Nat → α) (n : Nat) : Option Nat → Prop
  | none => ∀ i, i < n → ¬p (s i)
  | some i => (i < n ∧ p (s i)) ∧ ∀ j, j < i → ¬p (s j)

/-- The last. -/
def Last {α : Type*} (p : α → Prop) (s : Nat → α) (n : Nat) : Option Nat → Prop
  | none => ∀ i, i < n → ¬p (s i)
  | some i => (i < n ∧ p (s i)) ∧ ∀ j, i < j → j < n → ¬p (s j)

section FirstLast

variable {α : Type*} {p q : α → Prop} {s : Nat → α} {n : Nat} {r r' : Option Nat}

theorem First.congr (h : First p s n r) (hpq : ∀ b, p b ↔ q b) : First q s n r := by
  obtain rfl : p = q := funext fun b => propext (hpq b)
  exact h

theorem Last.congr (h : Last p s n r) (hpq : ∀ b, p b ↔ q b) : Last q s n r := by
  obtain rfl : p = q := funext fun b => propext (hpq b)
  exact h

theorem First.eq_none_iff (h : First p s n r) : r = none ↔ ∀ i, i < n → ¬p (s i) := by
  cases r with
  | none => exact iff_of_true rfl h
  | some i => exact iff_of_false nofun fun hno => hno i h.1.1 h.1.2

theorem Last.eq_none_iff (h : Last p s n r) : r = none ↔ ∀ i, i < n → ¬p (s i) := by
  cases r with
  | none => exact iff_of_true rfl h
  | some i => exact iff_of_false nofun fun hno => hno i h.1.1 h.1.2

theorem First.unique (h : First p s n r) (h' : First p s n r') : r = r' := by
  cases r with
  | none => exact (h'.eq_none_iff.mpr h).symm
  | some i =>
    cases r' with
    | none => exact h.eq_none_iff.mpr h'
    | some j =>
      rcases Nat.lt_trichotomy i j with hlt | rfl | hlt
      · exact absurd h.1.2 (h'.2 i hlt)
      · rfl
      · exact absurd h'.1.2 (h.2 j hlt)

theorem Last.succ [Decidable (p (s n))] (h : Last p s n r) :
    Last p s (n + 1) (if p (s n) then some n else r) := by
  split
  · rename_i hp
    exact ⟨⟨Nat.lt_succ_self n, hp⟩, fun j h1 h2 => absurd h2 (by omega)⟩
  · rename_i hp
    have hstep : ∀ {j}, (j < n → ¬p (s j)) → j < n + 1 → ¬p (s j) := fun hj hlt =>
      (Nat.lt_succ_iff_lt_or_eq.mp hlt).elim hj fun heq => heq ▸ hp
    cases r with
    | none => exact fun i => hstep (h i)
    | some i => exact ⟨⟨Nat.lt_succ_of_lt h.1.1, h.1.2⟩, fun j hij => hstep (h.2 j hij)⟩

end FirstLast

end Osdev2.Lib
