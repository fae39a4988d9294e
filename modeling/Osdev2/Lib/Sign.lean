import Mathlib

/-!
# Signs that follow an order

A comparison function returns a number whose sign says how its arguments are ordered
(`Follows`). Two that follow one order have the same sign, and such a sign is
antisymmetric and transitive as the order is. For lists ordered lexicographically there
is one lemma for each way in which two lists can begin.
-/

namespace Osdev2.Lib

section Follows

variable {α : Type*} [LinearOrder α] {x y z : α} {r r' r'' : Int}

/-- `r` is negative, zero or positive as `x` is below, equal to or above `y`. -/
structure Follows (r : Int) (x y : α) : Prop where
  lt : r < 0 ↔ x < y
  gt : 0 < r ↔ y < x

theorem Follows.zero_iff (h : Follows r x y) : r = 0 ↔ x = y := by
  constructor
  · rintro rfl
    exact le_antisymm (not_lt.mp fun hgt => lt_irrefl 0 (h.gt.mpr hgt))
      (not_lt.mp fun hlt => lt_irrefl 0 (h.lt.mpr hlt))
  · rintro rfl
    exact le_antisymm (not_lt.mp fun hpos => lt_irrefl x (h.gt.mp hpos))
      (not_lt.mp fun hneg => lt_irrefl x (h.lt.mp hneg))

theorem Follows.le_iff (h : Follows r x y) : r ≤ 0 ↔ x ≤ y := by
  rw [← not_lt, h.gt, not_lt]

theorem Follows.sign_eq (h : Follows r x y) (h' : Follows r' x y) : r.sign = r'.sign := by
  rcases lt_trichotomy x y with hlt | heq | hgt
  · rw [Int.sign_eq_neg_one_of_neg (h.lt.mpr hlt), Int.sign_eq_neg_one_of_neg (h'.lt.mpr hlt)]
  · rw [h.zero_iff.mpr heq, h'.zero_iff.mpr heq]
  · rw [Int.sign_eq_one_of_pos (h.gt.mpr hgt), Int.sign_eq_one_of_pos (h'.gt.mpr hgt)]

theorem Follows.neg (h : Follows r x y) : Follows (-r) y x :=
  ⟨neg_lt_zero.trans h.gt, neg_pos.trans h.lt⟩

theorem Follows.trans (h : Follows r x y) (h' : Follows r' y z) (h'' : Follows r'' x z) (hr : r ≤ 0)
    (hr' : r' ≤ 0) : r'' ≤ 0 :=
  h''.le_iff.mpr ((h.le_iff.mp hr).trans (h'.le_iff.mp hr'))

theorem follows_sub (a b : Nat) : Follows ((a : Int) - b) a b := ⟨by omega, by omega⟩

end Follows

/-! ## Lexicographically -/

section Lists

variable {β : Type*} [LinearOrder β] {r : Int} {a b : β} {x y : List β}

theorem follows_nil : Follows 0 ([] : List β) [] :=
  ⟨iff_of_false (lt_irrefl 0) (lt_irrefl _), iff_of_false (lt_irrefl 0) (lt_irrefl _)⟩

theorem follows_nil_cons (hr : r < 0) : Follows r [] (b :: y) :=
  ⟨iff_of_true hr (List.nil_lt_cons b y), iff_of_false (by omega) (List.not_lt_nil _)⟩

theorem follows_cons_nil (hr : 0 < r) : Follows r (a :: x) [] :=
  ⟨iff_of_false (by omega) (List.not_lt_nil _), iff_of_true hr (List.nil_lt_cons a x)⟩

theorem Follows.head (h : Follows r a b) (hne : a ≠ b) : Follows r (a :: x) (b :: y) := by
  refine ⟨?_, ?_⟩
  · rw [h.lt, List.cons_lt_cons_iff, or_iff_left fun hab => hne hab.1]
  · rw [h.gt, List.cons_lt_cons_iff, or_iff_left fun hab => hne hab.1.symm]

theorem Follows.tail (h : Follows r x y) (a : β) : Follows r (a :: x) (a :: y) :=
  ⟨h.lt.trans List.cons_lt_cons_self.symm, h.gt.trans List.cons_lt_cons_self.symm⟩

end Lists

end Osdev2.Lib
