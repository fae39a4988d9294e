import Mathlib

/-!
# Positional numerals

`numeral b n` are the digits of `n` in base `b`, most significant first, as they
are written; zero has one digit. `horner b a ds` is what a reader has after the
digits `ds` when it had `a` before. Reading a numeral gives the number back
(`horner_numeral`), leading zeros change nothing (`horner_zeros`), and the value
never shrinks while reading (`le_horner`), so a bound on the whole bounds every
prefix. `fixedDigits b w n` are the last `w` digits, a numeral filled up with zeros
where it is shorter (`zeros_numeral`).
-/

namespace Osdev2.Lib

/-- The digits of `n` in base `b`, most significant first. -/
def numeral (b n : Nat) : List Nat := if n = 0 then [0] else (Nat.digits b n).reverse

/-- The value of `ds` read after `a`. -/
def horner (b a : Nat) (ds : List Nat) : Nat := ds.foldl (fun a d => a * b + d) a

section Horner

variable {b a : Nat} {ds es : List Nat}

@[simp] theorem horner_nil : horner b a [] = a := rfl

@[simp] theorem horner_cons (d : Nat) : horner b a (d :: ds) = horner b (a * b + d) ds := rfl

theorem horner_append : horner b a (ds ++ es) = horner b (horner b a ds) es := List.foldl_append

theorem horner_zeros (k : Nat) : horner b 0 (List.replicate k 0 ++ ds) = horner b 0 ds := by
  induction k with
  | zero => rfl
  | succ k ih =>
    rw [List.replicate_succ, List.cons_append, horner_cons, Nat.zero_mul, Nat.add_zero]
    exact ih

theorem le_horner (hb : 0 < b) : a ≤ horner b a ds := by
  induction ds generalizing a with
  | nil => exact Nat.le_refl a
  | cons d ds ih =>
    calc a ≤ a * b := Nat.le_mul_of_pos_right a hb
      _ ≤ a * b + d := Nat.le_add_right _ _
      _ ≤ horner b (a * b + d) ds := ih

theorem horner_mono {b' a' : Nat} (hb : b ≤ b') (ha : a ≤ a') : horner b a ds ≤ horner b' a' ds := by
  induction ds generalizing a a' with
  | nil => exact ha
  | cons d ds ih => exact ih (Nat.add_le_add_right (Nat.mul_le_mul ha hb) d)

end Horner

section Numeral

variable {b n : Nat}

/-- The last digit, and the digits of the quotient before it. -/
theorem numeral_eq (hb : 1 < b) :
    numeral b n = (if n / b = 0 then [] else numeral b (n / b)) ++ [n % b] := by
  unfold numeral
  rcases Nat.eq_zero_or_pos n with rfl | hn
  · simp
  rw [if_neg (by omega), Nat.digits_def' hb hn, List.reverse_cons]
  split
  · rename_i h0
    rw [h0, Nat.digits_zero]
    rfl
  · rfl

theorem numeral_ne_nil (hb : 1 < b) : numeral b n ≠ [] := by
  rw [numeral_eq hb]
  simp

theorem numeral_lt (hb : 1 < b) : ∀ d ∈ numeral b n, d < b := by
  unfold numeral
  split
  · simp; omega
  · intro d hd
    exact Nat.digits_lt_base hb (List.mem_reverse.mp hd)

theorem horner_numeral (hb : 1 < b) : horner b 0 (numeral b n) = n := by
  induction n using Nat.strong_induction_on with
  | _ n ih =>
    rw [numeral_eq hb, horner_append]
    split
    · rename_i h0
      have hlt : n < b := (Nat.div_eq_zero_iff_lt (by omega)).mp h0
      rw [horner_cons, horner_nil, horner_nil, Nat.zero_mul, Nat.zero_add, Nat.mod_eq_of_lt hlt]
    · rename_i h0
      have hpos : 0 < n := Nat.pos_of_ne_zero fun h => h0 (by rw [h, Nat.zero_div])
      rw [ih _ (Nat.div_lt_self hpos hb), horner_cons, horner_nil, Nat.div_add_mod']

/-- Two or more digits are worth more in a larger base. -/
theorem lt_horner_numeral {b' : Nat} (hb : 1 < b) (hbb : b < b') (hn : b ≤ n) :
    n < horner b' 0 (numeral b n) := by
  have hpos : 0 < n / b := Nat.div_pos hn (by omega)
  rw [numeral_eq hb, if_neg (by omega), horner_append, horner_cons, horner_nil]
  calc n = n / b * b + n % b := (Nat.div_add_mod' n b).symm
    _ < n / b * b' + n % b := Nat.add_lt_add_right (Nat.mul_lt_mul_of_pos_left hbb hpos) _
    _ = horner b 0 (numeral b (n / b)) * b' + n % b := by rw [horner_numeral hb]
    _ ≤ horner b' 0 (numeral b (n / b)) * b' + n % b :=
      Nat.add_le_add_right (Nat.mul_le_mul_right _ (horner_mono (Nat.le_of_lt hbb) (Nat.le_refl 0))) _

/-- A number below `b ^ k` has at most `k` digits. -/
theorem length_numeral_le (hb : 1 < b) {k : Nat} (hk : 0 < k) (hn : n < b ^ k) :
    (numeral b n).length ≤ k := by
  unfold numeral
  split
  · exact hk
  · rw [List.length_reverse]
    exact (Nat.digits_length_le_iff hb n).mpr hn

/-- The last `w` digits of `n` in base `b`, most significant first. -/
def fixedDigits (b : Nat) : Nat → Nat → List Nat
  | 0, _ => []
  | w + 1, n => fixedDigits b w (n / b) ++ [n % b]

theorem fixedDigits_zero (b w : Nat) : fixedDigits b w 0 = List.replicate w 0 := by
  induction w with
  | zero => rfl
  | succ w ih => rw [fixedDigits, Nat.zero_div, Nat.zero_mod, ih, List.replicate_succ']

theorem zeros_numeral (hb : 1 < b) {w : Nat} (hn : n < b ^ (w + 1)) :
    List.replicate (w + 1 - (numeral b n).length) 0 ++ numeral b n = fixedDigits b (w + 1) n := by
  induction w generalizing n with
  | zero =>
    have hdiv : n / b = 0 := Nat.div_eq_of_lt (by simpa using hn)
    rw [numeral_eq hb, if_pos hdiv]
    rfl
  | succ w ih =>
    rw [fixedDigits, numeral_eq hb]
    split
    · rename_i h0
      rw [h0, fixedDigits_zero]
      rfl
    · have hlen : (numeral b (n / b) ++ [n % b]).length = (numeral b (n / b)).length + 1 :=
        List.length_append
      rw [hlen, Nat.add_sub_add_right, ← List.append_assoc,
        ih (Nat.div_lt_of_lt_mul (by rw [Nat.mul_comm, ← Nat.pow_succ]; exact hn))]

end Numeral

end Osdev2.Lib
