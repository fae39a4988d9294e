import Osdev2.Lib.Digits
import Osdev2.Libk.Printf

/-!
# Numbers in `printf`

`divmod_u64` doubles a 32-bit divisor against a 64-bit dividend. Below `limit`
no doubling overflows: `scaleUp_spec` keeps the divisor at `B * 2 ^ k` next to
`b = 2 ^ k`, `scaleDown_spec` is the long division from there, and the two give
`divmod_u64_spec`. From `limit` on the divisor is shifted out and the loop never
ends (`scaleUp_never`, for the bases `vprintf` uses): `divides_iff`.

`int_str_text` says what `__int_str` leaves in its array: sign, digits and padding
(`unpadded`, `padded`) up to the first NUL. Base 17 has a digit that is one. Its arrays
are `writeAt` arrays, and `in_bounds_iff` says for which fields they are large enough
(`Room`).
-/

namespace Osdev2.Libk
open Osdev2.Lib

/-! ## Division -/

/-- The dividends the doubling loop ends on are those below. -/
def limit (B : Nat) : Nat := B * 2 ^ (32 - Nat.log2 B)

theorem two_pow_le_limit {B : Nat} (hB : 0 < B) : 2 ^ 32 ≤ limit B := by
  have h1 : 2 ^ Nat.log2 B ≤ B := Nat.log2_self_le (by omega)
  calc 2 ^ 32 ≤ 2 ^ (Nat.log2 B + (32 - Nat.log2 B)) := Nat.pow_le_pow_right (by decide) (by omega)
    _ = 2 ^ Nat.log2 B * 2 ^ (32 - Nat.log2 B) := Nat.pow_add ..
    _ ≤ limit B := Nat.mul_le_mul_right _ h1

/-- A doubling that the dividend still asks for fits in 32 bits. -/
theorem double_lt {B k n : Nat} (hn : n < limit B) (hle : B * 2 ^ k ≤ n / 2) :
    B * 2 ^ (k + 1) < 2 ^ 32 := by
  have hlog : B < 2 ^ (Nat.log2 B + 1) := Nat.lt_log2_self
  have hpow : B * 2 ^ (k + 1) = 2 * (B * 2 ^ k) := by rw [Nat.pow_succ]; ring
  have hk : 2 ^ (k + 1) < 2 ^ (32 - Nat.log2 B) := by
    refine Nat.lt_of_mul_lt_mul_left (a := B) ?_
    unfold limit at hn
    omega
  have hexp : k + 1 < 32 - Nat.log2 B := (Nat.pow_lt_pow_iff_right (by decide)).mp hk
  calc B * 2 ^ (k + 1) < 2 ^ (Nat.log2 B + 1) * 2 ^ (k + 1) :=
        Nat.mul_lt_mul_of_pos_right hlog (Nat.two_pow_pos _)
    _ = 2 ^ (Nat.log2 B + 1 + (k + 1)) := (Nat.pow_add ..).symm
    _ ≤ 2 ^ 32 := Nat.pow_le_pow_right (by decide) (by omega)

theorem half_toNat (n : BitVec 64) : (n >>> 1).toNat = n.toNat / 2 := by
  rw [BitVec.toNat_ushiftRight, Nat.shiftRight_eq_div_pow, Nat.pow_one]

theorem scaleUp_spec {n : BitVec 64} {B : Nat} (hB : 0 < B) (hn : n.toNat < limit B) :
    ∀ {fuel k : Nat} {base : BitVec 32} {b : BitVec 64}, base.toNat = B * 2 ^ k → b.toNat = 2 ^ k →
      32 ≤ k + fuel → ∃ K base' b', scaleUp n fuel base b = some (base', b') ∧
        base'.toNat = B * 2 ^ K ∧ b'.toNat = 2 ^ K ∧ n.toNat < 2 * (B * 2 ^ K) ∧ K < 32 := by
  have hsmall : ∀ {k : Nat} {base : BitVec 32}, base.toNat = B * 2 ^ k → k < 32 := by
    intro k base hbase
    by_contra h
    have h1 : 2 ^ 32 ≤ 2 ^ k := Nat.pow_le_pow_right (by decide) (by omega)
    have h2 : 2 ^ k ≤ B * 2 ^ k := Nat.le_mul_of_pos_left _ hB
    have h3 := base.isLt
    omega
  intro fuel
  induction fuel with
  | zero =>
    intro k base b hbase _ hk
    exact absurd (hsmall hbase) (by omega)
  | succ fuel ih =>
    intro k base b hbase hb hk
    have hk32 := hsmall hbase
    have hk64 : 2 ^ k ≤ 2 ^ 31 := Nat.pow_le_pow_right (by decide) (by omega)
    rw [scaleUp, half_toNat]
    split
    · rename_i hle
      have hpow : B * 2 ^ (k + 1) = 2 * (B * 2 ^ k) := by rw [Nat.pow_succ]; ring
      have hfit := double_lt hn (hbase ▸ hle)
      refine ih (k := k + 1) ?_ ?_ (by omega)
      · rw [BitVec.toNat_shiftLeft, Nat.shiftLeft_eq, Nat.pow_one, hpow, hbase]
        omega
      · rw [BitVec.toNat_shiftLeft, Nat.shiftLeft_eq, Nat.pow_one, hb, Nat.pow_succ]
        omega
    · exact ⟨k, base, b, rfl, hbase, hb, by omega, hk32⟩

/-- A divisor that no shift lifts above half the dividend is shifted for ever. -/
theorem scaleUp_none {n : BitVec 64} : ∀ {fuel : Nat} {base : BitVec 32} {b : BitVec 64},
    (∀ k, k < fuel → (base <<< k).toNat ≤ n.toNat / 2) → scaleUp n fuel base b = none
  | 0, _, _, _ => rfl
  | fuel + 1, base, b, h => by
    have h0 : base.toNat ≤ n.toNat / 2 := by simpa using h 0 (Nat.succ_pos fuel)
    rw [scaleUp, half_toNat, if_pos h0]
    refine scaleUp_none fun k hk => ?_
    rw [← BitVec.shiftLeft_add, Nat.add_comm]
    exact h (k + 1) (by omega)

theorem scaleDown_spec {B : Nat} (hB : 0 < B) : ∀ {j fuel : Nat} {n result b : BitVec 64}
    {base : BitVec 32}, base.toNat = B * 2 ^ j → b.toNat = 2 ^ j → n.toNat < 2 * (B * 2 ^ j) →
      j < fuel → scaleDown fuel n result base b =
        (result + BitVec.ofNat 64 (n.toNat / B), BitVec.ofNat 64 (n.toNat % B)) := by
  intro j
  induction j with
  | zero =>
    intro fuel n result b base hbase hb hn hf
    obtain ⟨fuel, rfl⟩ : ∃ f, fuel = f + 1 := ⟨fuel - 1, by omega⟩
    have hb1 : b = 1#64 := BitVec.eq_of_toNat_eq (by simpa using hb)
    have hstop : ∀ n' r', scaleDown fuel n' r' (base >>> 1) (1#64 >>> 1) = (r', n') := by
      intro n' r'
      cases fuel with
      | zero => rfl
      | succ f => rw [scaleDown, if_pos (by decide)]
    rw [Nat.pow_zero, Nat.mul_one] at hbase hn
    subst hb1
    rw [scaleDown, if_neg (by decide), hstop, hstop, hbase]
    have hB64 : (BitVec.setWidth 64 base).toNat = B := by
      have := base.isLt
      rw [BitVec.toNat_setWidth, hbase]; omega
    have hlt := n.isLt
    split
    · rename_i hle
      have h1 : n.toNat / B = 1 := by
        rw [Nat.div_eq_iff hB]; omega
      have h2 : n.toNat % B = n.toNat - B := by
        rw [Nat.mod_eq_sub_mod hle, Nat.mod_eq_of_lt (by omega)]
      rw [h1, h2]
      refine Prod.ext rfl (BitVec.eq_of_toNat_eq ?_)
      simp only [BitVec.toNat_sub, BitVec.toNat_ofNat, hB64]
      omega
    · rename_i hle
      rw [Nat.div_eq_of_lt (by omega), Nat.mod_eq_of_lt (by omega), BitVec.ofNat_toNat]
      simp
  | succ j ih =>
    intro fuel n result b base hbase hb hn hf
    obtain ⟨fuel, rfl⟩ : ∃ f, fuel = f + 1 := ⟨fuel - 1, by omega⟩
    have hpow : B * 2 ^ (j + 1) = 2 * (B * 2 ^ j) := by rw [Nat.pow_succ]; ring
    have hb2 : (b >>> 1).toNat = 2 ^ j := by
      rw [BitVec.toNat_ushiftRight, Nat.shiftRight_eq_div_pow, hb, Nat.pow_succ]; omega
    have hbase2 : (base >>> 1).toNat = B * 2 ^ j := by
      rw [BitVec.toNat_ushiftRight, Nat.shiftRight_eq_div_pow, hbase, hpow]; omega
    have hbne : b ≠ 0 := by
      rintro rfl
      have := Nat.two_pow_pos (j + 1)
      simp only [BitVec.ofNat_eq_ofNat, BitVec.toNat_ofNat, Nat.zero_mod] at hb
      omega
    have hlt := n.isLt
    have hB64 : (BitVec.setWidth 64 base).toNat = B * 2 ^ (j + 1) := by
      have := base.isLt
      rw [BitVec.toNat_setWidth, hbase]; omega
    rw [scaleDown, if_neg hbne]
    split
    · rename_i hle
      have hsub : (n - BitVec.setWidth 64 base).toNat = n.toNat - B * 2 ^ (j + 1) := by
        rw [BitVec.toNat_sub, hB64]; omega
      have hn' : n.toNat = B * 2 ^ (j + 1) + (n.toNat - B * 2 ^ (j + 1)) := by omega
      rw [ih hbase2 hb2 (by rw [hsub]; omega) (by omega), hsub]
      refine Prod.ext ?_ ?_
      · rw [hn', Nat.mul_add_div hB, BitVec.ofNat_add, ← BitVec.add_assoc, ← hb, BitVec.ofNat_toNat,
          BitVec.setWidth_eq, Nat.add_sub_cancel_left]
      · conv_rhs => rw [hn', Nat.mul_add_mod]
    · rename_i hle
      exact ih hbase2 hb2 (by omega) (by omega)

theorem divmod_u64_spec {n : BitVec 64} {base : BitVec 32} (hb : 0 < base.toNat)
    (hn : n.toNat < limit base.toNat) : divmod_u64 n base =
      some (BitVec.ofNat 64 (n.toNat / base.toNat), BitVec.ofNat 32 (n.toNat % base.toNat)) := by
  obtain ⟨K, base', b', e, h1, h2, h3, h4⟩ : ∃ K base' b', scaleUp n 64 base 1 = some (base', b') ∧
      base'.toNat = base.toNat * 2 ^ K ∧ b'.toNat = 2 ^ K ∧
      n.toNat < 2 * (base.toNat * 2 ^ K) ∧ K < 32 :=
    scaleUp_spec hb hn (k := 0) (by rw [Nat.pow_zero, Nat.mul_one]) rfl (by decide)
  have hd : scaleDown 64 n 0 base' b' = (0 + BitVec.ofNat 64 (n.toNat / base.toNat),
      BitVec.ofNat 64 (n.toNat % base.toNat)) := scaleDown_spec hb h1 h2 h3 (by omega)
  have hmod := Nat.mod_lt n.toNat hb
  have hlt := base.isLt
  simp only [divmod_u64, e, hd, Option.bind_eq_bind, Option.bind_some, Option.pure_def,
    Option.some.injEq, Prod.mk.injEq]
  refine ⟨BitVec.zero_add _, BitVec.eq_of_toNat_eq ?_⟩
  rw [BitVec.toNat_setWidth, BitVec.toNat_ofNat, BitVec.toNat_ofNat]
  omega

/-- The bases of `vprintf`. -/
def Radix (base : BitVec 32) : Prop := base = 8 ∨ base = 10 ∨ base = 16 ∨ base = 17

theorem Radix.bounds {base : BitVec 32} (h : Radix base) : 2 ≤ base.toNat ∧ base.toNat ≤ 17 := by
  rcases h with rfl | rfl | rfl | rfl <;> decide

theorem Radix.shift_le {base : BitVec 32} (h : Radix base) (k : Nat) :
    2 * (base <<< k).toNat ≤ limit base.toNat := by
  have hall : ∀ k : Fin 32, 2 * (base <<< k.val).toNat ≤ limit base.toNat := by
    rcases h with rfl | rfl | rfl | rfl <;> decide
  rcases Nat.lt_or_ge k 32 with hk | hk
  · exact hall ⟨k, hk⟩
  · rw [BitVec.shiftLeft_eq_zero hk]
    exact Nat.zero_le _

/-- From the limit on, no number of rounds is enough. -/
theorem scaleUp_never {n : BitVec 64} {base : BitVec 32} (h : Radix base)
    (hn : limit base.toNat ≤ n.toNat) (fuel : Nat) : scaleUp n fuel base 1 = none := by
  apply scaleUp_none
  intro k _
  have := h.shift_le k
  omega

theorem divmod_u64_none {n : BitVec 64} {base : BitVec 32} (h : Radix base)
    (hn : limit base.toNat ≤ n.toNat) : divmod_u64 n base = none := by
  simp only [divmod_u64, scaleUp_never h hn, Option.bind_eq_bind, Option.bind_none]

/-- `divmod_u64` returns, with the quotient in `*num` and the remainder. -/
def Divides (n : BitVec 64) (base : BitVec 32) : Prop :=
  ∃ q r, divmod_u64 n base = some (q, r) ∧
    q.toNat = n.toNat / base.toNat ∧ r.toNat = n.toNat % base.toNat

/-- **Division.** It divides below `limit`, and from there on it does not return. -/
theorem divides_iff {base : BitVec 32} (h : Radix base) (n : BitVec 64) :
    Divides n base ↔ n.toNat < limit base.toNat := by
  constructor
  · rintro ⟨q, r, e, -⟩
    by_contra hn
    rw [divmod_u64_none h (Nat.le_of_not_lt hn)] at e
    cases e
  · intro hn
    have hb := h.bounds
    have hq := Nat.div_le_self n.toNat base.toNat
    have hr := Nat.mod_lt n.toNat (show 0 < base.toNat by omega)
    have hlt := n.isLt
    refine ⟨_, _, divmod_u64_spec (by omega) hn, ?_, ?_⟩
    · rw [BitVec.toNat_ofNat, Nat.mod_eq_of_lt (by omega)]
    · rw [BitVec.toNat_ofNat, Nat.mod_eq_of_lt (by omega)]

theorem divides_iff_ten :
    Divides 5368709119 10 ↔ (5368709119 : BitVec 64).toNat < limit (10 : BitVec 32).toNat :=
  divides_iff (Or.inr (Or.inl rfl)) _

/-- `2 ^ 32` is never divided by 16. -/
theorem divides_not : ¬Divides 0x100000000 16 := by
  rintro ⟨q, r, e, -⟩
  rw [divmod_u64_none (Or.inr (Or.inr (Or.inl rfl))) (by decide)] at e
  cases e

/-! ## Digits -/

/-- The character of a digit. -/
def digitChar : CStr :=
  lit ['0', '1', '2', '3', '4', '5', '6', '7', '8', '9', 'A', 'B', 'C', 'D', 'E', 'F']

/-- The digits of a number as written, most significant first. -/
def digitsText (base n : Nat) : List Byte := (numeral base n).map digitChar

theorem digitsText_eq {base : Nat} (hb : 1 < base) (n : Nat) : digitsText base n =
    (if n / base = 0 then [] else digitsText base (n / base)) ++ [digitChar (n % base)] := by
  unfold digitsText
  rw [numeral_eq hb]
  split <;> simp

theorem writeAt_eq {size i : Nat} (h : i < size) (a : CStr) (c : Byte) :
    writeAt size a i c = some (Function.update a i c) := if_pos h

theorem writeAt_none {size i : Nat} (h : size ≤ i) (a : CStr) (c : Byte) : writeAt size a i c = none :=
  if_neg (Nat.not_lt.mpr h)

theorem appendTo_eq {i : Nat} (h : i < 65) (buf : CStr) (c : Byte) :
    appendTo buf i c = some (Function.update buf i c, i + 1) := by
  rw [appendTo, writeAt_eq h]
  rfl

theorem reverseDigits_spec {base : BitVec 32} (hb : 1 < base.toNat) : ∀ {fuel : Nat} {n : BitVec 64}
    (i : Nat) (buf : CStr), n.toNat < limit base.toNat → n.toNat < 2 ^ fuel → 0 < fuel →
      i + (digitsText base.toNat n.toNat).length ≤ 65 → ∃ buf', reverseDigits base fuel n buf i =
          some (buf', i + (digitsText base.toNat n.toNat).length) ∧
        (∀ j, j < (digitsText base.toNat n.toNat).length →
          buf' (i + j) = (digitsText base.toNat n.toNat).reverse.getD j 0) ∧
        ∀ j, j < i → buf' j = buf j := by
  intro fuel
  induction fuel with
  | zero => intro _ _ _ _ _ hf; omega
  | succ fuel ih =>
    intro n i buf hn hf _ hi
    have hq : (BitVec.ofNat 64 (n.toNat / base.toNat)).toNat = n.toNat / base.toNat := by
      have := n.isLt
      have := Nat.div_le_self n.toNat base.toNat
      rw [BitVec.toNat_ofNat, Nat.mod_eq_of_lt (by omega)]
    have hr : (BitVec.ofNat 32 (n.toNat % base.toNat)).toNat = n.toNat % base.toNat := by
      have := base.isLt
      have := Nat.mod_lt n.toNat (show 0 < base.toNat by omega)
      rw [BitVec.toNat_ofNat, Nat.mod_eq_of_lt (by omega)]
    rw [digitsText_eq hb, List.length_append, List.length_singleton] at hi
    rw [reverseDigits, divmod_u64_spec (by omega) hn, digitsText_eq hb]
    simp only [Option.bind_eq_bind, Option.bind_some, appendTo_eq (show i < 65 by omega), hr]
    by_cases h0 : n.toNat / base.toNat = 0
    · rw [if_pos (by rw [h0]; rfl), if_pos h0]
      refine ⟨_, rfl, fun j hj => ?_, fun j hj => Function.update_of_ne (by omega) _ _⟩
      obtain rfl : j = 0 := Nat.lt_one_iff.mp hj
      exact Function.update_self ..
    · have hne : ¬BitVec.ofNat 64 (n.toNat / base.toNat) = 0 := fun h =>
        h0 (by rw [← hq, h]; rfl)
      have hpos : 0 < n.toNat := Nat.pos_of_ne_zero fun h => h0 (by rw [h, Nat.zero_div])
      have hhalf : n.toNat / base.toNat ≤ n.toNat / 2 := Nat.div_le_div_left hb (by decide)
      rw [Nat.pow_succ] at hf
      have hfuel : 0 < fuel := Nat.pos_of_ne_zero fun h => by subst h; omega
      obtain ⟨buf', e, h1, h2⟩ := ih (n := BitVec.ofNat 64 (n.toNat / base.toNat)) (i + 1)
        (Function.update buf i (digitChar (n.toNat % base.toNat)))
        (by omega) (by omega) hfuel (by rw [hq]; rw [if_neg h0] at hi; omega)
      rw [hq] at e h1
      rw [if_neg hne, if_neg h0]
      refine ⟨buf', e.trans (by simp; omega), fun j hj => ?_, fun j hj => ?_⟩
      · rw [List.reverse_append, List.reverse_singleton, List.singleton_append]
        cases j with
        | zero => rw [Nat.add_zero, h2 i (by omega), Function.update_self, List.getD_cons_zero]
        | succ j =>
          rw [List.length_append, List.length_singleton] at hj
          rw [List.getD_cons_succ, ← h1 j (by omega)]
          congr 1
          omega
      · rw [h2 j (by omega), Function.update_of_ne (by omega)]

/-! ## The text of a number -/

section Copies

theorem strcpy_spec {src : CStr} {l : List Byte} {off : Nat} (h : IsText src l)
    (hfit : off + l.length < 256) : ∀ {fuel i : Nat} (dest : CStr), i ≤ l.length →
      l.length < i + fuel →
      ∃ dest', strcpy dest src off fuel i = some dest' ∧
        ∀ j, dest' j = if off + i ≤ j ∧ j ≤ off + l.length then src (j - off) else dest j
  | 0, i, _, h1, h2 => absurd h2 (by omega)
  | fuel + 1, i, dest, h1, h2 => by
    rw [strcpy, writeAt_eq (by omega), Option.bind_eq_bind, Option.bind_some]
    rcases Nat.eq_or_lt_of_le h1 with rfl | hlt
    · refine ⟨_, if_pos h.nul, fun j => ?_⟩
      by_cases hj : j = off + l.length
      · subst hj
        rw [Function.update_self, if_pos ⟨Nat.le_refl _, Nat.le_refl _⟩, Nat.add_sub_cancel_left]
      · rw [Function.update_of_ne hj, if_neg (by omega)]
    · obtain ⟨dest', e, hd⟩ := strcpy_spec h hfit (Function.update dest (off + i) (src i)) hlt
        (show l.length < i + 1 + fuel by omega)
      refine ⟨dest', (if_neg (h.ne_zero hlt)).trans e, fun j => ?_⟩
      rw [hd j]
      by_cases hj : j = off + i
      · subst hj
        rw [if_neg (by omega), Function.update_self, if_pos (by omega), Nat.add_sub_cancel_left]
      · rw [Function.update_of_ne hj]
        exact if_congr (by omega) rfl rfl

theorem strcpy_none {src : CStr} {l : List Byte} {off : Nat} (h : IsText src l)
    (hfit : 256 ≤ off + l.length) : ∀ {fuel i : Nat} (dest : CStr), i ≤ l.length →
      strcpy dest src off fuel i = none
  | 0, _, _, _ => rfl
  | fuel + 1, i, dest, hi => by
    rw [strcpy]
    rcases Nat.lt_or_ge (off + i) 256 with hlt | hge
    · rw [writeAt_eq hlt, Option.bind_eq_bind, Option.bind_some, if_neg (h.ne_zero (by omega))]
      exact strcpy_none h hfit _ (by omega)
    · rw [writeAt_none hge]
      rfl

theorem fillPad_spec (dest : CStr) (off : Nat) (c : Byte) : ∀ {k : Nat}, off + k ≤ 256 →
    ∃ dest', fillPad dest off c k = some dest' ∧
      ∀ j, dest' j = if off ≤ j ∧ j < off + k then c else dest j
  | 0, _ => ⟨dest, rfl, fun j => by rw [if_neg (by omega)]⟩
  | k + 1, hk => by
    obtain ⟨dest', e, hd⟩ := fillPad_spec dest off c (show off + k ≤ 256 by omega)
    rw [fillPad, e, Option.bind_eq_bind, Option.bind_some, writeAt_eq (by omega)]
    refine ⟨_, rfl, fun j => ?_⟩
    rw [Function.update_apply, hd j]
    by_cases hj : j = off + k
    · rw [if_pos hj, if_pos (by omega)]
    · rw [if_neg hj]
      exact if_congr (by omega) rfl rfl

theorem fillPad_none (dest : CStr) {off : Nat} (c : Byte) (hoff : off ≤ 256) : ∀ {k : Nat},
    256 < off + k → fillPad dest off c k = none
  | 0, hk => absurd hk (by omega)
  | k + 1, hk => by
    rw [fillPad]
    rcases Nat.lt_or_ge 256 (off + k) with hlt | hge
    · rw [fillPad_none dest c hoff hlt]
      rfl
    · obtain ⟨dest', e, -⟩ := fillPad_spec dest off c hge
      rw [e, Option.bind_eq_bind, Option.bind_some, writeAt_none (by omega)]

theorem reverseInto_spec (b buf : CStr) (i : Nat) : ∀ {n : Nat}, n ≤ 256 →
    ∃ b', reverseInto b buf i n = some b' ∧ ∀ j, b' j = if j < n then buf (i - j - 1) else b j
  | 0, _ => ⟨b, rfl, fun j => by rw [if_neg (Nat.not_lt_zero j)]⟩
  | n + 1, hn => by
    obtain ⟨b', e, hb⟩ := reverseInto_spec b buf i (show n ≤ 256 by omega)
    rw [reverseInto, e, Option.bind_eq_bind, Option.bind_some, writeAt_eq (by omega)]
    refine ⟨_, rfl, fun j => ?_⟩
    rw [Function.update_apply, hb j]
    by_cases hj : j = n
    · rw [if_pos hj, if_pos (by omega), hj]
    · rw [if_neg hj]
      exact if_congr (by omega) rfl rfl

end Copies

def magnitude (value : BitVec 64) : BitVec 64 := if value.slt 0 then -value else value

def signText (value : BitVec 64) (plusSign spaceSign : Bool) : List Byte :=
  if value.slt 0 then [ch '-'] else if plusSign then [ch '+'] else if spaceSign then [ch ' '] else []

/-- Sign and digits. -/
def unpadded (base : Nat) (value : BitVec 64) (plusSign spaceSign : Bool) : List Byte :=
  signText value plusSign spaceSign ++ digitsText base (magnitude value).toNat

/-- `l` filled up to `width` characters. -/
def padded (l : List Byte) (width : Int) (justify zeroPad : Bool) : List Byte :=
  let pad := List.replicate (width - l.length).toNat (if zeroPad then ch '0' else ch ' ')
  if justify then l ++ pad else pad ++ l

theorem magnitude_of_lt {value : BitVec 64} (h : value.toNat < 2 ^ 63) :
    value.slt 0 = false ∧ magnitude value = value := by
  have hneg : value.slt 0 = false := by
    rw [BitVec.slt_eq_decide, decide_eq_false_iff_not, BitVec.toInt_eq_toNat_of_lt (by omega)]
    simp
  exact ⟨hneg, by rw [magnitude, hneg, if_neg Bool.false_ne_true]⟩

theorem padded_length (l : List Byte) (width : Int) (justify zeroPad : Bool) :
    (padded l width justify zeroPad).length = l.length + (width - l.length).toNat := by
  unfold padded
  cases justify <;> simp [Nat.add_comm]

theorem unpadded_length {base : Nat} (hb : 1 < base) (value : BitVec 64) (p q : Bool) :
    0 < (unpadded base value p q).length ∧ (unpadded base value p q).length ≤ 65 := by
  have hpow : (magnitude value).toNat < base ^ 64 :=
    Nat.lt_of_lt_of_le (magnitude value).isLt (Nat.pow_le_pow_left hb 64)
  have hlen := length_numeral_le hb (by decide) hpow
  have hpos : 0 < (numeral base (magnitude value).toNat).length :=
    List.length_pos_of_ne_nil (numeral_ne_nil hb)
  have hsign : (signText value p q).length ≤ 1 := by
    unfold signText
    split
    · rfl
    · split
      · rfl
      · split <;> simp
  unfold unpadded digitsText
  rw [List.length_append, List.length_map]
  omega

/-- The field fits: its padding is an `int`, and with the characters that are copied beside it,
up to the first NUL on the left, it leaves one byte of 256. -/
def Room (l : List Byte) (width : Int) (justify : Bool) : Prop :=
  -2 ^ 31 + l.length ≤ width ∧
    width - l.length + (if justify then l.length else (l.takeWhile (· != 0)).length : Nat) ≤ 255

instance (l : List Byte) (width : Int) (justify : Bool) : Decidable (Room l width justify) :=
  inferInstanceAs (Decidable (_ ∧ _))

theorem takeWhile_length_le (l : List Byte) : (l.takeWhile (· != 0)).length ≤ l.length :=
  (List.takeWhile_prefix (· != 0)).length_le

theorem room_of_le {base : Nat} (hb : 1 < base) {value : BitVec 64} {p q justify : Bool} {width : Int}
    (hw : -2 ^ 30 ≤ width ∧ width ≤ 255) : Room (unpadded base value p q) width justify := by
  have hlen := unpadded_length hb value p q
  have hle := takeWhile_length_le (unpadded base value p q)
  unfold Room
  cases justify
  · rw [if_neg Bool.false_ne_true]
    omega
  · rw [if_pos rfl]
    omega

/-- Where every digit has a character, the field alone decides. -/
theorem room_iff {l : List Byte} (hl : ∀ c ∈ l, c ≠ 0) (width : Int) (justify : Bool) :
    Room l width justify ↔ -2 ^ 31 + l.length ≤ width ∧ width ≤ 255 := by
  have htext : l.takeWhile (· != 0) = l := List.takeWhile_eq_self_iff.mpr fun c hc =>
    bne_iff_ne.mpr (hl c hc)
  unfold Room
  rw [htext, ite_self]
  omega

/-- The text of a number is short. -/
theorem displayed_length_lt {W : Nat} (hW : 32 ≤ W) {base : Nat} (hb : 1 < base) {value : BitVec 64}
    {p q justify zeroPad : Bool} {width : Int} (hroom : Room (unpadded base value p q) width justify) :
    ((padded (unpadded base value p q) width justify zeroPad).takeWhile (· != 0)).length < 2 ^ W := by
  have hW2 : 2 ^ 32 ≤ 2 ^ W := Nat.pow_le_pow_right (by decide) hW
  have h1 := takeWhile_length_le (padded (unpadded base value p q) width justify zeroPad)
  have h2 := unpadded_length hb value p q
  have h3 := hroom.2
  rw [padded_length] at h1
  omega

theorem collected {base : BitVec 32} (hb : 1 < base.toNat) {value : BitVec 64}
    (hn : (magnitude value).toNat < limit base.toNat) (p q : Bool) :
    ∃ buf, ((reverseDigits base 65 (magnitude value) (fun _ => 0) 0).bind fun r =>
        appendSign (value.slt 0) p q r.1 r.2) =
          some (buf, (unpadded base.toNat value p q).length) ∧
      ∀ j, j < (unpadded base.toNat value p q).length →
        buf j = (unpadded base.toNat value p q).reverse.getD j 0 := by
  have hlen := (unpadded_length hb value p q).2
  have hsplit : (unpadded base.toNat value p q).length = (signText value p q).length +
      (digitsText base.toNat (magnitude value).toNat).length := List.length_append
  obtain ⟨buf, e, h1, -⟩ := reverseDigits_spec hb 0 (fun _ => 0) hn
    (Nat.lt_trans (magnitude value).isLt (by decide : 2 ^ 64 < 2 ^ 65)) (by decide) (by omega)
  rw [Nat.zero_add] at e
  simp only [Nat.zero_add] at h1
  rw [e, Option.bind_some]
  -- one character after the digits
  have hone : ∀ c : Byte, (digitsText base.toNat (magnitude value).toNat).length < 65 →
      ∃ buf', appendTo buf (digitsText base.toNat (magnitude value).toNat).length c =
          some (buf', ([c] ++ digitsText base.toNat (magnitude value).toNat).length) ∧
        ∀ j, j < ([c] ++ digitsText base.toNat (magnitude value).toNat).length →
          buf' j = ([c] ++ digitsText base.toNat (magnitude value).toNat).reverse.getD j 0 := by
    intro c hc
    refine ⟨_, by rw [appendTo_eq hc, List.length_append, List.length_singleton, Nat.add_comm 1],
      fun j hj => ?_⟩
    rw [List.length_append, List.length_singleton] at hj
    rw [List.reverse_append, List.reverse_singleton]
    rcases Nat.eq_or_lt_of_le (show j ≤ (digitsText base.toNat (magnitude value).toNat).length by
      omega) with rfl | hlt
    · rw [Function.update_self, getD_concat, if_pos List.length_reverse.symm]
    · rw [Function.update_of_ne (Nat.ne_of_lt hlt), h1 j hlt,
        List.getD_append _ _ _ _ (by rwa [List.length_reverse])]
  unfold appendSign
  unfold unpadded signText at hlen hsplit ⊢
  split
  · rename_i hneg
    rw [if_pos hneg] at hlen
    exact hone _ (by simpa using hlen)
  · rename_i hneg
    rw [if_neg hneg] at hlen
    split
    · rename_i hp
      rw [if_pos hp] at hlen
      exact hone _ (by simpa using hlen)
    · rename_i hp
      rw [if_neg hp] at hlen
      split
      · rename_i hq
        rw [if_pos hq] at hlen
        exact hone _ (by simpa using hlen)
      · exact ⟨buf, rfl, h1⟩

theorem reversed {buf : CStr} {l : List Byte} (h : ∀ j, j < l.length → buf j = l.reverse.getD j 0)
    (hl : l.length < 256) (b : CStr) :
    ∃ b', ((reverseInto b buf l.length l.length).bind fun b => writeAt 256 b l.length 0) = some b' ∧
      Holds b' l := by
  obtain ⟨b', e, hb⟩ := reverseInto_spec b buf l.length (Nat.le_of_lt hl)
  rw [e, Option.bind_some, writeAt_eq hl]
  refine ⟨_, rfl, fun j hj => ?_⟩
  rcases Nat.eq_or_lt_of_le hj with rfl | hlt
  · rw [Function.update_self, List.getD_eq_default _ _ (Nat.le_refl _)]
  · rw [Function.update_of_ne (Nat.ne_of_lt hlt), hb j, if_pos hlt, h _ (by omega),
      List.getD_eq_getElem _ _ (by rw [List.length_reverse]; omega), List.getD_eq_getElem _ _ hlt,
      List.getElem_reverse]
    congr 1
    omega

section Padding

variable {W : Nat} {b : CStr} {l : List Byte} {c : Byte} {k : Nat}

theorem padRight (h : Holds b l) (c : Byte) (hk : l.length + k < 256) :
    ∃ s, ((fillPad b l.length c k).bind fun b => writeAt 256 b (l.length + k) 0) = some s ∧
      Holds s (l ++ List.replicate k c) := by
  obtain ⟨b', e, hb⟩ := fillPad_spec b l.length c (show l.length + k ≤ 256 by omega)
  rw [e, Option.bind_some, writeAt_eq hk]
  refine ⟨_, rfl, fun j hj => ?_⟩
  rw [List.length_append, List.length_replicate] at hj
  rcases Nat.eq_or_lt_of_le hj with rfl | hlt
  · rw [Function.update_self, List.getD_eq_default _ _ (by simp)]
  · rw [Function.update_of_ne (Nat.ne_of_lt hlt), hb j]
    rcases Nat.lt_or_ge j l.length with hl | hl
    · rw [if_neg (by omega), List.getD_append _ _ _ _ hl]
      exact h j (Nat.le_of_lt hl)
    · rw [if_pos ⟨hl, hlt⟩, List.getD_append_right _ _ _ _ hl,
        List.getD_eq_getElem _ _ (by rw [List.length_replicate]; omega), List.getElem_replicate]

theorem padRight_none (b : CStr) (hl : l.length ≤ 256) (c : Byte) (hk : 256 ≤ l.length + k) :
    ((fillPad b l.length c k).bind fun b => writeAt 256 b (l.length + k) 0) = none := by
  rcases Nat.lt_or_ge 256 (l.length + k) with hlt | hge
  · rw [fillPad_none b c hl hlt]
    rfl
  · obtain ⟨b', e, -⟩ := fillPad_spec b l.length c hge
    rw [e, Option.bind_some, writeAt_none hk]

/-- The padding on the left: filled into `tmp`, the text copied behind it, and all of it
copied back. -/
theorem padLeft (tmp : CStr) (h : IsText b l) (hc : c ≠ 0) (hk : k + l.length < 256)
    (hW : 256 ≤ 2 ^ W) :
    ∃ s, ((fillPad tmp 0 c k).bind fun tmp => (strcpy tmp b k (2 ^ W) 0).bind fun tmp =>
        strcpy b tmp 0 (2 ^ W) 0) = some s ∧ IsText s (List.replicate k c ++ l) := by
  obtain ⟨tmp₁, e₁, h₁⟩ := fillPad_spec tmp 0 c (show 0 + k ≤ 256 by omega)
  obtain ⟨tmp₂, e₂, h₂⟩ := strcpy_spec h hk tmp₁ (Nat.zero_le _) (show l.length < 0 + 2 ^ W by omega)
  have htext : IsText tmp₂ (List.replicate k c ++ l) := by
    refine ⟨fun j hj => ?_, fun d hd => ?_⟩
    · rw [List.length_append, List.length_replicate] at hj
      rw [h₂ j, h₁ j]
      rcases Nat.lt_or_ge j k with hjk | hjk
      · rw [if_neg (by omega), if_pos (by omega), List.getD_append _ _ _ _ (by simpa using hjk),
          List.getD_eq_getElem _ _ (by simpa using hjk), List.getElem_replicate]
      · rw [if_pos (by omega), List.getD_append_right _ _ _ _ (by simpa using hjk),
          List.length_replicate]
        exact h.reads (j - k) (by omega)
    · rcases List.mem_append.mp hd with hd | hd
      · exact (List.eq_of_mem_replicate hd) ▸ hc
      · exact h.noNul d hd
  have hlen : (List.replicate k c ++ l).length = k + l.length := by simp
  obtain ⟨s, e₃, h₃⟩ := strcpy_spec htext
    (show 0 + (List.replicate k c ++ l).length < 256 by omega) b (Nat.zero_le _)
    (show (List.replicate k c ++ l).length < 0 + 2 ^ W by omega)
  refine ⟨s, by rw [e₁, Option.bind_some, e₂]; exact e₃, htext.congr fun j hj => ?_⟩
  rw [h₃ j, if_pos (by omega), Nat.sub_zero]

theorem padLeft_none (tmp : CStr) (h : IsText b l) (c : Byte) (hk : 256 ≤ k + l.length) :
    ((fillPad tmp 0 c k).bind fun tmp => (strcpy tmp b k (2 ^ W) 0).bind fun tmp =>
      strcpy b tmp 0 (2 ^ W) 0) = none := by
  rcases Nat.lt_or_ge 256 k with hlt | hge
  · rw [fillPad_none tmp c (Nat.zero_le _) (by omega)]
    rfl
  · obtain ⟨tmp₁, e₁, -⟩ := fillPad_spec tmp 0 c (show 0 + k ≤ 256 by omega)
    rw [e₁, Option.bind_some, strcpy_none h hk tmp₁ (Nat.zero_le _)]
    rfl

end Padding

theorem padChar_ne_zero (zeroPad : Bool) : (if zeroPad then ch '0' else ch ' ') ≠ 0 := by
  cases zeroPad <;> decide

section IntStr

variable {W : Nat} {base : BitVec 32} {value : BitVec 64} (b : CStr) (p q justify zeroPad : Bool)
  {width : Int}

theorem int_str_eq (width : Int) (hb : 1 < base.toNat) (hn : (magnitude value).toNat < limit base.toNat) :
    ∃ b', Holds b' (unpadded base.toNat value p q) ∧
      int_str W value b base p q width justify zeroPad =
        let k := (unpadded base.toNat value p q).length
        let pad := (width - k).bmod (2 ^ 32)
        let c := if zeroPad then ch '0' else ch ' '
        if 0 < pad then
          if justify then (fillPad b' k c pad.toNat).bind fun b => writeAt 256 b (k + pad.toNat) 0
          else (fillPad (fun _ => 0) 0 c pad.toNat).bind fun tmp =>
            (strcpy tmp b' pad.toNat (2 ^ W) 0).bind fun tmp => strcpy b' tmp 0 (2 ^ W) 0
        else some b' := by
  obtain ⟨buf, e, hbuf⟩ := collected hb hn p q
  have hlen := unpadded_length hb value p q
  obtain ⟨b', e', hb'⟩ := reversed hbuf (by omega) b
  refine ⟨b', hb', ?_⟩
  obtain ⟨r, hr, hs⟩ := Option.bind_eq_some_iff.mp e
  obtain ⟨b₁, hb₁, hw⟩ := Option.bind_eq_some_iff.mp e'
  rw [show magnitude value = if value.slt 0 then -value else value from rfl] at hr
  simp only [int_str, hr, hs, hb₁, hw, Option.bind_eq_bind, Option.bind_some, Option.pure_def]

/-- **The text of a number.** -/
theorem int_str_text (hW : 32 ≤ W) (hb : 1 < base.toNat)
    (hn : (magnitude value).toNat < limit base.toNat)
    (hroom : Room (unpadded base.toNat value p q) width justify) :
    ∃ s, int_str W value b base p q width justify zeroPad = some s ∧
      IsText s ((padded (unpadded base.toNat value p q) width justify zeroPad).takeWhile (· != 0)) := by
  have hW2 : 2 ^ 32 ≤ 2 ^ W := Nat.pow_le_pow_right (by decide) hW
  have hlen := unpadded_length hb value p q
  obtain ⟨b', hl, e⟩ := int_str_eq (W := W) b p q justify zeroPad width hb hn
  rw [e]
  generalize unpadded base.toNat value p q = l at hl hlen hroom
  obtain ⟨hlo, hhi⟩ := hroom
  have hle := takeWhile_length_le l
  have hpad : (width - l.length).bmod (2 ^ 32) = width - l.length := by
    rw [Int.bmod_eq_of_le] <;> split at hhi <;> omega
  simp only [hpad]
  unfold padded
  by_cases h0 : 0 < width - l.length
  · rw [if_pos h0]
    cases justify with
    | true =>
      rw [if_pos rfl] at hhi
      obtain ⟨s, e, hs⟩ := padRight hl (if zeroPad then ch '0' else ch ' ')
        (k := (width - l.length).toNat) (by omega)
      exact ⟨s, e, hs.isText⟩
    | false =>
      rw [if_neg Bool.false_ne_true] at hhi
      obtain ⟨s, e, hs⟩ := padLeft (W := W) (fun _ => 0) (k := (width - l.length).toNat) hl.isText
        (padChar_ne_zero zeroPad) (by omega) (by omega)
      refine ⟨s, e, ?_⟩
      rw [if_neg Bool.false_ne_true, List.takeWhile_append_of_pos fun c hc => bne_iff_ne.mpr
        ((List.eq_of_mem_replicate hc) ▸ padChar_ne_zero zeroPad)]
      exact hs
  · rw [if_neg h0, Int.toNat_of_nonpos (by omega)]
    simp only [List.replicate_zero, List.append_nil, List.nil_append, ite_self]
    exact ⟨_, rfl, hl.isText⟩

theorem int_str_overflow (hb : 1 < base.toNat) (hn : (magnitude value).toNat < limit base.toNat)
    (hint : -2 ^ 31 ≤ width ∧ width < 2 ^ 31)
    (hroom : ¬Room (unpadded base.toNat value p q) width justify) :
    int_str W value b base p q width justify zeroPad = none := by
  have hlen := unpadded_length hb value p q
  obtain ⟨b', hl, e⟩ := int_str_eq (W := W) b p q justify zeroPad width hb hn
  rw [e]
  generalize unpadded base.toNat value p q = l at hl hlen hroom
  have hle := takeWhile_length_le l
  -- the padding, wrapped or not, and what is copied beside it fill the array
  obtain ⟨hpos, hbig⟩ : 0 < (width - l.length).bmod (2 ^ 32) ∧
      256 ≤ (if justify then l.length else (l.takeWhile (· != 0)).length) +
        ((width - l.length).bmod (2 ^ 32)).toNat := by
    have hm : (if justify then l.length else (l.takeWhile (· != 0)).length) ≤ l.length := by
      split <;> omega
    unfold Room at hroom
    generalize (if justify then l.length else (l.takeWhile (· != 0)).length) = m at hroom hm
    have hcast : ((2 ^ 32 : Nat) : Int) = 2 ^ 32 := by norm_num
    rw [Int.bmod_def, hcast]
    split <;> omega
  simp only [if_pos hpos]
  cases justify with
  | true =>
    rw [if_pos rfl] at hbig
    exact padRight_none b' (by omega) _ hbig
  | false =>
    rw [if_neg Bool.false_ne_true] at hbig
    exact padLeft_none _ hl.isText _ (by omega)

theorem int_str_never (hr : Radix base) (h : limit base.toNat ≤ (magnitude value).toNat) :
    int_str W value b base p q width justify zeroPad = none := by
  have hnone : reverseDigits base 65 (magnitude value) (fun _ => 0) 0 = none := by
    rw [reverseDigits, divmod_u64_none hr h]
    rfl
  rw [show magnitude value = if value.slt 0 then -value else value from rfl] at hnone
  simp only [int_str, hnone, Option.bind_eq_bind, Option.bind_none]

end IntStr

/-! ## The arrays -/

/-- The call `vprintf` makes for a conversion writes inside its arrays: it returns, where its
division does. -/
def Spec.InBounds (W : Nat) (sp : Spec) (base : BitVec 32) (value : BitVec 64) : Prop :=
  (int_str W value (fun _ => 0) base sp.plusSign sp.spaceNoSign sp.lengthSpec.toInt sp.leftJustify
    sp.zeroPad).isSome

/-- **The bounds of `__int_str`.** For every width an `int` holds and every flag. -/
theorem in_bounds_iff {W : Nat} (hW : 32 ≤ W) {base : BitVec 32} (hr : Radix base) {value : BitVec 64}
    (hn : (magnitude value).toNat < limit base.toNat) (sp : Spec) :
    sp.InBounds W base value ↔
      Room (unpadded base.toNat value sp.plusSign sp.spaceNoSign) sp.lengthSpec.toInt
        sp.leftJustify := by
  have hb : 1 < base.toNat := hr.bounds.1
  unfold Spec.InBounds
  constructor
  · intro h
    by_contra hroom
    have hint : -2 ^ 31 ≤ sp.lengthSpec.toInt ∧ sp.lengthSpec.toInt < 2 ^ 31 :=
      ⟨BitVec.le_toInt _, BitVec.toInt_lt⟩
    rw [int_str_overflow _ _ _ _ _ hb hn hint hroom] at h
    cases h
  · intro hroom
    obtain ⟨s, hs, -⟩ := int_str_text (fun _ => 0) sp.plusSign sp.spaceNoSign sp.leftJustify
      sp.zeroPad hW hb hn hroom
    rw [hs]
    rfl

theorem in_bounds_iff_hex :
    Spec.InBounds 32 { lengthSpec := 255, specifier := ch 'X' } 16 10 ↔
      Room (unpadded 16 10 false false) (255 : BitVec 32).toInt false :=
  in_bounds_iff (by decide) (Or.inr (Or.inr (Or.inl rfl))) (by decide) _

/-- `%256d` of 0, whose division ends. -/
theorem in_bounds_not : (magnitude 0).toNat < limit (10 : BitVec 32).toNat ∧
    ¬Spec.InBounds 32 { lengthSpec := 256, specifier := ch 'd' } 10 0 := by
  refine ⟨by decide, fun h => ?_⟩
  rw [Spec.InBounds, int_str_overflow _ _ _ _ _ (by decide) (by decide) (by decide) (by decide)] at h
  cases h

end Osdev2.Libk
