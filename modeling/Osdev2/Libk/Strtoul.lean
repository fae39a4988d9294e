import Osdev2.Lib.Digits
import Osdev2.Libk.Reading
import Osdev2.Libk.Str

/-!
# What `strtoul` makes of a text

The blanks in front of a text, a sign, a `0x` where the base allows one, and the
digits behind it, as functions of the text (`parsed`). `strtoul_eq`: `strtoul` returns
their value and the offset behind the last digit, whatever the text.

The overflow test before each multiplication is exact (`cutoff_iff`), so the
accumulator holds the value as long as it fits and never wraps (`Exact.strtoul_eq`).
-/

namespace Osdev2.Libk

open Osdev2.Lib

/-! ## Digits -/

/-- The character is a digit or letter of value `d`. -/
def Denotes (c : Byte) (d : Nat) : Prop :=
  (d < 10 ∧ c.toNat = 48 + d) ∨ (10 ≤ d ∧ d < 36 ∧ (c.toNat = 55 + d ∨ c.toNat = 87 + d))

instance (c : Byte) (d : Nat) : Decidable (Denotes c d) := inferInstanceAs (Decidable (_ ∨ _))

theorem digit_iff (c : Byte) (v : Int) : digit c.toNat = some v ↔ ∃ d : Nat, v = d ∧ Denotes c d := by
  unfold digit ISDIGIT ISALPHA ISUPPER Denotes
  simp only [decide_eq_true_eq]
  have hnone : ∀ {P : Nat → Prop}, (∀ d : Nat, ¬P d) →
      ((none : Option Int) = some v ↔ ∃ d : Nat, v = d ∧ P d) :=
    fun hP => ⟨nofun, fun ⟨d, _, hd⟩ => absurd hd (hP d)⟩
  have hsome : ∀ {w : Int} {P : Nat → Prop} (d₀ : Nat), w = d₀ → P d₀ → (∀ d : Nat, P d → d = d₀) →
      (some w = some v ↔ ∃ d : Nat, v = d ∧ P d) := by
    intro w P d₀ hw h₀ hP
    rw [Option.some.injEq]
    constructor
    · rintro rfl
      exact ⟨d₀, hw, h₀⟩
    · rintro ⟨d, rfl, hd⟩
      rw [hw, hP d hd]
  split
  · exact hsome (c.toNat - 48) (by omega) (by omega) (by omega)
  · split
    · split
      · exact hsome (c.toNat - 55) (by omega) (by omega) (by omega)
      · exact hsome (c.toNat - 87) (by omega) (by omega) (by omega)
    · exact hnone (by omega)

theorem digit_eq_some {c : Byte} {d : Nat} : digit c.toNat = some (d : Int) ↔ Denotes c d := by
  rw [digit_iff]
  constructor
  · rintro ⟨d', hd, h⟩
    exact Int.ofNat_inj.mp hd ▸ h
  · exact fun h => ⟨d, rfl, h⟩

theorem Denotes.unique {c : Byte} {d d' : Nat} (h : Denotes c d) (h' : Denotes c d') : d = d' := by
  unfold Denotes at h h'
  omega

/-- The value of `c`, if it is a digit of the base. -/
def digitValue (base : Nat) (c : Byte) : Option Nat :=
  (digit c.toNat).bind fun v => if v < base then some v.toNat else none

theorem digitValue_iff {base : Nat} {c : Byte} {d : Nat} :
    digitValue base c = some d ↔ Denotes c d ∧ d < base := by
  unfold digitValue
  rw [Option.bind_eq_some_iff]
  constructor
  · rintro ⟨v, hv, h⟩
    obtain ⟨d', rfl, hd⟩ := (digit_iff c v).mp hv
    split at h
    · rename_i hlt
      rw [Int.toNat_natCast, Option.some.injEq] at h
      exact ⟨h ▸ hd, by omega⟩
    · cases h
  · rintro ⟨hd, hlt⟩
    exact ⟨d, (digit_iff c d).mpr ⟨d, rfl, hd⟩, by rw [if_pos (by omega), Int.toNat_natCast]⟩

/-- The digits a text begins with. -/
def digitPrefix (base : Nat) : List Byte → List Nat
  | [] => []
  | c :: l =>
    match digitValue base c with
    | some d => d :: digitPrefix base l
    | none => []

theorem digitPrefix_cons {base : Nat} {c : Byte} {l : List Byte} {d : Nat} (h : digitValue base c = some d) :
    digitPrefix base (c :: l) = d :: digitPrefix base l := by
  rw [digitPrefix, h]

theorem digitPrefix_stop {base : Nat} {c : Byte} {l : List Byte} (h : digitValue base c = none) :
    digitPrefix base (c :: l) = [] := by
  rw [digitPrefix, h]

/-! ## The digit loop -/

section Loop

variable {W base : Nat}

/-- The test before a digit is taken predicts the overflow. -/
theorem cutoff_iff {a d : Nat} (hd : d < base) :
    ((2 ^ W - 1) / base < a ∨ (a = (2 ^ W - 1) / base ∧ (((2 ^ W - 1) % base : Nat) : Int) < (d : Int))) ↔
      2 ^ W ≤ a * base + d := by
  have hdiv := Nat.div_add_mod' (2 ^ W - 1) base
  have hmod := Nat.mod_lt (2 ^ W - 1) (Nat.lt_of_le_of_lt (Nat.zero_le d) hd)
  have hpos := Nat.two_pow_pos W
  rcases Nat.lt_trichotomy a ((2 ^ W - 1) / base) with hlt | heq | hgt
  · have hle : (a + 1) * base ≤ (2 ^ W - 1) / base * base := Nat.mul_le_mul_right base hlt
    rw [Nat.add_mul, Nat.one_mul] at hle
    refine iff_of_false ?_ (by omega)
    rintro (h | ⟨h, -⟩) <;> omega
  · rw [heq]
    constructor
    · rintro (h | ⟨-, h⟩) <;> omega
    · exact fun h => Or.inr ⟨rfl, by omega⟩
  · have hle : ((2 ^ W - 1) / base + 1) * base ≤ a * base := Nat.mul_le_mul_right base hgt
    rw [Nat.add_mul, Nat.one_mul] at hle
    exact iff_of_true (Or.inl hgt) (by omega)

/-- `any` after the digits `ds`: it keeps an overflow. -/
def anyAfter (W base : Nat) (any : Int) (a : Nat) (ds : List Nat) : Int :=
  if ds = [] then any else if any < 0 ∨ 2 ^ W ≤ horner base a ds then -1 else 1

theorem anyAfter_cons (any : Int) (a d : Nat) (ds : List Nat) (hb : 0 < base) :
    anyAfter W base any a (d :: ds) =
      if any < 0 ∨ 2 ^ W ≤ a * base + d then -1 else anyAfter W base 1 (a * base + d) ds := by
  have hle : a * base + d ≤ horner base (a * base + d) ds := le_horner hb
  unfold anyAfter
  rw [if_neg (List.cons_ne_nil d ds), horner_cons]
  by_cases hany : any < 0
  · rw [if_pos (Or.inl hany), if_pos (Or.inl hany)]
  · by_cases hover : 2 ^ W ≤ a * base + d
    · rw [if_pos (Or.inr (by omega)), if_pos (Or.inr hover)]
    · rw [if_neg (by omega : ¬(any < 0 ∨ 2 ^ W ≤ a * base + d))]
      cases ds with
      | nil => rw [horner_nil, if_neg (by omega), if_pos rfl]
      | cons e es =>
        rw [if_neg (List.cons_ne_nil e es)]
        refine if_congr ?_ rfl rfl
        omega

theorem anyAfter_overflow (a : Nat) (ds : List Nat) : anyAfter W base (-1) a ds = -1 := by
  unfold anyAfter
  rw [if_pos (Or.inl (by decide)), ite_self]

/-- The loop takes the digits the text has at `p`, and its accumulator is their value unless that
does not fit. -/
theorem strtoul_go_text {s : CStr} {l : List Byte} (hb : 0 < base) (h : IsText s l) :
    ∀ {fuel p a : Nat} {any : Int}, p ≤ l.length → l.length < p + fuel → (0 ≤ any ∨ any = -1) →
      ∃ c a', strtoul.go W s base ((2 ^ W - 1) / base) ((2 ^ W - 1) % base) fuel
          ⟨(s p).toNat, p + 1, any, a⟩ =
        some ⟨c, p + (digitPrefix base (l.drop p)).length + 1,
          anyAfter W base any a (digitPrefix base (l.drop p)), a'⟩ ∧
        (0 ≤ anyAfter W base any a (digitPrefix base (l.drop p)) →
          a' = horner base a (digitPrefix base (l.drop p)))
  | 0, p, a, any, hp, hf, _ => absurd hf (by omega)
  | fuel + 1, p, a, any, hp, hf, hany => by
    rw [strtoul.go]
    rcases drop_cases h hp with ⟨h0, -, hdrop⟩ | ⟨-, hlt, hdrop⟩
    · rw [hdrop, h0]
      exact ⟨_, a, rfl, fun _ => rfl⟩
    · cases hv : digitValue base (s p) with
      | none =>
        rw [hdrop, digitPrefix_stop hv]
        unfold digitValue at hv
        cases hdig : digit (s p).toNat with
        | none => exact ⟨_, a, rfl, fun _ => rfl⟩
        | some v =>
          rw [hdig, Option.bind_some, ite_eq_right_iff] at hv
          have hge : (base : Int) ≤ v := Int.not_lt.mp fun hvlt => nomatch hv hvlt
          simp only [if_pos hge]
          exact ⟨_, a, rfl, fun _ => rfl⟩
      | some d =>
        rw [hdrop, digitPrefix_cons hv]
        obtain ⟨hden, hdb⟩ := digitValue_iff.mp hv
        have hdig : digit (s p).toNat = some (d : Int) := (digit_iff _ _).mpr ⟨d, rfl, hden⟩
        simp only [hdig, if_neg (show ¬(base : Int) ≤ (d : Int) by omega), Int.toNat_natCast,
          cutoff_iff hdb, anyAfter_cons any a d _ hb, horner_cons, List.length_cons]
        have hf' : l.length < p + 1 + fuel := by omega
        rw [show p + ((digitPrefix base (l.drop (p + 1))).length + 1) + 1 =
          p + 1 + (digitPrefix base (l.drop (p + 1))).length + 1 by omega]
        by_cases hover : any < 0 ∨ 2 ^ W ≤ a * base + d
        · obtain ⟨c, a', hgo, -⟩ := strtoul_go_text hb h (a := a) hlt hf'
            (Or.inr rfl : (0 : Int) ≤ -1 ∨ (-1 : Int) = -1)
          rw [if_pos hover, if_pos hover]
          rw [anyAfter_overflow] at hgo
          exact ⟨c, a', hgo, fun hpos => absurd hpos (by decide)⟩
        · have hfit : (a * base + d) % 2 ^ W = a * base + d := Nat.mod_eq_of_lt (by omega)
          rw [if_neg hover, if_neg hover, hfit]
          exact strtoul_go_text hb h hlt hf' (Or.inl (by decide : (0 : Int) ≤ 1))

end Loop

/-! ## In front of the digits -/

def isBlank (c : Byte) : Bool := ISSPACE c.toNat

/-- The sign of a text without blanks, `-` or not, and what stands behind it. -/
def afterSign : List Byte → Bool × List Byte
  | [] => (false, [])
  | c :: l => if c = ch '-' then (true, l) else if c = ch '+' then (false, l) else (false, c :: l)

/-- `-` or not, and the text behind blanks and sign. -/
def afterBlanks (text : List Byte) : Bool × List Byte := afterSign (text.dropWhile isBlank)

/-- `0x` or `0X`, where the base allows it. -/
def HasPrefix (base : Nat) (body : List Byte) : Prop :=
  (base = 0 ∨ base = 16) ∧ body.getD 0 0 = ch '0' ∧ (body.getD 1 0 = ch 'x' ∨ body.getD 1 0 = ch 'X')

instance (base : Nat) (body : List Byte) : Decidable (HasPrefix base body) :=
  inferInstanceAs (Decidable (_ ∧ _))

/-- The characters that `body` has before its digits, and their base. -/
def radixOf (base : Nat) (body : List Byte) : Nat × Nat :=
  if HasPrefix base body then (2, 16)
  else (0, if base = 0 then if body.getD 0 0 = ch '0' then 8 else 10 else base)

/-- The largest number for one that does not fit, or the number with its sign. -/
def signedValue (W : Nat) (neg : Bool) (v : Nat) : Nat :=
  if 2 ^ W ≤ v then 2 ^ W - 1 else if neg then (2 ^ W - v) % 2 ^ W else v

/-- The value of the digits, and the offset behind the last; 0 if there are none. -/
def parsed (W base : Nat) (text : List Byte) : Nat × Nat :=
  let b := afterBlanks text
  let r := radixOf base b.2
  let ds := digitPrefix r.2 (b.2.drop r.1)
  (signedValue W b.1 (horner r.2 0 ds),
    if ds = [] then 0 else text.length - b.2.length + r.1 + ds.length)

section Text

variable {W base : Nat} {s : CStr} {text : List Byte}

theorem radix_pos (b : Nat) (P : Prop) [Decidable P] : 0 < if b = 0 then if P then 8 else 10 else b := by
  split
  · split <;> decide
  · exact Nat.pos_of_ne_zero ‹_›

theorem radixOf_pos (base : Nat) (body : List Byte) : 0 < (radixOf base body).2 := by
  unfold radixOf
  split
  · decide
  · exact radix_pos _ _

theorem signedValue_over {neg : Bool} {v : Nat} (h : 2 ^ W ≤ v) : signedValue W neg v = 2 ^ W - 1 :=
  if_pos h

theorem signedValue_fits {neg : Bool} {v : Nat} (h : v < 2 ^ W) :
    signedValue W neg v = if neg then (2 ^ W - v) % 2 ^ W else v := if_neg (Nat.not_le.mpr h)

/-- The end of the digit loop, from offset `p` on. -/
theorem strtoul_finish (hs : IsText s text) (hlen : text.length < 2 ^ W) {b p : Nat} (hb : 0 < b)
    (hp : p ≤ text.length) (neg : Bool) :
    (strtoul.go W s b ((2 ^ W - 1) / b) ((2 ^ W - 1) % b) (2 ^ W) ⟨(s p).toNat, p + 1, 0, 0⟩).map
        (fun d => (if d.any < 0 then 2 ^ W - 1 else if neg then (2 ^ W - d.acc) % 2 ^ W else d.acc,
          if d.any ≠ 0 then d.s - 1 else 0)) =
      some (signedValue W neg (horner b 0 (digitPrefix b (text.drop p))),
        if digitPrefix b (text.drop p) = [] then 0 else p + (digitPrefix b (text.drop p)).length) := by
  have hf : text.length < p + 2 ^ W := by omega
  obtain ⟨c, a', hgo, hval⟩ := strtoul_go_text (W := W) hb hs hp hf (Or.inl (Int.le_refl 0)) (a := 0)
  generalize digitPrefix b (text.drop p) = ds at hgo hval ⊢
  rw [hgo, Option.map_some]
  unfold anyAfter at hval ⊢
  by_cases hds : ds = []
  · subst hds
    rw [if_pos rfl] at hval
    rw [hval (Int.le_refl 0), signedValue_fits (show horner b 0 [] < 2 ^ W from Nat.two_pow_pos W)]
    simp only [if_true, lt_irrefl, if_false, ne_eq, not_true_eq_false]
  · rw [if_neg hds] at hval
    by_cases hover : 2 ^ W ≤ horner b 0 ds
    · rw [signedValue_over hover]
      simp only [if_neg hds, hover, or_true, if_true]
      rfl
    · have hno : ¬((0 : Int) < 0 ∨ 2 ^ W ≤ horner b 0 ds) := by omega
      rw [if_neg hno] at hval
      rw [hval (by decide), signedValue_fits (Nat.not_le.mp hover)]
      simp only [if_neg hds, if_neg hno]
      rfl

theorem sign_at (hs : IsText s text) {i : Nat} (hi : i ≤ text.length) :
    ∃ j, j ≤ text.length ∧ text.drop j = (afterSign (text.drop i)).2 ∧
      (s i == ch '-') = (afterSign (text.drop i)).1 ∧
      (if s i = ch '-' ∨ s i = ch '+' then (s (i + 1), i + 1 + 1) else (s i, i + 1)) = (s j, j + 1) := by
  rcases drop_cases hs hi with ⟨h0, -, hdrop⟩ | ⟨-, hlt, hdrop⟩
  · rw [hdrop, h0]
    exact ⟨i, hi, hdrop, by decide, by rw [if_neg (by decide), ← h0]⟩
  · rw [hdrop, afterSign]
    by_cases hminus : s i = ch '-'
    · rw [if_pos hminus, if_pos (Or.inl hminus), hminus]
      exact ⟨i + 1, hlt, rfl, beq_self_eq_true _, rfl⟩
    · rw [if_neg hminus, beq_false_of_ne hminus]
      by_cases hplus : s i = ch '+'
      · rw [if_pos hplus, if_pos (Or.inr hplus)]
        exact ⟨i + 1, hlt, rfl, rfl, rfl⟩
      · rw [if_neg hplus, if_neg (not_or.mpr ⟨hminus, hplus⟩)]
        exact ⟨i, hi, hdrop, rfl, rfl⟩

theorem radix_at (base : Nat) (hs : IsText s text) {j : Nat} (hj : j ≤ text.length) :
    j + (radixOf base (text.drop j)).1 ≤ text.length ∧ ∃ b,
      (if (base = 0 ∨ base = 16) ∧ s j = ch '0' ∧ (s (j + 1) = ch 'x' ∨ s (j + 1) = ch 'X') then
          (s (j + 1 + 1), j + 1 + 2, 16) else (s j, j + 1, base)) =
        (s (j + (radixOf base (text.drop j)).1), j + (radixOf base (text.drop j)).1 + 1, b) ∧
      (if b = 0 then if s (j + (radixOf base (text.drop j)).1) = ch '0' then 8 else 10 else b) =
        (radixOf base (text.drop j)).2 := by
  have hget : ∀ k, j + k ≤ text.length → (text.drop j).getD k 0 = s (j + k) := fun k hk => by
    rw [hs.reads _ hk, getD_drop]
  have h0 : (text.drop j).getD 0 0 = s j := hget 0 hj
  have hnext : ∀ {k : Nat} {c : Byte}, k ≤ text.length → s k = c → c ≠ 0 → k + 1 ≤ text.length :=
    fun hk hc hne => (drop_of_ne hs hk (by rw [hc]; exact hne)).1
  have hiff : HasPrefix base (text.drop j) ↔
      (base = 0 ∨ base = 16) ∧ s j = ch '0' ∧ (s (j + 1) = ch 'x' ∨ s (j + 1) = ch 'X') := by
    unfold HasPrefix
    rw [h0]
    refine and_congr_right fun _ => and_congr_right fun hz => ?_
    rw [hget 1 (hnext hj hz (by decide))]
  unfold radixOf
  by_cases hp : HasPrefix base (text.drop j)
  · obtain ⟨-, hz, hx⟩ := hiff.mp hp
    have h1 := hnext hj hz (by decide)
    have h2 : j + 1 + 1 ≤ text.length := by
      rcases hx with hx | hx <;> exact hnext h1 hx (by decide)
    rw [if_pos hp, if_pos (hiff.mp hp)]
    exact ⟨h2, 16, rfl, rfl⟩
  · rw [if_neg hp, if_neg (fun h => hp (hiff.mpr h)), h0]
    exact ⟨hj, base, rfl, rfl⟩

/-- **`strtoul` on a text.** -/
theorem strtoul_eq (hs : IsText s text) (hlen : text.length < 2 ^ W) (base : Nat) :
    strtoul W s base = some (parsed W base text) := by
  obtain ⟨i, hi⟩ : ∃ i, i = text.findIdx (!isBlank ·) := ⟨_, rfl⟩
  have hscan : scan (fun c => !ISSPACE c.toNat) s (2 ^ W) 0 = some i :=
    hi ▸ scan_text hs rfl (fun _ _ => rfl) hlen
  have hile : i ≤ text.length := hi ▸ List.findIdx_le_length
  have hblanks : text.drop i = text.dropWhile isBlank := by
    rw [hi, List.dropWhile_eq_drop_findIdx_not]
  obtain ⟨j, hj, hbody, hneg, hpair⟩ := sign_at hs hile
  obtain ⟨hq, b, hradix, hbase⟩ := radix_at base hs hj
  have hlen' : text.length - (text.drop j).length = j := by
    rw [List.length_drop]
    omega
  have hparsed : afterBlanks text = ((afterBlanks text).1, text.drop j) := by
    rw [hbody, hblanks]
    rfl
  rw [hblanks] at hneg
  rw [parsed, hparsed]
  simp only [hlen', List.drop_drop]
  rw [← strtoul_finish hs hlen (radixOf_pos base (text.drop j)) hq]
  simp only [strtoul, hscan, hpair, hneg, hradix, hbase, Option.bind_eq_bind, Option.bind_some,
    Option.pure_def]
  exact (Option.map_eq_bind ..).symm

theorem strtoul_text (h : IsText s text) (hl : text.length < 2 ^ W) (base : Nat) :
    ∃ r, strtoul W s base = some r ∧ strtoul W (strOf text) base = some r :=
  ⟨_, strtoul_eq h hl base, strtoul_eq (isText_strOf h.noNul) hl base⟩

end Text

/-! ## Texts by their parts -/

/-- No sign, or one of the two; the number says whether it is `-`. -/
inductive Sign : List Byte → Bool → Prop
  | none : Sign [] false
  | plus : Sign [ch '+'] false
  | minus : Sign [ch '-'] true

section Parts

variable {W base b k d : Nat} {c : Byte} {neg : Bool} {ws sg cs l rest text body : List Byte} {ds : List Nat}

theorem Denotes.facts (h : Denotes c d) : isBlank c = false ∧ c ≠ ch '-' ∧ c ≠ ch '+' := by
  unfold Denotes at h
  have hsign : (ch '-').toNat = 45 ∧ (ch '+').toNat = 43 := by decide
  refine ⟨?_, ?_, ?_⟩
  · unfold isBlank ISSPACE
    simp only [decide_eq_false_iff_not]
    omega
  · rintro rfl
    omega
  · rintro rfl
    omega

theorem dropWhile_blanks (hws : ∀ c ∈ ws, isBlank c = true) (hsg : Sign sg neg) (hc : Denotes c d) :
    (ws ++ (sg ++ c :: l)).dropWhile isBlank = sg ++ c :: l := by
  have hhead : ∀ {c : Byte} {l : List Byte}, isBlank c = false → (c :: l).dropWhile isBlank = c :: l :=
    fun h => List.dropWhile_cons_of_neg (by rw [h]; exact Bool.false_ne_true)
  rw [List.dropWhile_append_of_pos hws]
  cases hsg with
  | none => exact hhead hc.facts.1
  | plus => exact hhead (by decide)
  | minus => exact hhead (by decide)

theorem afterBlanks_append (hws : ∀ c ∈ ws, isBlank c = true) (hsg : Sign sg neg) (hc : Denotes c d) :
    afterBlanks (ws ++ (sg ++ c :: l)) = (neg, c :: l) := by
  rw [afterBlanks, dropWhile_blanks hws hsg hc]
  cases hsg with
  | none =>
    obtain ⟨-, h1, h2⟩ := hc.facts
    rw [List.nil_append, afterSign, if_neg h1, if_neg h2]
  | plus => rfl
  | minus => rfl

/-- `cs` are digits of the base, of the values `ds`. -/
def Numeral (base : Nat) (cs : List Byte) (ds : List Nat) : Prop :=
  List.Forall₂ (fun c d => Denotes c d ∧ d < base) cs ds

theorem digitPrefix_append (h : Numeral base cs ds) (hl : ∀ c ∈ l.head?, ∀ d, Denotes c d → base ≤ d) :
    digitPrefix base (cs ++ l) = ds := by
  induction h with
  | nil =>
    cases l with
    | nil => rfl
    | cons c l =>
      refine digitPrefix_stop (Option.eq_none_iff_forall_ne_some.mpr fun d hd => ?_)
      obtain ⟨hden, hlt⟩ := digitValue_iff.mp hd
      exact absurd (hl c rfl d hden) (Nat.not_le.mpr hlt)
  | cons hcd _ ih => rw [List.cons_append, digitPrefix_cons (digitValue_iff.mpr hcd), ih]

/-- The digits a text begins with are a numeral, and what follows them is no digit. -/
theorem numeral_digitPrefix (base : Nat) (l : List Byte) :
    Numeral base (l.take (digitPrefix base l).length) (digitPrefix base l) ∧
      ∀ c ∈ (l.drop (digitPrefix base l).length).head?, ∀ d, Denotes c d → base ≤ d := by
  induction l with
  | nil => exact ⟨.nil, fun c hc => nomatch hc⟩
  | cons c l ih =>
    cases hv : digitValue base c with
    | none =>
      rw [digitPrefix_stop hv]
      refine ⟨.nil, fun c' hc' d hd => ?_⟩
      obtain rfl : c = c' := Option.some.inj hc'
      by_contra hlt
      rw [digitValue_iff.mpr ⟨hd, Nat.not_le.mp hlt⟩] at hv
      cases hv
    | some d =>
      rw [digitPrefix_cons hv]
      exact ⟨.cons (digitValue_iff.mp hv) ih.1, ih.2⟩

theorem Numeral.length_le (h : Numeral base cs ds) (hp : cs <+: l) :
    cs.length ≤ (digitPrefix base l).length := by
  obtain ⟨rest, rfl⟩ := hp
  induction h with
  | nil => exact Nat.zero_le _
  | cons hcd _ ih =>
    rw [List.cons_append, digitPrefix_cons (digitValue_iff.mpr hcd), List.length_cons, List.length_cons]
    exact Nat.succ_le_succ ih

theorem denotes_zero : Denotes (ch '0') 0 := by decide

theorem Denotes.x {x : Byte} {d : Nat} (hx : x = ch 'x' ∨ x = ch 'X') (h : Denotes x d) : 16 ≤ d := by
  have hval : (ch 'x').toNat = 120 ∧ (ch 'X').toNat = 88 := by decide
  unfold Denotes at h
  rcases hx with rfl | rfl <;> omega

theorem HasPrefix.cons (h : HasPrefix base body) : ∃ x l, body = ch '0' :: x :: l ∧
    (x = ch 'x' ∨ x = ch 'X') := by
  obtain ⟨-, h0, hx⟩ := h
  match body with
  | [] => exact absurd h0 (by decide)
  | [_] => exact absurd hx (by rw [List.getD_cons_succ]; decide)
  | c :: x :: l => exact ⟨x, l, congrArg (· :: x :: l) h0, hx⟩

/-- What is read, when there are digits. -/
theorem parsed_of (W : Nat) (hafter : afterBlanks text = (neg, body)) (hr : radixOf base body = (k, b))
    (hds : digitPrefix b (body.drop k) = ds) (hne : ds ≠ []) :
    parsed W base text =
      (signedValue W neg (horner b 0 ds), text.length - body.length + k + ds.length) := by
  rw [parsed, hafter]
  simp only [hr, hds, if_neg hne]

theorem parsed_value (hb : 0 < base) (hws : ∀ c ∈ ws, isBlank c = true) (hsg : Sign sg neg)
    (hcs : Numeral base cs ds) (hne : cs ≠ [])
    (hrest : ∀ c ∈ rest.head?, ∀ d, Denotes c d → base ≤ d)
    (h0x : ¬HasPrefix base (cs ++ rest)) :
    parsed W base (ws ++ (sg ++ (cs ++ rest))) =
      (signedValue W neg (horner base 0 ds), ws.length + sg.length + cs.length) := by
  have hlen := hcs.length_eq
  have hds : digitPrefix base (cs ++ rest) = ds := digitPrefix_append hcs hrest
  have hradix : radixOf base (cs ++ rest) = (0, base) := by
    rw [radixOf, if_neg h0x, if_neg (Nat.ne_of_gt hb)]
  have hafter : afterBlanks (ws ++ (sg ++ (cs ++ rest))) = (neg, cs ++ rest) := by
    cases hcs with
    | nil => exact absurd rfl hne
    | cons hcd _ => exact afterBlanks_append hws hsg hcd.1
  rw [parsed_of W hafter hradix hds fun h => hne (List.forall₂_nil_right_iff.mp (h ▸ hcs))]
  congr 1
  simp only [List.length_append]
  omega

/-- Digits of a base up to 16, and then no digit and no letter, are no `0x`. -/
theorem Numeral.not_hasPrefix (h : Numeral base cs ds) (hb : base ≤ 16)
    (hrest : ∀ c ∈ rest.head?, ∀ d, ¬Denotes c d) : ¬HasPrefix base (cs ++ rest) := by
  intro hp
  obtain ⟨x, l, hl, hx⟩ := hp.cons
  have hxd : Denotes x 33 := by
    rcases hx with rfl | rfl <;> decide
  cases h with
  | nil =>
    obtain rfl : rest = ch '0' :: x :: l := hl
    exact hrest (ch '0') rfl 0 denotes_zero
  | cons _ h =>
    have htail := (List.cons.inj hl).2
    cases h with
    | nil =>
      obtain rfl : rest = x :: l := htail
      exact hrest x rfl 33 hxd
    | cons hcd _ =>
      obtain rfl := (List.cons.inj htail).1
      exact absurd (hcd.1.x hx) (Nat.not_le.mpr (Nat.lt_of_lt_of_le hcd.2 hb))

end Parts

/-! ## The accumulator -/

namespace Exact

/-- The digit loop in numbers of any size; `none` is an accumulator that a word does not hold. -/
def go (W : Nat) (nptr : CStr) (base : Nat) (cutoff cutlim : Nat) : Nat → Digits → Option (Option Digits)
  | 0, _ => some none
  | fuel + 1, d =>
    match digit d.c with
    | none => some (some d)
    | some c =>
      if (base : Int) ≤ c then some (some { d with c := c })
      else if d.any < 0 ∨ cutoff < d.acc ∨ (d.acc = cutoff ∧ (cutlim : Int) < c) then
        go W nptr base cutoff cutlim fuel { d with any := -1, c := (nptr d.s).toNat, s := d.s + 1 }
      else if d.acc * base + c.toNat < 2 ^ W then
        go W nptr base cutoff cutlim fuel
          ⟨(nptr d.s).toNat, d.s + 1, 1, d.acc * base + c.toNat⟩
      else none

/-- `strtoul`, over that loop. -/
def strtoul (W : Nat) (nptr : CStr) (base : Nat) : Option (Option (Nat × Nat)) :=
  let ULONG_MAX := 2 ^ W - 1
  match scan (fun c => !ISSPACE c.toNat) nptr (2 ^ W) 0 with
  | none => some none
  | some i =>
    let c := nptr i
    let s := i + 1
    let neg := c == ch '-'
    let (c, s) := if c = ch '-' ∨ c = ch '+' then (nptr s, s + 1) else (c, s)
    let (c, s, base) :=
      if (base = 0 ∨ base = 16) ∧ c = ch '0' ∧ (nptr s = ch 'x' ∨ nptr s = ch 'X') then
        (nptr (s + 1), s + 2, 16)
      else (c, s, base)
    let base := if base = 0 then (if c = ch '0' then 8 else 10) else base
    (go W nptr base (ULONG_MAX / base) (ULONG_MAX % base) (2 ^ W) ⟨c.toNat, s, 0, 0⟩).map fun r =>
      r.map fun d =>
        (if d.any < 0 then ULONG_MAX else if neg then (2 ^ W - d.acc) % 2 ^ W else d.acc,
          if d.any ≠ 0 then d.s - 1 else 0)

theorem digit_nonneg {c v : Int} (h : digit c = some v) : 0 ≤ v := by
  unfold digit ISDIGIT ISALPHA ISUPPER at h
  simp only [decide_eq_true_eq] at h
  split at h
  · cases h
    omega
  · split at h
    · cases h
      split <;> omega
    · cases h

theorem go_eq {W base : Nat} (hb : 0 < base) (s : CStr) : ∀ {fuel : Nat} {d : Digits}, d.acc < 2 ^ W →
    go W s base ((2 ^ W - 1) / base) ((2 ^ W - 1) % base) fuel d =
      some (strtoul.go W s base ((2 ^ W - 1) / base) ((2 ^ W - 1) % base) fuel d)
  | 0, _, _ => rfl
  | fuel + 1, d, hacc => by
    rw [go, strtoul.go]
    cases hdig : digit d.c with
    | none => rfl
    | some c =>
      have hc : ((c.toNat : Nat) : Int) = c := Int.toNat_of_nonneg (digit_nonneg hdig)
      simp only
      by_cases hge : (base : Int) ≤ c
      · rw [if_pos hge, if_pos hge]
      · have hcut : _ ↔ 2 ^ W ≤ d.acc * base + c.toNat := cutoff_iff (by omega : c.toNat < base)
        rw [hc] at hcut
        rw [if_neg hge, if_neg hge]
        by_cases hover : d.any < 0 ∨ (2 ^ W - 1) / base < d.acc ∨
            (d.acc = (2 ^ W - 1) / base ∧ (((2 ^ W - 1) % base : Nat) : Int) < c)
        · rw [if_pos hover, if_pos hover]
          exact go_eq hb s hacc
        · have hfit : d.acc * base + c.toNat < 2 ^ W :=
            Nat.not_le.mp fun hle => hover (Or.inr (hcut.mpr hle))
          rw [if_neg hover, if_neg hover, if_pos hfit, Nat.mod_eq_of_lt hfit]
          exact go_eq hb s hfit

/-- The accumulator never wraps, whatever the string. -/
theorem strtoul_eq (W base : Nat) (s : CStr) : strtoul W s base = some (Libk.strtoul W s base) := by
  unfold strtoul Libk.strtoul
  cases scan (fun c => !ISSPACE c.toNat) s (2 ^ W) 0 with
  | none => rfl
  | some i =>
    simp only [Option.bind_eq_bind, Option.bind_some, Option.pure_def]
    rw [go_eq _ s (Nat.two_pow_pos W)]
    · exact congrArg some (Option.map_eq_bind ..)
    · exact radix_pos _ _

end Exact

end Osdev2.Libk
