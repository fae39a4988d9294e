import Osdev2.Libk.Number
import Osdev2.Libk.Strtoul

/-!
# Numbers written and read back

What `strtoul` makes of digits as `__int_str` writes them (`strtoul_digits`) and of
hexadecimal numerals (`strtoul_hex`), and with it the round trip: what `__int_str`
writes, `strtoul` reads.
-/

namespace Osdev2.Libk

open Osdev2.Lib

/-! ## Reading digits -/

theorem digitChar_facts : ∀ d, d < 16 → digit (digitChar d).toNat = some (d : Int) ∧
    ISSPACE (digitChar d).toNat = false ∧ digitChar d ≠ 0 ∧ digitChar d ≠ ch '-' ∧
    digitChar d ≠ ch '+' ∧ digitChar d ≠ ch 'x' ∧ digitChar d ≠ ch 'X' := by
  decide

section Read

variable {W base : Nat} {s : CStr}

/-- **Blanks, a sign, digits.** The value fits, and what follows the digits is no digit. -/
theorem strtoul_digits (k : Nat) (neg : Bool) (ds : List Nat) (rest : List Byte) (hb : 0 < base)
    (hb16 : base ≤ 16) (hds : ∀ d ∈ ds, d < base) (hne : ds ≠ [])
    (hrest : ∀ c ∈ rest.head?, digit c.toNat = none)
    (hv : horner base 0 ds < 2 ^ W) {l : List Byte} (hl : l = List.replicate k (ch ' ') ++
      ((if neg then [ch '-'] else []) ++ (ds.map digitChar ++ rest)))
    (hs : IsText s l) (hlen : l.length < 2 ^ W) :
    strtoul W s base = some (if neg then (2 ^ W - horner base 0 ds) % 2 ^ W else horner base 0 ds,
      l.length - rest.length) := by
  have hnum : Numeral base (ds.map digitChar) ds := by
    refine List.forall₂_map_left_iff.mpr (List.forall₂_same.mpr fun d hd => ⟨?_, hds d hd⟩)
    exact digit_eq_some.mp (digitChar_facts d (Nat.lt_of_lt_of_le (hds d hd) hb16)).1
  have hstop : ∀ c ∈ rest.head?, ∀ d, ¬Denotes c d := fun c hc d hd =>
    nomatch (hrest c hc).symm.trans (digit_eq_some.mpr hd)
  have hblanks : ∀ c ∈ List.replicate k (ch ' '), isBlank c = true := fun c hc =>
    (List.eq_of_mem_replicate hc) ▸ rfl
  have hsign : Sign (if neg then [ch '-'] else []) neg := by
    cases neg with
    | true => exact .minus
    | false => exact .none
  rw [strtoul_eq hs hlen, hl, parsed_value hb hblanks hsign hnum (by simpa using hne)
    (fun c hc d hd => absurd hd (hstop c hc d)) (hnum.not_hasPrefix hb16 hstop), signedValue_fits hv]
  simp only [List.length_append]
  rw [← Nat.add_assoc, ← Nat.add_assoc, Nat.add_sub_cancel]

end Read

/-! ## Hexadecimal numerals -/

def hexLower : CStr :=
  lit ['0', '1', '2', '3', '4', '5', '6', '7', '8', '9', 'a', 'b', 'c', 'd', 'e', 'f']

/-- The digit, in either case. -/
def HexDigit (c : Byte) (d : Nat) : Prop := d < 16 ∧ (c = digitChar d ∨ c = hexLower d)

/-- The text is a hexadecimal numeral of the number, with or without `0x`. -/
inductive Hexadecimal : List Byte → Nat → Prop
  | digits {cs : List Byte} {ds : List Nat} (hd : List.Forall₂ HexDigit cs ds) (hne : ds ≠ []) :
      Hexadecimal cs (horner 16 0 ds)
  | prefixed {x : Byte} {cs : List Byte} {ds : List Nat} (hx : x = ch 'x' ∨ x = ch 'X')
      (hd : List.Forall₂ HexDigit cs ds) (hne : ds ≠ []) : Hexadecimal (ch '0' :: x :: cs) (horner 16 0 ds)

theorem HexDigit.denotes {c : Byte} {d : Nat} (h : HexDigit c d) : Denotes c d := by
  obtain ⟨hd, rfl | rfl⟩ := h
  · exact digit_eq_some.mp (digitChar_facts d hd).1
  · have hall : ∀ d, d < 16 → Denotes (hexLower d) d := by decide
    exact hall d hd

theorem hexadecimal_digitsText (n : Nat) : Hexadecimal (digitsText 16 n) n := by
  have hd : ∀ ds : List Nat, (∀ d ∈ ds, d < 16) → List.Forall₂ HexDigit (ds.map digitChar) ds := by
    intro ds h
    induction ds with
    | nil => exact .nil
    | cons d ds ih =>
      exact .cons ⟨h d List.mem_cons_self, .inl rfl⟩ (ih fun e he => h e (List.mem_cons_of_mem d he))
  have h := Hexadecimal.digits (hd _ (numeral_lt (n := n) (by decide : 1 < 16)))
    (numeral_ne_nil (by decide))
  rwa [horner_numeral (by decide)] at h

section Hex

variable {W : Nat} {s : CStr}

theorem numeral_of_hex {cs : List Byte} {ds : List Nat} (h : List.Forall₂ HexDigit cs ds) :
    Numeral 16 cs ds :=
  h.imp fun _ _ hcd => ⟨hcd.denotes, hcd.1⟩

theorem strtoul_hex {H : List Byte} {a : Nat} (h : Hexadecimal H a) (ha : a < 2 ^ W) (hs : IsText s H)
    (hlen : H.length < 2 ^ W) : strtoul W s 16 = some (a, H.length) := by
  have hnil : ∀ c ∈ ([] : List Byte), isBlank c = true := nofun
  have hend : ∀ c ∈ ([] : List Byte).head?, ∀ d, Denotes c d → 16 ≤ d := fun _ hc => nomatch hc
  rw [strtoul_eq hs hlen]
  refine congrArg some ?_
  cases h with
  | @digits _ ds hd hne =>
    have hnum := numeral_of_hex hd
    have hcs : H ≠ [] := fun hH => hne (List.forall₂_nil_left_iff.mp (hH ▸ hd))
    have hno : ¬HasPrefix 16 (H ++ []) := hnum.not_hasPrefix (Nat.le_refl 16) fun _ hc => nomatch hc
    have hvalue := parsed_value (W := W) (by decide) hnil .none hnum hcs hend hno
    rw [List.append_nil, signedValue_fits ha] at hvalue
    exact hvalue.trans (congrArg _ (Nat.zero_add _))
  | @prefixed x cs ds hx hd hne =>
    have hnum := numeral_of_hex hd
    have hds : digitPrefix 16 (cs ++ []) = ds := digitPrefix_append hnum hend
    have hafter : afterBlanks (ch '0' :: x :: cs) = (false, ch '0' :: x :: cs) :=
      afterBlanks_append hnil .none denotes_zero
    have hr : radixOf 16 (ch '0' :: x :: cs) = (2, 16) := if_pos ⟨Or.inr rfl, rfl, hx⟩
    rw [List.append_nil] at hds
    rw [parsed_of W hafter hr hds hne, signedValue_fits ha, ← hnum.length_eq, Nat.sub_self, Nat.zero_add,
      Nat.add_comm]
    rfl

end Hex

/-! ## The round trip -/

section RoundTrip

variable {W : Nat}

theorem text_ne_zero {base : Nat} (hb : 1 < base) (hb16 : base ≤ 16) (value : BitVec 64)
    (p q : Bool) (width : Int) (justify zeroPad : Bool) :
    ∀ c ∈ padded (unpadded base value p q) width justify zeroPad, c ≠ 0 := by
  have hsign : ∀ c ∈ signText value p q, c ≠ 0 := by
    unfold signText
    split
    · decide
    · split
      · decide
      · split <;> decide
  have hdigits : ∀ c ∈ unpadded base value p q, c ≠ 0 := by
    intro c hc
    rcases List.mem_append.mp hc with hc | hc
    · exact hsign c hc
    · obtain ⟨d, hd, rfl⟩ := List.mem_map.mp hc
      exact (digitChar_facts d (Nat.lt_of_lt_of_le (numeral_lt hb d hd) hb16)).2.2.1
  have hpad : ∀ k, ∀ c ∈ List.replicate k (if zeroPad then ch '0' else ch ' '), c ≠ 0 := fun k c hc =>
    (List.eq_of_mem_replicate hc) ▸ padChar_ne_zero zeroPad
  intro c hc
  unfold padded at hc
  cases justify
  · exact (List.mem_append.mp hc).elim (hpad _ c) (hdigits c)
  · exact (List.mem_append.mp hc).elim (hdigits c) (hpad _ c)

/-- The array `__int_str` leaves: its bytes have no NUL among them. -/
theorem int_str_written (hW : 32 ≤ W) {base : BitVec 32} (hb : 1 < base.toNat)
    (hb16 : base.toNat ≤ 16) {value : BitVec 64} (hn : (magnitude value).toNat < 2 ^ 32)
    (b : CStr) (p q justify zeroPad : Bool) {width : Int} (hw : -2 ^ 30 ≤ width ∧ width ≤ 255) :
    ∃ s, int_str W value b base p q width justify zeroPad = some s ∧
      IsText s (padded (unpadded base.toNat value p q) width justify zeroPad) := by
  have hlim := two_pow_le_limit (show 0 < base.toNat by omega)
  obtain ⟨s, hs, ht⟩ := int_str_text b p q justify zeroPad hW hb
    (Nat.lt_of_lt_of_le hn hlim) (room_of_le hb hw)
  refine ⟨s, hs, ?_⟩
  rwa [List.takeWhile_eq_self_iff.mpr fun c hc =>
    bne_iff_ne.mpr (text_ne_zero hb hb16 value p q width justify zeroPad c hc)] at ht

theorem magnitude_signExtend (v : BitVec 32) :
    (v.signExtend 64).slt 0 = decide (2 ^ 31 ≤ v.toNat) ∧
      (magnitude (v.signExtend 64)).toNat = if 2 ^ 31 ≤ v.toNat then 2 ^ 32 - v.toNat else v.toNat := by
  have hext : (v.signExtend 64).toInt = v.toInt := BitVec.toInt_signExtend_of_le (by decide)
  rw [BitVec.toInt_eq_toNat_cond, BitVec.toInt_eq_toNat_cond] at hext
  have hv := v.isLt
  have hw := (v.signExtend 64).isLt
  have hslt : (v.signExtend 64).slt 0 = decide (2 ^ 31 ≤ v.toNat) := by
    rw [BitVec.slt_eq_decide, decide_eq_decide, BitVec.toInt_eq_toNat_cond]
    simp only [BitVec.ofNat_eq_ofNat, BitVec.toInt_zero]
    split at hext <;> split at hext <;> split <;> omega
  refine ⟨hslt, ?_⟩
  unfold magnitude
  rw [hslt]
  by_cases h : 2 ^ 31 ≤ v.toNat
  · rw [decide_eq_true h, if_pos rfl, if_pos h, BitVec.toNat_neg]
    split at hext <;> split at hext <;> omega
  · rw [decide_eq_false h, if_neg Bool.false_ne_true, if_neg h]
    split at hext <;> split at hext <;> omega

theorem unsigned_text (base : Nat) {value : BitVec 64} (h : value.toNat < 2 ^ 63) :
    unpadded base value false false = digitsText base value.toNat := by
  obtain ⟨h1, h2⟩ := magnitude_of_lt h
  rw [unpadded, signText, h1, h2, if_neg Bool.false_ne_true, if_neg Bool.false_ne_true,
    if_neg Bool.false_ne_true, List.nil_append]

/-- **Round trip.** Unsigned 32-bit values in bases 8, 10 and 16, padded on the left, are
read back with `*endptr` at the NUL; signed ones in base 10, padded with blanks, modulo
`2 ^ 32`. -/
theorem int_str_strtoul (hW : 32 ≤ W) {width : Int} (hw0 : 0 ≤ width) (hw : width ≤ 255) (b : CStr) :
    (∀ (v : Nat) (base : BitVec 32) (zeroPad : Bool), v < 2 ^ 32 → base ∈ [8, 10, 16] →
      ∃ s l, int_str W (BitVec.ofNat 64 v) b base false false width false zeroPad = some s ∧
        IsText s l ∧ strtoul W s base.toNat = some (v, l.length)) ∧
    ∀ (v : BitVec 32) (justify : Bool), ∃ s r,
      int_str W (v.signExtend 64) b 10 false false width justify false = some s ∧
        strtoul W s 10 = some r ∧ r.1 % 2 ^ 32 = v.toNat := by
  have hW2 : 2 ^ 32 ≤ 2 ^ W := Nat.pow_le_pow_right (by decide) hW
  constructor
  · intro v base zeroPad hv hbase
    have hb : 1 < base.toNat ∧ base.toNat ≤ 16 := by
      fin_cases hbase <;> decide
    have hval : (BitVec.ofNat 64 v).toNat = v := by
      rw [BitVec.toNat_ofNat, Nat.mod_eq_of_lt (by omega)]
    have hsmall : (BitVec.ofNat 64 v).toNat < 2 ^ 63 := by omega
    obtain ⟨s, hs, ht⟩ := int_str_written hW hb.1 hb.2
      (by rw [(magnitude_of_lt hsmall).2]; omega) b false false false zeroPad ⟨by omega, hw⟩
    have hlen := padded_length (unpadded base.toNat (BitVec.ofNat 64 v) false false) width false zeroPad
    have hulen := unpadded_length hb.1 (BitVec.ofNat 64 v) false false
    rw [unsigned_text _ hsmall, hval] at ht hlen hulen
    refine ⟨s, _, hs, ht, ?_⟩
    have hds : ∀ d ∈ numeral base.toNat v, d < base.toNat := numeral_lt hb.1
    have hval := horner_numeral hb.1 (n := v)
    have hne := numeral_ne_nil hb.1 (n := v)
    cases zeroPad with
    | false =>
      have h := strtoul_digits (W := W) (width - (digitsText base.toNat v).length).toNat false
        (numeral base.toNat v) [] (by omega) hb.2 hds hne (by simp) (by omega)
        (by simp [padded, digitsText]) ht (by omega)
      rw [h, hval]
      rfl
    | true =>
      have h := strtoul_digits (W := W) 0 false
        (List.replicate (width - (digitsText base.toNat v).length).toNat 0 ++ numeral base.toNat v) []
        (by omega) hb.2 (List.forall_mem_append.mpr
          ⟨fun d hd => (List.eq_of_mem_replicate hd) ▸ (by omega), hds⟩) (by simp [hne]) (by simp)
        (by rw [horner_zeros]; omega)
        (by simp [padded, digitsText, List.map_replicate]; exact Or.inr rfl) ht (by omega)
      rw [h, horner_zeros, hval]
      rfl
  · intro v justify
    obtain ⟨hslt, hmag⟩ := magnitude_signExtend v
    have hv := v.isLt
    obtain ⟨s, hs, ht⟩ := int_str_written hW (show 1 < (10 : BitVec 32).toNat by decide) (by decide)
      (show (magnitude (v.signExtend 64)).toNat < 2 ^ 32 by rw [hmag]; split <;> omega) b false
      false justify false ⟨by omega, hw⟩
    rw [show (10 : BitVec 32).toNat = 10 from rfl] at ht
    have hlen := padded_length (unpadded 10 (v.signExtend 64) false false) width justify false
    have hulen := unpadded_length (show 1 < 10 by decide) (v.signExtend 64) false false
    have hval := horner_numeral (show 1 < 10 by decide) (n := (magnitude (v.signExtend 64)).toNat)
    have hsplit : unpadded 10 (v.signExtend 64) false false =
        (if decide (2 ^ 31 ≤ v.toNat) then [ch '-'] else []) ++
          (numeral 10 (magnitude (v.signExtend 64)).toNat).map digitChar := by
      rw [unpadded, signText, hslt]
      rfl
    obtain ⟨r, hr, hr1⟩ : ∃ r, strtoul W s 10 = some r ∧ r.1 =
        if decide (2 ^ 31 ≤ v.toNat) then (2 ^ W - (magnitude (v.signExtend 64)).toNat) % 2 ^ W
        else (magnitude (v.signExtend 64)).toNat := by
      refine ⟨_, strtoul_digits
        (if justify then 0 else (width - (unpadded 10 (v.signExtend 64) false false).length).toNat)
        (decide (2 ^ 31 ≤ v.toNat)) (numeral 10 (magnitude (v.signExtend 64)).toNat)
        (if justify then List.replicate
          (width - (unpadded 10 (v.signExtend 64) false false).length).toNat (ch ' ') else [])
        (by decide) (by decide) (numeral_lt (by decide)) (numeral_ne_nil (by decide)) ?_ ?_ ?_ ht ?_,
        by rw [hval]⟩
      · cases justify with
        | false => simp
        | true =>
          intro c hc
          rw [if_pos rfl, List.head?_replicate] at hc
          split at hc
          · cases hc
          · cases hc
            decide
      · rw [hval, hmag]; split <;> omega
      · cases justify with
        | false => simp only [padded, hsplit, List.append_nil, Bool.false_eq_true, if_false]
        | true =>
          simp only [padded, hsplit, List.replicate_zero, List.nil_append, List.append_assoc, if_true,
            Bool.false_eq_true, if_false]
      · omega
    refine ⟨s, r, hs, hr, ?_⟩
    rw [hr1, hmag]
    by_cases h : 2 ^ 31 ≤ v.toNat
    · -- `-acc` on a `W`-bit `unsigned long`
      obtain ⟨k, hk⟩ : ∃ k, 2 ^ W = 2 ^ 32 * (k + 1) :=
        ⟨2 ^ (W - 32) - 1, by rw [Nat.sub_add_cancel (Nat.two_pow_pos _), ← Nat.pow_add,
          Nat.add_sub_cancel' hW]⟩
      rw [if_pos (decide_eq_true h), if_pos h,
        Nat.mod_eq_of_lt (show 2 ^ W - (2 ^ 32 - v.toNat) < 2 ^ W by omega)]
      omega
    · rw [decide_eq_false h, if_neg Bool.false_ne_true, if_neg h, Nat.mod_eq_of_lt hv]

theorem int_str_strtoul_eight :
    (∀ (v : Nat) (base : BitVec 32) (zeroPad : Bool), v < 2 ^ 32 → base ∈ [8, 10, 16] →
      ∃ s l, int_str 32 (BitVec.ofNat 64 v) (fun _ => 0) base false false 8 false zeroPad = some s ∧
        IsText s l ∧ strtoul 32 s base.toNat = some (v, l.length)) ∧
    ∀ (v : BitVec 32) (justify : Bool), ∃ s r,
      int_str 32 (v.signExtend 64) (fun _ => 0) 10 false false 8 justify false = some s ∧
        strtoul 32 s 10 = some r ∧ r.1 % 2 ^ 32 = v.toNat :=
  int_str_strtoul (by decide) (by decide) (by decide) _

end RoundTrip

end Osdev2.Libk
