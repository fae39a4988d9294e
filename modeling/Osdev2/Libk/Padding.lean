import Osdev2.Libk.RoundTrip

/-!
# Padded numbers

`__int_str` fills a field with spaces or zeros, on the left or on the right of the sign
and the digits. `ReadAs` says what a reader takes a text for, `strip` drops the spaces
around it. Zeros on the left of a sign, or on the right of the digits, change what is
read: `padding_preserves_iff`.
-/

namespace Osdev2.Libk

open Osdev2.Lib

/-! ## Reading a number -/

/-- Without the spaces around it. -/
def strip (l : List Byte) : List Byte := (l.dropWhile (· == ch ' ')).rdropWhile (· == ch ' ')

/-- A sign, or none. -/
def signs : List (List Byte) := [[], [ch '-'], [ch '+']]

/-- The number of a sign and digits. -/
def signed (sign : List Byte) (n : Nat) : Int := if sign = [ch '-'] then -n else n

/-- The text is an optional sign, then digits, and denotes the number. -/
def ReadAs (base : Nat) (l : List Byte) (v : Int) : Prop :=
  ∃ sign ds, sign ∈ signs ∧ ds ≠ [] ∧ (∀ d ∈ ds, d < base) ∧ l = sign ++ ds.map digitChar ∧
    signed sign (horner base 0 ds) = v

section Strip

variable {l : List Byte}

theorem strip_spaces (i j : Nat) (h : ∀ c ∈ l, c ≠ ch ' ') (hne : l ≠ []) :
    strip (List.replicate i (ch ' ') ++ l ++ List.replicate j (ch ' ')) = l := by
  obtain ⟨c, t, rfl⟩ := List.exists_cons_of_ne_nil hne
  have hleft : (List.replicate i (ch ' ') ++ (c :: t) ++ List.replicate j (ch ' ')).dropWhile (· == ch ' ') =
      c :: t ++ List.replicate j (ch ' ') := by
    rw [List.append_assoc, List.dropWhile_append_of_pos (by simp), List.cons_append,
      List.dropWhile_cons_of_neg (by simpa using h c List.mem_cons_self)]
  have hright : (List.replicate j (ch ' ') ++ (c :: t).reverse).dropWhile (· == ch ' ') =
      (c :: t).reverse := by
    rw [List.dropWhile_append_of_pos (by simp)]
    have hr : (c :: t).reverse ≠ [] := by simp
    obtain ⟨d, u, hd⟩ := List.exists_cons_of_ne_nil hr
    have hmem : d ∈ c :: t := List.mem_reverse.mp (hd ▸ List.mem_cons_self)
    rw [hd, List.dropWhile_cons_of_neg (by simpa using h d hmem)]
  rw [strip, hleft, List.rdropWhile, List.reverse_append, List.reverse_replicate, hright,
    List.reverse_reverse]

theorem strip_eq {c d : Byte} (hc : c ≠ ch ' ') (hd : d ≠ ch ' ') (l : List Byte) :
    strip (c :: l ++ [d]) = c :: l ++ [d] := by
  rw [strip, List.cons_append, List.dropWhile_cons_of_neg (by simpa using hc), ← List.cons_append,
    List.rdropWhile_concat_neg _ _ _ (by simpa using hd)]

end Strip

section ReadAs

variable {base : Nat} {sign : List Byte} {ds : List Nat}

theorem digitChar_inj : ∀ d, d < 16 → ∀ e, e < 16 → digitChar d = digitChar e → d = e := by
  decide

theorem map_digitChar_inj {es : List Nat} (hd : ∀ d ∈ ds, d < 16) (he : ∀ e ∈ es, e < 16)
    (h : ds.map digitChar = es.map digitChar) : ds = es := by
  induction ds generalizing es with
  | nil => exact (List.map_eq_nil_iff.mp h.symm).symm
  | cons d ds ih =>
    cases es with
    | nil => cases h
    | cons e es =>
      rw [List.map_cons, List.map_cons] at h
      obtain ⟨h1, h2⟩ := List.cons.inj h
      rw [digitChar_inj d (hd d List.mem_cons_self) e (he e List.mem_cons_self) h1,
        ih (fun x hx => hd x (List.mem_cons_of_mem d hx)) (fun x hx => he x (List.mem_cons_of_mem e hx)) h2]

/-- No digit is a sign, so a text has one sign and one list of digits. -/
theorem sign_digits_inj {sign' : List Byte} {es : List Nat} (hs : sign ∈ signs) (hs' : sign' ∈ signs)
    (hds : ds ≠ []) (hes : es ≠ []) (hd : ∀ d ∈ ds, d < 16) (he : ∀ e ∈ es, e < 16)
    (h : sign ++ ds.map digitChar = sign' ++ es.map digitChar) : sign = sign' ∧ ds = es := by
  obtain ⟨d, ds, rfl⟩ := List.exists_cons_of_ne_nil hds
  obtain ⟨e, es, rfl⟩ := List.exists_cons_of_ne_nil hes
  have hdf := digitChar_facts d (hd d List.mem_cons_self)
  have hef := digitChar_facts e (he e List.mem_cons_self)
  have hsign : sign = sign' := by
    rcases List.mem_cons.mp hs with rfl | hs <;> rcases List.mem_cons.mp hs' with rfl | hs'
    · rfl
    · rcases List.mem_pair.mp hs' with rfl | rfl
      · exact absurd (List.cons.inj h).1 hdf.2.2.2.1
      · exact absurd (List.cons.inj h).1 hdf.2.2.2.2.1
    · rcases List.mem_pair.mp hs with rfl | rfl
      · exact absurd (List.cons.inj h).1.symm hef.2.2.2.1
      · exact absurd (List.cons.inj h).1.symm hef.2.2.2.2.1
    · rcases List.mem_pair.mp hs with rfl | rfl <;> rcases List.mem_pair.mp hs' with rfl | rfl
      · rfl
      · exact absurd (List.cons.inj h).1 (by decide)
      · exact absurd (List.cons.inj h).1 (by decide)
      · rfl
  subst hsign
  exact ⟨rfl, map_digitChar_inj hd he (List.append_cancel_left h)⟩

theorem readAs_iff (hb : base ≤ 16) (hs : sign ∈ signs) (hne : ds ≠ []) (hd : ∀ d ∈ ds, d < base) (v : Int) :
    ReadAs base (sign ++ ds.map digitChar) v ↔ signed sign (horner base 0 ds) = v := by
  constructor
  · rintro ⟨sign', es, hs', hes, he, heq, hv⟩
    obtain ⟨rfl, rfl⟩ := sign_digits_inj hs hs' hne hes (fun d h => Nat.lt_of_lt_of_le (hd d h) hb)
      (fun e h => Nat.lt_of_lt_of_le (he e h) hb) heq
    exact hv
  · exact fun hv => ⟨sign, ds, hs, hne, hd, rfl, hv⟩

theorem horner_append_zeros (ds : List Nat) (k : Nat) :
    horner base 0 (ds ++ List.replicate k 0) = horner base 0 ds * base ^ k := by
  induction k with
  | zero => rw [List.replicate_zero, List.append_nil, Nat.pow_zero, Nat.mul_one]
  | succ k ih =>
    rw [List.replicate_succ', ← List.append_assoc, horner_append, ih, horner_cons, horner_nil, Nat.add_zero,
      Nat.pow_succ, Nat.mul_assoc]

end ReadAs

/-! ## The field -/

section Field

variable {base : Nat} {value : BitVec 64} {p q : Bool}

/-- The sign character. A space is none. -/
def signOf (value : BitVec 64) (plusSign : Bool) : List Byte :=
  if value.slt 0 then [ch '-'] else if plusSign then [ch '+'] else []

theorem signOf_mem (value : BitVec 64) (p : Bool) : signOf value p ∈ signs := by
  unfold signOf
  split
  · decide
  · split <;> decide

theorem signText_eq (value : BitVec 64) (p q : Bool) : ∃ i, signText value p q =
    List.replicate i (ch ' ') ++ signOf value p := by
  unfold signText signOf
  split
  · exact ⟨0, rfl⟩
  · split
    · exact ⟨0, rfl⟩
    · split
      · exact ⟨1, rfl⟩
      · exact ⟨0, rfl⟩

theorem signed_magnitude (h : -2 ^ 63 < value.toInt) (p : Bool) :
    signed (signOf value p) (magnitude value).toNat = value.toInt := by
  have hlt := value.isLt
  have hint := BitVec.toInt_eq_toNat_cond value
  have hcast : ((2 ^ 64 : Nat) : Int) = 2 ^ 64 := by norm_num
  rw [hcast] at hint
  unfold signOf magnitude signed
  by_cases hneg : value.slt 0 = true
  · have h0 : value.toInt < 0 := by
      simpa [BitVec.slt_eq_decide] using hneg
    rw [if_pos hneg, if_pos rfl, if_pos hneg, BitVec.toNat_neg]
    split at hint <;> omega
  · have h0 : 0 ≤ value.toInt := by
      simpa [BitVec.slt_eq_decide] using hneg
    rw [if_neg hneg, if_neg hneg, if_neg (by split <;> decide)]
    split at hint <;> omega

theorem magnitude_eq_zero (h : -2 ^ 63 < value.toInt) : (magnitude value).toNat = 0 ↔ value = 0 := by
  have hv := signed_magnitude h false
  constructor
  · intro h0
    rw [h0, signed] at hv
    apply BitVec.eq_of_toInt_eq
    rw [← hv]
    split <;> rfl
  · rintro rfl
    rfl

/-- The sign, the digits, no space. -/
theorem digits_ne_space (hb : base ≤ 16) {sign : List Byte} (hs : sign ∈ signs) {ds : List Nat}
    (hd : ∀ d ∈ ds, d < base) : ∀ c ∈ sign ++ ds.map digitChar, c ≠ ch ' ' := by
  intro c hc
  rcases List.mem_append.mp hc with hc | hc
  · rcases List.mem_cons.mp hs with rfl | hs
    · exact absurd hc List.not_mem_nil
    · rcases List.mem_pair.mp hs with rfl | rfl <;> exact (List.mem_singleton.mp hc) ▸ by decide
  · obtain ⟨d, hmem, rfl⟩ := List.mem_map.mp hc
    have hf := (digitChar_facts d (Nat.lt_of_lt_of_le (hd d hmem) hb)).2.1
    intro he
    rw [he] at hf
    exact absurd hf (by decide)

/-- A field of spaces, a sign, digits and spaces is read as the sign and the digits. -/
theorem readAs_strip (hb : base ≤ 16) {sign : List Byte} (hs : sign ∈ signs) {ds : List Nat} (hne : ds ≠ [])
    (hd : ∀ d ∈ ds, d < base) (i j : Nat) (v : Int) :
    ReadAs base (strip (List.replicate i (ch ' ') ++ (sign ++ ds.map digitChar) ++
      List.replicate j (ch ' '))) v ↔ signed sign (horner base 0 ds) = v := by
  rw [strip_spaces i j (digits_ne_space hb hs hd) (by simp [hne]), readAs_iff hb hs hne hd]

theorem not_readAs_zeros (hb : 1 < base) (hb16 : base ≤ 16) {k : Nat} (hk : 0 < k) (value : BitVec 64)
    (hs : signText value p q ≠ []) (v : Int) :
    ¬ReadAs base (strip (List.replicate k (ch '0') ++ unpadded base value p q)) v := by
  obtain ⟨k, rfl⟩ := Nat.exists_eq_succ_of_ne_zero hk.ne'
  obtain ⟨c, t, hc⟩ := List.exists_cons_of_ne_nil hs
  have hsigns : c = ch '-' ∨ c = ch '+' ∨ c = ch ' ' := by
    have hmem : c ∈ signText value p q := hc ▸ List.mem_cons_self
    unfold signText at hmem
    split at hmem
    · exact .inl (List.mem_singleton.mp hmem)
    · split at hmem
      · exact .inr (.inl (List.mem_singleton.mp hmem))
      · split at hmem
        · exact .inr (.inr (List.mem_singleton.mp hmem))
        · exact absurd hmem List.not_mem_nil
  -- the text starts with a zero and ends with a digit, so nothing is dropped
  obtain ⟨l, d, hd, htext⟩ : ∃ l d, d < 16 ∧ List.replicate (k + 1) (ch '0') ++ unpadded base value p q =
      ch '0' :: l ++ [digitChar d] ∧ c ∈ ch '0' :: l ++ [digitChar d] := by
    have hlast := digitsText_eq hb (magnitude value).toNat
    refine ⟨List.replicate k (ch '0') ++ signText value p q ++
      (if (magnitude value).toNat / base = 0 then [] else digitsText base ((magnitude value).toNat / base)),
      (magnitude value).toNat % base, Nat.lt_of_lt_of_le (Nat.mod_lt _ (by omega)) hb16, ?_, ?_⟩
    · rw [unpadded, hlast, List.replicate_succ]
      simp only [List.cons_append, List.append_assoc]
    · rw [hc]
      simp
  have hdf := digitChar_facts d hd
  have hdspace : digitChar d ≠ ch ' ' := by
    intro he
    have hf := hdf.2.1
    rw [he] at hf
    exact absurd hf (by decide)
  rw [htext.1, strip_eq (by decide) hdspace]
  rintro ⟨sign, ds, hsign, -, hds, heq, -⟩
  have hmem : c ∈ sign ++ ds.map digitChar := heq ▸ htext.2
  -- the first character is a zero, so there is no sign, and `c` is no digit
  have hnil : sign = [] := by
    rcases List.mem_cons.mp hsign with rfl | hsign
    · rfl
    · rcases List.mem_pair.mp hsign with rfl | rfl
      · exact absurd (List.cons.inj heq).1 (by decide)
      · exact absurd (List.cons.inj heq).1 (by decide)
  rw [hnil, List.nil_append] at hmem
  obtain ⟨e, he, rfl⟩ := List.mem_map.mp hmem
  have hef := digitChar_facts e (Nat.lt_of_lt_of_le (hds e he) hb16)
  rcases hsigns with h | h | h
  · exact hef.2.2.2.1 h
  · exact hef.2.2.2.2.1 h
  · have hf := hef.2.1
    rw [h] at hf
    exact absurd hf (by decide)

theorem signed_mul_pow_iff (hb : 1 < base) {k : Nat} (hk : 0 < k) {sign : List Byte} {n : Nat} :
    signed sign (n * base ^ k) = signed sign n ↔ n = 0 := by
  have hpow : 1 < base ^ k := Nat.one_lt_pow hk.ne' hb
  have hmul : n * base ^ k = n ↔ n = 0 := by
    constructor
    · intro h
      by_contra hn
      have hlt := Nat.mul_lt_mul_of_pos_left hpow (Nat.pos_of_ne_zero hn)
      omega
    · rintro rfl
      exact Nat.zero_mul _
  rw [← hmul]
  unfold signed
  split <;> omega

/-- Where the fill leaves the number alone: spaces, none, zeros after a 0, or zeros before digits
without a sign. -/
def FillsSafely (base : Nat) (value : BitVec 64) (p q justify zeroPad : Bool) (width : Int) : Prop :=
  zeroPad = false ∨ width ≤ (unpadded base value p q).length ∨
    if justify then value = 0 else signText value p q = []

theorem readAs_padded_iff (hb : 1 < base) (hb16 : base ≤ 16) (h : -2 ^ 63 < value.toInt)
    (p q justify zeroPad : Bool) (width : Int) :
    ReadAs base (strip (padded (unpadded base value p q) width justify zeroPad)) value.toInt ↔
      FillsSafely base value p q justify zeroPad width := by
  have hv := signed_magnitude h p
  have hs := signOf_mem value p
  have hnd : ∀ d ∈ numeral base (magnitude value).toNat, d < base := numeral_lt hb
  have hne : numeral base (magnitude value).toNat ≠ [] := numeral_ne_nil hb
  have hval : horner base 0 (numeral base (magnitude value).toNat) = (magnitude value).toNat :=
    horner_numeral hb
  obtain ⟨i, hi⟩ := signText_eq value p q
  have hun : unpadded base value p q = List.replicate i (ch ' ') ++
      (signOf value p ++ (numeral base (magnitude value).toNat).map digitChar) := by
    rw [unpadded, hi, List.append_assoc]
    rfl
  obtain ⟨k, hk⟩ : ∃ k, k = (width - (unpadded base value p q).length).toNat := ⟨_, rfl⟩
  have hzeros : ∀ d ∈ List.replicate k 0, d < base := fun d hd => (List.eq_of_mem_replicate hd) ▸ by omega
  have hzmap : (List.replicate k 0).map digitChar = List.replicate k (ch '0') := by
    rw [List.map_replicate]
    rfl
  have hspaces : ∀ j,
      ReadAs base (strip (unpadded base value p q ++ List.replicate j (ch ' '))) value.toInt := by
    intro j
    rw [hun, readAs_strip hb16 hs hne hnd, hval]
    exact hv
  simp only [padded, ← hk]
  unfold FillsSafely
  cases zeroPad with
  | false =>
    refine iff_of_true ?_ (.inl rfl)
    cases justify with
    | false =>
      rw [if_neg Bool.false_ne_true, if_neg Bool.false_ne_true, hun, ← List.append_assoc,
        List.replicate_append_replicate]
      have hr := (readAs_strip (i := k + i) (j := 0) hb16 hs hne hnd value.toInt).mpr (by rw [hval]; exact hv)
      rwa [List.replicate_zero, List.append_nil] at hr
    | true => exact hspaces k
  | true =>
    rw [if_pos rfl]
    by_cases hk0 : k = 0
    · refine iff_of_true ?_ (.inr (.inl (by omega)))
      have hr := hspaces 0
      rw [hk0, List.replicate_zero, List.append_nil, List.nil_append, ite_self]
      rwa [List.replicate_zero, List.append_nil] at hr
    · have hwide : ¬width ≤ (unpadded base value p q).length := by omega
      rw [or_iff_right Bool.noConfusion, or_iff_right hwide]
      cases justify with
      | true =>
        rw [if_pos rfl, if_pos rfl, hun, List.append_assoc, List.append_assoc, ← hzmap, ← List.map_append]
        have hr := readAs_strip (i := i) (j := 0) hb16 hs
          (show numeral base (magnitude value).toNat ++ List.replicate k 0 ≠ [] by simp [hne])
          (List.forall_mem_append.mpr ⟨hnd, hzeros⟩) value.toInt
        rw [List.replicate_zero, List.append_nil] at hr
        rw [hr, horner_append_zeros, hval, ← magnitude_eq_zero h, ← hv]
        exact signed_mul_pow_iff hb (by omega)
      | false =>
        rw [if_neg Bool.false_ne_true, if_neg Bool.false_ne_true]
        by_cases hsig : signText value p q = []
        · refine iff_of_true ?_ hsig
          have hsign : signOf value p = [] := by
            rw [hsig] at hi
            exact (List.append_eq_nil_iff.mp hi.symm).2
          rw [hsign] at hv
          have hr := (readAs_strip (i := 0) (j := 0) hb16 (show [] ∈ signs by decide)
            (show List.replicate k 0 ++ numeral base (magnitude value).toNat ≠ [] by simp [hne])
            (List.forall_mem_append.mpr ⟨hzeros, hnd⟩) value.toInt).mpr (by rw [horner_zeros, hval]; exact hv)
          rw [List.replicate_zero, List.append_nil, List.nil_append, List.nil_append, List.map_append,
            hzmap] at hr
          rwa [unpadded, hsig, List.nil_append]
        · exact iff_of_false (not_readAs_zeros hb hb16 (by omega) value hsig _) hsig

end Field

/-- **Padding.** For 32-bit values, signed or not, the string is as long as it is to be, and denotes
the value exactly if the fill leaves it alone. -/
theorem padding_preserves_iff {W : Nat} (hW : 32 ≤ W) {value : BitVec 64}
    (hv : -2 ^ 31 ≤ value.toInt ∧ value.toInt < 2 ^ 32) {base : BitVec 32} (hbase : base ∈ [8, 10, 16])
    (b : CStr) (p q justify zeroPad : Bool) {width : Nat} (hw : width ≤ 255) :
    (∃ s text, int_str W value b base p q width justify zeroPad = some s ∧ IsText s text ∧
        text.length = max width (unpadded base.toNat value p q).length ∧
        ReadAs base.toNat (strip text) value.toInt) ↔
      FillsSafely base.toNat value p q justify zeroPad width := by
  have hb : 1 < base.toNat ∧ base.toNat ≤ 16 := by
    fin_cases hbase <;> decide
  have hmag : (magnitude value).toNat < 2 ^ 32 := by
    have hs := signed_magnitude (show -2 ^ 63 < value.toInt by omega) false
    unfold signed at hs
    split at hs <;> omega
  obtain ⟨s, hs, ht⟩ := int_str_written hW hb.1 hb.2 hmag b p q justify zeroPad
    (show -2 ^ 30 ≤ (width : Int) ∧ (width : Int) ≤ 255 by omega)
  have hlen := padded_length (unpadded base.toNat value p q) width justify zeroPad
  rw [← readAs_padded_iff hb.1 hb.2 (by omega) p q justify zeroPad width]
  constructor
  · rintro ⟨s', text, hs', ht', -, hr⟩
    cases hs.symm.trans hs'
    rwa [ht'.unique ht] at hr
  · exact fun hr => ⟨s, _, hs, ht, by omega, hr⟩

theorem padding_preserves_iff_nine :
    (∃ s text, int_str 32 42 (fun _ => 0) 10 false false (9 : Nat) false true = some s ∧ IsText s text ∧
        text.length = max 9 (unpadded (10 : BitVec 32).toNat 42 false false).length ∧
        ReadAs (10 : BitVec 32).toNat (strip text) (42 : BitVec 64).toInt) ↔
      FillsSafely (10 : BitVec 32).toNat 42 false false false true (9 : Nat) :=
  padding_preserves_iff (by decide) (by decide) (by decide) _ _ _ _ _ (by decide)

/-- `%05d` of -5. -/
theorem padding_preserves_not : ¬∃ s text,
    int_str 32 (-5) (fun _ => 0) 10 false false (5 : Nat) false true = some s ∧ IsText s text ∧
      text.length = max 5 (unpadded (10 : BitVec 32).toNat (-5) false false).length ∧
      ReadAs (10 : BitVec 32).toNat (strip text) (-5 : BitVec 64).toInt := by
  rintro ⟨s, text, hs, ht, -, hr⟩
  obtain ⟨s', hs', ht'⟩ := int_str_written (W := 32) (by decide) (show 1 < (10 : BitVec 32).toNat by decide)
    (by decide) (show (magnitude (-5)).toNat < 2 ^ 32 by decide) (fun _ => 0) false false false true
    (show -2 ^ 30 ≤ ((5 : Nat) : Int) ∧ ((5 : Nat) : Int) ≤ 255 by decide)
  cases hs.symm.trans hs'
  rw [ht.unique ht'] at hr
  exact not_readAs_zeros (k := 3) (by decide) (by decide) (by decide) (-5) (by decide) _ hr

end Osdev2.Libk
