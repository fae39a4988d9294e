import Osdev2.Libk.Strtoul

/-!
# The subject of `strtoul`

`strtoul_value`: a numeral in front of which stand blanks and a sign gives its value,
or the largest number, and the offset behind it.

`Form` is what C takes for a number: blanks, a sign, `0x` where the base allows it and
a hexadecimal digit follows, digits. `strtoul_subject_iff`: the longest such prefix is
what `strtoul` reads exactly if there is no `0x` without a digit behind it, for which
it reads nothing.
-/

namespace Osdev2.Libk

open Osdev2.Lib

/-! ## The value -/

section Value

variable {W base : Nat} {s : CStr} {ws sg cs rest : List Byte} {neg : Bool} {ds : List Nat}

theorem signedValue_eq (W : Nat) (neg : Bool) (v : Nat) : signedValue W neg v =
    if 2 ^ W - 1 < v then 2 ^ W - 1 else if neg then (2 ^ W - v) % 2 ^ W else v := by
  have hpos := Nat.two_pow_pos W
  exact if_congr (by omega) rfl rfl

/-- **The value of a numeral.** -/
theorem strtoul_value (hb : 2 ≤ base) (hws : ∀ c ∈ ws, isBlank c = true) (hsg : Sign sg neg)
    (hcs : Numeral base cs ds) (hne : cs ≠ [])
    (hrest : ∀ c ∈ rest.head?, ∀ d, Denotes c d → base ≤ d)
    (h0x : base = 16 → ∀ x l, cs ++ rest = ch '0' :: x :: l → x ≠ ch 'x' ∧ x ≠ ch 'X')
    (hs : IsText s (ws ++ (sg ++ (cs ++ rest)))) (hlen : (ws ++ (sg ++ (cs ++ rest))).length < 2 ^ W) :
    strtoul W s base = some (if 2 ^ W - 1 < horner base 0 ds then 2 ^ W - 1
        else if neg then (2 ^ W - horner base 0 ds) % 2 ^ W else horner base 0 ds,
      ws.length + sg.length + cs.length) ∧
    Exact.strtoul W s base = some (strtoul W s base) := by
  have hno : ¬HasPrefix base (cs ++ rest) := by
    rintro ⟨hbase, h0, hx⟩
    have h16 : base = 16 := by omega
    cases cs with
    | nil => exact hne rfl
    | cons c cs =>
      obtain ⟨l, hl⟩ : ∃ l, l = cs ++ rest := ⟨_, rfl⟩
      rw [List.cons_append, ← hl] at h0 hx h0x
      cases l with
      | nil =>
        have h1 : ([c] : List Byte).getD 1 0 = 0 := rfl
        rw [h1] at hx
        exact absurd hx (by decide)
      | cons x l =>
        obtain ⟨h1, h2⟩ := h0x h16 x l (congrArg (· :: x :: l) h0)
        exact hx.elim h1 h2
  refine ⟨?_, Exact.strtoul_eq W base s⟩
  rw [strtoul_eq hs hlen base, parsed_value (by omega) hws hsg hcs hne hrest hno, signedValue_eq]

theorem strtoul_value_minus_twelve :
    strtoul 32 (strOf [ch ' ', ch '-', ch '1', ch '2', ch ';']) 10 = some (4294967284, 4) ∧
      Exact.strtoul 32 (strOf [ch ' ', ch '-', ch '1', ch '2', ch ';']) 10 =
        some (strtoul 32 (strOf [ch ' ', ch '-', ch '1', ch '2', ch ';']) 10) :=
  strtoul_value (by decide) (show ∀ c ∈ [ch ' '], isBlank c = true by decide) Sign.minus
    (.cons (by decide) (.cons (by decide) .nil) : Numeral 10 [ch '1', ch '2'] [1, 2]) (by decide)
    (show ∀ c ∈ [ch ';'].head?, ∀ d, Denotes c d → 10 ≤ d by
      rintro c hc d hd
      obtain rfl : ch ';' = c := Option.some.inj hc
      unfold Denotes at hd
      have hval : (ch ';').toNat = 59 := by decide
      omega)
    (fun h => absurd h (by decide)) (isText_strOf (by decide)) (by decide)

end Value

/-! ## The longest prefix -/

/-- A number without blanks and sign, its base and its digits. -/
inductive Subject (base : Nat) : List Byte → Nat → List Nat → Prop
  | plain {b : Nat} {cs : List Byte} {ds : List Nat} (hb : b = if base = 0 then
      if cs.getD 0 0 = ch '0' then 8 else 10 else base) (hcs : Numeral b cs ds) (hne : cs ≠ []) :
      Subject base cs b ds
  | prefixed {x : Byte} {cs : List Byte} {ds : List Nat} (hbase : base = 0 ∨ base = 16)
      (hx : x = ch 'x' ∨ x = ch 'X') (hcs : Numeral 16 cs ds) (hne : cs ≠ []) :
      Subject base (ch '0' :: x :: cs) 16 ds

/-- A number with the blanks and the sign in front of it. -/
def Form (base : Nat) (p : List Byte) (neg : Bool) (b : Nat) (ds : List Nat) : Prop :=
  ∃ ws sg q, p = ws ++ (sg ++ q) ∧ (∀ c ∈ ws, isBlank c = true) ∧ Sign sg neg ∧ Subject base q b ds

/-- `r` is the value and the length of the longest number that the text begins with; 0 if it begins
with none. -/
def ReadsLongest (W base : Nat) (text : List Byte) (r : Nat × Nat) : Prop :=
  (∃ p neg b ds, Form base p neg b ds ∧ p <+: text ∧
      (∀ p' neg' b' ds', Form base p' neg' b' ds' → p' <+: text → p'.length ≤ p.length) ∧
      r = (signedValue W neg (horner b 0 ds), p.length)) ∨
    (∀ p neg b ds, Form base p neg b ds → ¬p <+: text) ∧ r = (0, 0)

/-- Behind blanks and sign stands `0x` without a hexadecimal digit. -/
def Dangling (text : List Byte) : Prop :=
  ∃ ws sg neg x rest, text = ws ++ (sg ++ ch '0' :: x :: rest) ∧ (∀ c ∈ ws, isBlank c = true) ∧
    Sign sg neg ∧ (x = ch 'x' ∨ x = ch 'X') ∧ ∀ c ∈ rest.head?, ∀ d, Denotes c d → 16 ≤ d

section Longest

variable {W base b b' : Nat} {s : CStr} {text p q body : List Byte} {neg : Bool} {ds : List Nat}

theorem Subject.head (h : Subject base q b ds) : ∃ c l d, q = c :: l ∧ Denotes c d := by
  cases h with
  | plain hb hcs hne =>
    cases hcs with
    | nil => exact absurd rfl hne
    | cons hcd _ => exact ⟨_, _, _, rfl, hcd.1⟩
  | prefixed hbase hx hcs hne => exact ⟨_, _, _, rfl, denotes_zero⟩

theorem Form.behind (h : Form base p neg b ds) (hp : p <+: text) :
    ∃ q, Subject base q b ds ∧ q <+: (afterBlanks text).2 ∧ (afterBlanks text).1 = neg ∧
      p.length + (afterBlanks text).2.length = text.length + q.length := by
  obtain ⟨ws, sg, q, rfl, hws, hsg, hq⟩ := h
  obtain ⟨rest, rfl⟩ := hp
  obtain ⟨c, l, d, rfl, hc⟩ := hq.head
  have hafter : afterBlanks (ws ++ (sg ++ c :: l) ++ rest) = (neg, c :: (l ++ rest)) := by
    rw [List.append_assoc, List.append_assoc]
    exact afterBlanks_append hws hsg hc
  rw [hafter]
  refine ⟨c :: l, hq, ⟨rest, rfl⟩, rfl, ?_⟩
  simp only [List.length_append, List.length_cons]
  omega

theorem afterBlanks_split (text : List Byte) : ∃ ws sg, text = ws ++ (sg ++ (afterBlanks text).2) ∧
    (∀ c ∈ ws, isBlank c = true) ∧ Sign sg (afterBlanks text).1 := by
  have hsign : ∀ l, ∃ sg, l = sg ++ (afterSign l).2 ∧ Sign sg (afterSign l).1 := by
    intro l
    cases l with
    | nil => exact ⟨[], rfl, .none⟩
    | cons c l =>
      rw [afterSign]
      split
      · rename_i hc
        exact ⟨[c], rfl, hc ▸ .minus⟩
      · split
        · rename_i hc
          exact ⟨[c], rfl, hc ▸ .plus⟩
        · exact ⟨[], rfl, .none⟩
  obtain ⟨sg, hl, hsg⟩ := hsign (text.dropWhile isBlank)
  refine ⟨text.takeWhile isBlank, sg, ?_, fun c hc => List.mem_takeWhile_imp hc, hsg⟩
  exact (List.takeWhile_append_dropWhile (p := isBlank)).symm.trans (congrArg _ hl)

/-- What the code reads is a number. -/
theorem subject_read {k : Nat} (hr : radixOf base body = (k, b)) (hds : digitPrefix b (body.drop k) = ds)
    (hne : ds ≠ []) : Subject base (body.take (k + ds.length)) b ds := by
  have hnum : Numeral b ((body.drop k).take ds.length) ds := hds ▸ (numeral_digitPrefix b (body.drop k)).1
  have hcs : (body.drop k).take ds.length ≠ [] := fun h =>
    hne (List.forall₂_nil_left_iff.mp (h ▸ hnum))
  by_cases hp : HasPrefix base body
  · obtain ⟨x, l, rfl, hx⟩ := hp.cons
    obtain ⟨rfl, rfl⟩ : k = 2 ∧ b = 16 := Prod.mk.inj (hr.symm.trans (if_pos hp))
    rw [List.take_add]
    exact .prefixed hp.1 hx hnum hcs
  · rw [radixOf, if_neg hp] at hr
    obtain ⟨rfl, rfl⟩ := Prod.mk.inj hr
    rw [Nat.zero_add]
    refine .plain ?_ hnum hcs
    have hlen : 0 < ds.length := List.length_pos_of_ne_nil hne
    rw [getD_take body 0 hlen]

theorem digitPrefix_x {x : Byte} {l : List Byte} (hx : x = ch 'x' ∨ x = ch 'X') (hb : 0 < b) (hb' : b ≤ 16) :
    digitPrefix b (ch '0' :: x :: l) = [0] := by
  have hzero : Numeral b [ch '0'] [0] := .cons ⟨denotes_zero, hb⟩ .nil
  refine digitPrefix_append hzero fun c hc d hd => ?_
  obtain rfl : x = c := Option.some.inj hc
  exact Nat.le_trans hb' (hd.x hx)

/-- Another number at the same place is no longer, if digits are read there. -/
theorem subject_le {k : Nat} (hbase : base = 0 ∨ base = 16) (hq : Subject base q b ds) (hbody : q <+: body)
    (hr : radixOf base body = (k, b')) : q.length ≤ k + (digitPrefix b' (body.drop k)).length := by
  by_cases hp : HasPrefix base body
  · obtain ⟨x, l, rfl, hx⟩ := hp.cons
    obtain ⟨rfl, rfl⟩ : k = 2 ∧ b' = 16 := Prod.mk.inj (hr.symm.trans (if_pos hp))
    cases hq with
    | prefixed _ hx' hcs hne =>
      obtain ⟨rest, hrest⟩ := hbody
      have hl : _ ++ rest = l := (List.cons.inj (List.cons.inj hrest).2).2
      have hle := hcs.length_le ⟨rest, hl⟩
      simp only [List.length_cons, List.drop_succ_cons, List.drop_zero]
      omega
    | plain hb hcs hne =>
      have hle := hcs.length_le hbody
      have hb16 : 0 < b ∧ b ≤ 16 := by
        rw [hb]
        split
        · split <;> decide
        · omega
      rw [digitPrefix_x hx hb16.1 hb16.2] at hle
      exact Nat.le_trans hle (Nat.le_trans (by decide : 1 ≤ 2) (Nat.le_add_right _ _))
  · have hno := hr
    rw [radixOf, if_neg hp] at hno
    obtain ⟨rfl, rfl⟩ := Prod.mk.inj hno
    cases hq with
    | prefixed _ hx hcs hne =>
      obtain ⟨rest, rfl⟩ := hbody
      exact absurd ⟨hbase, rfl, hx⟩ hp
    | plain hb hcs hne =>
      have hle := hcs.length_le hbody
      obtain ⟨rest, rfl⟩ := hbody
      have hget : (q ++ rest).getD 0 0 = q.getD 0 0 :=
        List.getD_append _ _ _ _ (List.length_pos_of_ne_nil hne)
      rw [hget, ← hb, List.drop_zero, Nat.zero_add]
      exact hle

/-- How far a number at the start of the text can go. -/
theorem Form.bounds {k : Nat} (hbase : base = 0 ∨ base = 16) (h : Form base p neg b ds) (hp : p <+: text)
    (hr : radixOf base (afterBlanks text).2 = (k, b')) :
    text.length < p.length + (afterBlanks text).2.length ∧
      p.length + (afterBlanks text).2.length ≤
        text.length + (k + (digitPrefix b' ((afterBlanks text).2.drop k)).length) := by
  obtain ⟨q, hq, hpre, -, hlen⟩ := h.behind hp
  obtain ⟨c, l, d, rfl, -⟩ := hq.head
  have hle := subject_le hbase hq hpre hr
  rw [List.length_cons] at hle hlen
  omega

/-- The digits that are read make the longest number. -/
theorem readsLongest_read {k : Nat} (W : Nat) (hbase : base = 0 ∨ base = 16)
    (hr : radixOf base (afterBlanks text).2 = (k, b))
    (hds : digitPrefix b ((afterBlanks text).2.drop k) = ds) (hne : ds ≠ []) :
    ReadsLongest W base text (signedValue W (afterBlanks text).1 (horner b 0 ds),
      text.length - (afterBlanks text).2.length + k + ds.length) := by
  obtain ⟨ws, sg, htext, hws, hsg⟩ := afterBlanks_split text
  have hsub := subject_read hr hds hne
  have hend : k + ds.length ≤ (afterBlanks text).2.length := by
    have hall := (numeral_digitPrefix b ((afterBlanks text).2.drop k)).1.length_eq
    have hpos : 0 < ds.length := List.length_pos_of_ne_nil hne
    rw [hds, List.length_take, List.length_drop] at hall
    omega
  have hlen : (ws ++ (sg ++ (afterBlanks text).2.take (k + ds.length))).length =
      text.length - (afterBlanks text).2.length + k + ds.length := by
    have htotal := congrArg List.length htext
    simp only [List.length_append, List.length_take] at htotal ⊢
    omega
  refine Or.inl ⟨_, _, _, _, ⟨ws, sg, _, rfl, hws, hsg, hsub⟩, ?_, ?_, congrArg _ hlen.symm⟩
  · refine ⟨(afterBlanks text).2.drop (k + ds.length), ?_⟩
    rw [List.append_assoc, List.append_assoc, List.take_append_drop, ← htext]
  · intro p neg b' ds' hf hp
    have hle := (hf.bounds hbase hp hr).2
    rw [hds] at hle
    omega

/-- Reading nothing is right unless there is a `0` in front of an `x`. -/
theorem readsLongest_nothing_iff {k : Nat} (W : Nat) (hbase : base = 0 ∨ base = 16)
    (hr : radixOf base (afterBlanks text).2 = (k, b))
    (hds : digitPrefix b ((afterBlanks text).2.drop k) = []) :
    ReadsLongest W base text (0, 0) ↔ ¬HasPrefix base (afterBlanks text).2 := by
  obtain ⟨ws, sg, htext, hws, hsg⟩ := afterBlanks_split text
  have hbl : (afterBlanks text).2.length ≤ text.length := by
    have htotal := congrArg List.length htext
    rw [List.length_append, List.length_append] at htotal
    omega
  constructor
  · intro h hp
    obtain ⟨x, l, hl, -⟩ := hp.cons
    rcases h with ⟨p, neg, b, ds, hf, hpre, -, hzero⟩ | ⟨hno, -⟩
    · have hpos := (hf.bounds hbase hpre hr).1
      have hnil : 0 = p.length := congrArg Prod.snd hzero
      omega
    · have hzero : Subject base [ch '0'] _ [0] :=
        .plain rfl (.cons ⟨denotes_zero, radix_pos base ([ch '0'].getD 0 0 = ch '0')⟩ .nil)
          (List.cons_ne_nil _ _)
      refine hno _ _ _ _ ⟨ws, sg, _, rfl, hws, hsg, hzero⟩ ⟨x :: l, ?_⟩
      rw [hl] at htext
      rw [List.append_assoc, List.append_assoc]
      exact htext.symm
  · intro hp
    have hk : k = 0 := by
      rw [radixOf, if_neg hp] at hr
      exact (Prod.mk.inj hr).1.symm
    refine Or.inr ⟨fun p neg b' ds' hf hpre => ?_, rfl⟩
    have hlt := hf.bounds hbase hpre hr
    rw [hds, hk, List.length_nil] at hlt
    omega

theorem dangling_iff (hbase : base = 0 ∨ base = 16) : Dangling text ↔
    HasPrefix base (afterBlanks text).2 ∧ digitPrefix 16 ((afterBlanks text).2.drop 2) = [] := by
  constructor
  · rintro ⟨ws, sg, neg, x, rest, rfl, hws, hsg, hx, hrest⟩
    rw [afterBlanks_append hws hsg denotes_zero]
    exact ⟨⟨hbase, rfl, hx⟩, digitPrefix_append .nil hrest⟩
  · rintro ⟨hp, hnil⟩
    obtain ⟨x, rest, hbody, hx⟩ := hp.cons
    obtain ⟨ws, sg, htext, hws, hsg⟩ := afterBlanks_split text
    rw [hbody] at htext hnil
    refine ⟨ws, sg, _, x, rest, htext, hws, hsg, hx, ?_⟩
    have hend := (numeral_digitPrefix 16 rest).2
    rw [show digitPrefix 16 rest = [] from hnil] at hend
    exact hend

theorem signedValue_zero (W : Nat) (neg : Bool) : signedValue W neg 0 = 0 := by
  rw [signedValue_fits (Nat.two_pow_pos W), Nat.sub_zero, Nat.mod_self, ite_self]

/-- **The longest number.** -/
theorem strtoul_subject_iff (hbase : base = 0 ∨ base = 16) (hs : IsText s text) (hlen : text.length < 2 ^ W) :
    ∃ r, strtoul W s base = some r ∧ (ReadsLongest W base text r ↔ ¬Dangling text) := by
  refine ⟨parsed W base text, strtoul_eq hs hlen base, ?_⟩
  rw [dangling_iff hbase, parsed]
  obtain ⟨⟨k, b⟩, hr⟩ : ∃ r, radixOf base (afterBlanks text).2 = r := ⟨_, rfl⟩
  obtain ⟨ds, hds⟩ : ∃ ds, digitPrefix b ((afterBlanks text).2.drop k) = ds := ⟨_, rfl⟩
  have hx : HasPrefix base (afterBlanks text).2 → k = 2 ∧ b = 16 := fun hp =>
    Prod.mk.inj (hr.symm.trans (if_pos hp))
  simp only [hr, hds]
  by_cases hne : ds = []
  · subst hne
    rw [if_pos rfl, horner_nil, signedValue_zero, readsLongest_nothing_iff W hbase hr hds]
    refine not_congr ⟨fun hp => ⟨hp, ?_⟩, And.left⟩
    obtain ⟨rfl, rfl⟩ := hx hp
    exact hds
  · rw [if_neg hne]
    refine iff_of_true (readsLongest_read W hbase hr hds hne) ?_
    rintro ⟨hp, hnil⟩
    obtain ⟨rfl, rfl⟩ := hx hp
    exact hne (hds.symm.trans hnil)

theorem strtoul_subject_iff_hex : ∃ r, strtoul 32 (strOf [ch '0', ch 'x', ch 'F', ch 'g']) 16 = some r ∧
    (ReadsLongest 32 16 [ch '0', ch 'x', ch 'F', ch 'g'] r ↔ ¬Dangling [ch '0', ch 'x', ch 'F', ch 'g']) :=
  strtoul_subject_iff (Or.inr rfl) (isText_strOf (by decide)) (by decide)

/-- In `0xg` the `0` is a number, and nothing is read. -/
theorem strtoul_dangling :
    Form 16 [ch '0'] false 16 [0] ∧ [ch '0'] <+: [ch '0', ch 'x', ch 'g'] ∧
      strtoul 32 (strOf [ch '0', ch 'x', ch 'g']) 16 = some (0, 0) ∧
      ¬ReadsLongest 32 16 [ch '0', ch 'x', ch 'g'] (0, 0) := by
  have hzero : Form 16 [ch '0'] false 16 [0] :=
    ⟨[], [], [ch '0'], rfl, by decide, .none, .plain rfl (.cons (by decide) .nil) (by decide)⟩
  have hpre : [ch '0'] <+: [ch '0', ch 'x', ch 'g'] := ⟨[ch 'x', ch 'g'], rfl⟩
  refine ⟨hzero, hpre, ?_, ?_⟩
  · rw [strtoul_eq (isText_strOf (by decide)) (by decide)]
    exact congrArg some (by decide)
  · rintro (⟨p, neg, b, ds, hf, -, hmax, hr⟩ | ⟨hno, -⟩)
    · have hle := hmax _ _ _ _ hzero hpre
      have hnil : 0 = p.length := congrArg Prod.snd hr
      rw [← hnil] at hle
      exact absurd hle (by decide)
    · exact hno _ _ _ _ hzero hpre

end Longest

end Osdev2.Libk
