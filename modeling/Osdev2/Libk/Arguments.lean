import Osdev2.Lib.Run
import Osdev2.Libk.Render

/-!
# The arguments of a call on the i386

A caller pushes 32-bit words: one for an `int`, a `long`, a `size_t` (a signed `long`
here) or a `ptrdiff_t`, two for a `long long` or an `intmax_t`. `Number` is a
conversion together with what is passed for it, and `OwnWords` says that `vprintf`,
where it reaches the conversion, reads these words and no others, and formats the
value that was passed.

`vprintf` has one table of types for the signed conversions and one for the unsigned
ones. `own_arguments_iff` finds the entries that do not match: the unsigned `l`, which
reads two words; the signed `t`, which loses the sign; and the unsigned 64-bit ones
from `2 ^ 63` on, since `__int_str` takes an `intmax_t`.
-/

namespace Osdev2.Libk

open Osdev2.Lib

/-! ## What a caller passes -/

/-- The bits of the type that the length stands for. -/
def Length.typeBits : Length → Nat
  | .hh => 8
  | .h => 16
  | .none | .l | .z | .t => 32
  | .ll | .j => 64

/-- The values of that type. -/
def Length.InType (signed : Bool) (length : Length) (v : Int) : Prop :=
  if signed ∨ length = .z then -2 ^ (length.typeBits - 1) ≤ v ∧ v < 2 ^ (length.typeBits - 1)
  else 0 ≤ v ∧ v < 2 ^ length.typeBits

/-- An argument as words, lowest first. -/
def wordsOf (n : Nat) (v : Int) : List Nat :=
  (List.range n).map fun j => (v / 2 ^ (32 * j) % 2 ^ 32).toNat

def Amount.stars : Amount → Nat
  | .digits _ => 0
  | .star => 1

/-- How many `*` the conversion has. -/
def Conversion.stars (c : Conversion) : Nat :=
  c.width.stars + (c.precision.map Amount.stars).getD 0

/-- A conversion `d`, `i`, `u`, `o` or `X`, the words passed for its `*`, and its argument. -/
structure Number where
  c : Conversion
  length : Length
  conv : IntConv
  kind : c.kind = .int length conv
  plain : length ≠ .hh ∧ conv ≠ .x
  stars : List Nat
  stars_length : stars.length = c.stars
  value : Int
  inType : length.InType conv.signed value

def Number.argument (x : Number) : List Nat := wordsOf (x.length.bits 32 / 32) x.value

inductive Item
  | literal (c : Byte) (h : c ≠ 0 ∧ c ≠ ch '%')
  | number (x : Number)

def Item.piece : Item → Piece
  | .literal c h => .literal c h
  | .number x => .conv x.c

def Item.words : Item → List Nat
  | .literal _ _ => []
  | .number x => x.stars ++ x.argument

/-- The format of a call, and what its arguments push. -/
def formatOfItems (items : List Item) : List Byte := formatOf (items.map Item.piece)

def wordsOfItems (items : List Item) : List Nat := items.flatMap Item.words

/-! ## What `vprintf` reads -/

/-- Where the loop stands before an item: the words of the items before it, the index, the
arguments left, the output. -/
structure Place (σ : Type) where
  pushed : Nat
  index : Nat
  va : VaList
  out : Out σ

/-- The argument that the conversion `sp` reads. -/
def argumentOf (W : Nat) (sp : Spec) (va : VaList) : Option (BitVec 64 × VaList) :=
  if sp.specifier = ch 'd' ∨ sp.specifier = ch 'i' then signedArg W sp.length va
  else unsignedArg W sp.length va

section Reads

variable {σ : Type} (K : Console σ) (format : CStr)

/-- One turn of the loop, at an index that an `int` holds. -/
def Item.step (e : Item) (s : Place σ) : Option (Place σ) :=
  if s.index + e.piece.text.length < 2 ^ 31 then
    (vprintf.turn K 32 format s.index s.va s.out).map fun r =>
      ⟨s.pushed + e.words.length, r.1, r.2.1, r.2.2⟩
  else none

/-- The conversion reads the words that were pushed for it, its own after those of its `*`, and
formats the value they stand for. -/
def Number.OwnWords (x : Number) (s : Place σ) : Prop :=
  s.va.pos = s.pushed ∧ ∃ sp j va v va',
    parseSpec 32 format (s.index + 1) s.va = some (sp, j, va) ∧
      va.pos = s.pushed + x.stars.length ∧ argumentOf 32 sp va = some (v, va') ∧
        va'.pos = va.pos + x.argument.length ∧ v.toInt = x.value

def Item.OwnWords (e : Item) (s : Place σ) : Prop :=
  match e with
  | .literal _ _ => True
  | .number x => s.index + e.piece.text.length < 2 ^ 31 → x.OwnWords format s

/-- The type `vprintf` reads is the one the length stands for. -/
def Number.Aligned (x : Number) : Prop :=
  ¬(x.length = .l ∧ x.conv.signed = false) ∧
    (x.length = .t → x.conv.signed = true → 0 ≤ x.value) ∧
      ((x.length = .ll ∨ x.length = .j) → x.conv.signed = false → x.value < 2 ^ 63)

def Item.Aligned (e : Item) (s : Place σ) : Prop :=
  match e with
  | .literal _ _ => True
  | .number x => s.index + e.piece.text.length < 2 ^ 31 → x.Aligned

end Reads

/-! ## Words and values -/

section Words

variable {va : VaList}

theorem va_arg_one (va : VaList) :
    va_arg 32 32 va = (va.words va.pos % 2 ^ 32, { va with pos := va.pos + 1 }) := by
  simp [va_arg]

theorem va_arg_two (va : VaList) : va_arg 32 64 va =
    ((va.words va.pos + 2 ^ 32 * va.words (va.pos + 1)) % 2 ^ 64, { va with pos := va.pos + 2 }) := by
  simp [va_arg, List.range_succ]

theorem Amount.take_rest (a : Amount) (va : VaList) :
    (a.take 32 va).2 = { va with pos := va.pos + a.stars } := by
  cases a with
  | digits ds => rfl
  | star => rw [Amount.take, va_arg_one]; rfl

theorem takePrecision_rest (p : Option Amount) (va : VaList) :
    (takePrecision 32 va p).2 = { va with pos := va.pos + (p.map Amount.stars).getD 0 } := by
  cases p with
  | none => rfl
  | some a => exact a.take_rest va

theorem argument_length (x : Number) : x.argument.length = x.length.bits 32 / 32 := by
  rw [Number.argument, wordsOf, List.length_map, List.length_range]

/-- Reading an argument's words gives it back, as an unsigned number of its size. -/
theorem va_arg_argument {x : Number}
    (h : ∀ j, j < x.argument.length → va.words (va.pos + j) = x.argument.getD j 0) :
    va_arg 32 (x.length.bits 32) va = ((x.value % 2 ^ x.length.bits 32).toNat,
      { va with pos := va.pos + x.argument.length }) := by
  have hone : x.length.bits 32 = 32 → va_arg 32 (x.length.bits 32) va =
      ((x.value % 2 ^ x.length.bits 32).toNat, { va with pos := va.pos + x.argument.length }) := by
    intro hb
    rw [argument_length, hb] at h ⊢
    have h0 := h 0 (by decide)
    rw [Number.argument, hb, Nat.add_zero] at h0
    rw [va_arg_one, h0]
    simp [wordsOf]
    omega
  have htwo : x.length.bits 32 = 64 → va_arg 32 (x.length.bits 32) va =
      ((x.value % 2 ^ x.length.bits 32).toNat, { va with pos := va.pos + x.argument.length }) := by
    intro hb
    rw [argument_length, hb] at h ⊢
    have h0 := h 0 (by decide)
    have h1 := h 1 (by decide)
    rw [Number.argument, hb] at h0 h1
    rw [Nat.add_zero] at h0
    rw [va_arg_two, h0, h1]
    simp [wordsOf, List.range_succ]
    omega
  cases hl : x.length <;> rw [hl] at hone htwo <;>
    first | exact hone rfl | exact htwo rfl

/-- A number of `w` bits, out of its low `b` bits. -/
theorem toInt_ofNat_emod {w b : Nat} {v : Int} (hw : 0 < w) (hwb : w ≤ b)
    (hlo : -2 ^ (w - 1) ≤ v) (hhi : v < 2 ^ (w - 1)) : (BitVec.ofNat w (v % 2 ^ b).toNat).toInt = v := by
  have hb : (0 : Int) ≤ v % 2 ^ b := Int.emod_nonneg v (by positivity)
  have hcast : ((2 ^ w : Nat) : Int) = 2 ^ w := by push_cast; rfl
  have hdvd : (2 ^ w : Int) ∣ 2 ^ b := pow_dvd_pow 2 hwb
  have hhalf : (2 ^ w : Int) = 2 * 2 ^ (w - 1) := by
    rw [← pow_succ', Nat.sub_add_cancel hw]
  rw [BitVec.toInt_ofNat', Int.toNat_of_nonneg hb, ← Int.emod_bmod, hcast, Int.emod_emod_of_dvd _ hdvd,
    ← hcast, Int.emod_bmod]
  apply Int.bmod_eq_of_le_mul_two
  · rw [hcast]
    omega
  · rw [hcast]
    omega

theorem toInt_ofNat_toNat {v : Int} (h0 : 0 ≤ v) (h64 : v < 2 ^ 64) :
    (BitVec.ofNat 64 v.toNat).toInt = v ↔ v < 2 ^ 63 := by
  rw [BitVec.toInt_eq_toNat_cond, BitVec.toNat_ofNat, Nat.mod_eq_of_lt (by omega)]
  split <;> omega

/-- The `intmax_t` made of the words is the value that was passed. -/
theorem value_iff {x : Number} (hl : ¬(x.length = .l ∧ x.conv.signed = false)) :
    (x.length.value 32 x.conv.signed (x.value % 2 ^ x.length.bits 32).toNat).toInt = x.value ↔
      x.Aligned := by
  have hin := x.inType
  have hhh := x.plain.1
  unfold Number.Aligned
  simp only [hl, not_false_iff, true_and]
  generalize x.value = v at hin ⊢
  generalize x.conv.signed = signed at hin hl ⊢
  -- a sign-extended word, and a number of fewer than 64 bits
  have hsx : ∀ w b, 0 < w → w ≤ 64 → w ≤ b → -2 ^ (w - 1) ≤ v ∧ v < 2 ^ (w - 1) →
      ((BitVec.ofNat w (v % 2 ^ b).toNat).signExtend 64).toInt = v := fun w b h0 h64 hwb hv => by
    rw [BitVec.toInt_signExtend_of_le h64, toInt_ofNat_emod h0 hwb hv.1 hv.2]
  have hzx : 0 ≤ v ∧ v < 2 ^ 32 → (BitVec.ofNat 64 (v % 2 ^ 32).toNat).toInt = v := fun hv => by
    rw [Int.emod_eq_of_lt hv.1 hv.2]
    exact (toInt_ofNat_toNat hv.1 (by omega)).mpr (by omega)
  cases hlen : x.length with
  | hh => exact absurd hlen hhh
  | none =>
    rw [hlen] at hin
    cases signed with
    | true => exact iff_of_true (hsx 32 32 (by decide) (by decide) (by decide) hin) (by simp)
    | false => exact iff_of_true (hzx hin) (by simp)
  | h =>
    rw [hlen] at hin
    cases signed with
    | true => exact iff_of_true (hsx 16 32 (by decide) (by decide) (by decide) hin) (by simp)
    | false =>
      refine iff_of_true ?_ (by simp)
      obtain ⟨h0, h16⟩ : 0 ≤ v ∧ v < 2 ^ 16 := hin
      have hset : ((BitVec.ofNat 16 (v % 2 ^ 32).toNat).setWidth 64) = BitVec.ofNat 64 v.toNat := by
        rw [Int.emod_eq_of_lt h0 (by omega)]
        apply BitVec.eq_of_toNat_eq
        rw [BitVec.toNat_setWidth, BitVec.toNat_ofNat, BitVec.toNat_ofNat, Nat.mod_eq_of_lt (by omega)]
        omega
      exact (congrArg BitVec.toInt hset).trans ((toInt_ofNat_toNat h0 (by omega)).mpr (by omega))
  | l =>
    rw [hlen] at hin
    cases signed with
    | true => exact iff_of_true (hsx 32 32 (by decide) (by decide) (by decide) hin) (by simp)
    | false => exact absurd ⟨hlen, rfl⟩ hl
  | ll | j =>
    rw [hlen] at hin
    cases signed with
    | true =>
      exact iff_of_true (toInt_ofNat_emod (w := 64) (by decide) (Nat.le_refl 64) hin.1 hin.2) (by simp)
    | false =>
      obtain ⟨h0, h64⟩ : 0 ≤ v ∧ v < 2 ^ 64 := hin
      have hmod : v % 2 ^ 64 = v := Int.emod_eq_of_lt h0 h64
      change (BitVec.ofNat 64 (v % 2 ^ 64).toNat).toInt = v ↔ _
      rw [hmod, toInt_ofNat_toNat h0 h64]
      simp
  | z =>
    rw [hlen] at hin
    have hv : -2 ^ 31 ≤ v ∧ v < 2 ^ 31 := by simpa [Length.InType, Length.typeBits] using hin
    exact iff_of_true (hsx 32 32 (by decide) (by decide) (by decide) hv) (by simp)
  | t =>
    rw [hlen] at hin
    have hword : (Length.t.value 32 signed (v % 2 ^ Length.t.bits 32).toNat).toInt = v % 2 ^ 32 := by
      have h0 : 0 ≤ v % 2 ^ 32 := Int.emod_nonneg v (by decide)
      have h1 : v % 2 ^ 32 < 2 ^ 32 := Int.emod_lt_of_pos v (by decide)
      have hlow : (v % 2 ^ 32).toNat % 2 ^ 32 = (v % 2 ^ 32).toNat := Nat.mod_eq_of_lt (by omega)
      rw [Length.value, show Length.t.bits 32 = 32 from rfl, hlow]
      exact (toInt_ofNat_toNat h0 (by omega)).mpr (by omega)
    rw [hword]
    cases signed with
    | true =>
      obtain ⟨hlo, hhi⟩ : -2 ^ 31 ≤ v ∧ v < 2 ^ 31 := hin
      simp only [true_imp_iff, reduceCtorEq, or_self, false_imp_iff, and_true]
      omega
    | false =>
      obtain ⟨hlo, hhi⟩ : 0 ≤ v ∧ v < 2 ^ 32 := hin
      exact iff_of_true (Int.emod_eq_of_lt hlo hhi) (by simp)

end Words

/-! ## One conversion -/

section Step

variable {σ : Type} {K : Console σ} {format : CStr} {items : List Item} {s s' : Place σ} {x : Number}
  {w p : BitVec 32}

theorem signed_iff_char (conv : IntConv) :
    conv.char = ch 'd' ∨ conv.char = ch 'i' ↔ conv.signed = true := by
  cases conv <;> decide

theorem Number.parse (x : Number) {i : Nat} {va : VaList}
    (h : ReadsAt format i (x.c.middle ++ [x.c.kind.specifier])) (hlen : x.c.middle.length < 2 ^ 32) :
    ∃ w p, parseSpec 32 format i va = some (x.c.spec w p x.conv.char, i + x.c.middle.length,
      { va with pos := va.pos + x.stars.length }) := by
  have hparse := parseSpec_conversion (W := 32) h hlen va
  have hhh : x.c.kind.length ≠ .hh := by
    rw [x.kind]
    exact x.plain.1
  have hspec : format (i + x.c.middle.length) = x.conv.char := by
    rw [(readsAt_cons.mp (readsAt_append.mp h).2).1, x.kind]
    rfl
  simp only [if_neg hhh, hspec, takePrecision_rest, Amount.take_rest] at hparse
  exact ⟨_, _, by rw [hparse, x.stars_length, Conversion.stars, Nat.add_assoc]⟩

theorem argumentOf_spec (x : Number) (w p : BitVec 32) (va : VaList) :
    argumentOf 32 (x.c.spec w p x.conv.char) va =
      if x.conv.signed then signedArg 32 x.length.code va else unsignedArg 32 x.length.code va := by
  have hlen : (x.c.spec w p x.conv.char).length = x.length.code := by
    rw [show (x.c.spec w p x.conv.char).length = x.c.kind.length.code from rfl, x.kind]
    rfl
  rw [argumentOf, hlen]
  exact if_congr (signed_iff_char x.conv) rfl rfl

theorem argumentOf_eq {va : VaList} (hl : ¬(x.length = .l ∧ x.conv.signed = false))
    (h : ∀ j, j < x.argument.length → va.words (va.pos + j) = x.argument.getD j 0) :
    argumentOf 32 (x.c.spec w p x.conv.char) va =
      some (x.length.value 32 x.conv.signed (x.value % 2 ^ x.length.bits 32).toNat,
        { va with pos := va.pos + x.argument.length }) := by
  have harg := va_arg_argument h
  rw [argumentOf_spec]
  cases hs : x.conv.signed with
  | true => rw [if_pos rfl, signedArg_spec (Or.inl rfl) x.plain.1, harg]
  | false =>
    have hlong : ¬(x.length = .l ∧ 32 = 32) := fun h => hl ⟨h.1, hs⟩
    rw [if_neg Bool.false_ne_true, unsignedArg_spec (Or.inl rfl) x.plain.1 hlong, harg]

theorem argumentOf_l {va : VaList} (hl : x.length = .l ∧ x.conv.signed = false) :
    ∃ v, argumentOf 32 (x.c.spec w p x.conv.char) va = some (v, { va with pos := va.pos + 2 }) := by
  rw [argumentOf_spec, hl.1, hl.2, if_neg Bool.false_ne_true]
  exact unsignedArg_l va

theorem convert_rest {va va' : VaList} {v : BitVec 64} {o : Out σ} {r : VaList × Out σ}
    (ha : argumentOf 32 (x.c.spec w p x.conv.char) va = some (v, va'))
    (hc : convert K 32 (x.c.spec w p x.conv.char) va o = some r) : r.1 = va' := by
  have hlen : (x.c.spec w p x.conv.char).length = x.length.code := by
    rw [show (x.c.spec w p x.conv.char).length = x.c.kind.length.code from rfl, x.kind]
    rfl
  rw [argumentOf_spec] at ha
  cases hs : x.conv.signed with
  | true =>
    rw [hs, if_pos rfl] at ha
    rw [convert_signed hs rfl, hlen, ha] at hc
    obtain ⟨o', -, rfl⟩ := Option.map_eq_some_iff.mp hc
    rfl
  | false =>
    rw [hs, if_neg Bool.false_ne_true] at ha
    rw [convert_unsigned (by decide) x.kind hs, displayUnsigned, ha] at hc
    obtain ⟨o', -, rfl⟩ := Option.map_eq_some_iff.mp hc
    rfl

/-! ## The run -/

/-- The loop stands before `items`: their text and their words lie ahead. -/
structure Laid (format : CStr) (items : List Item) (s : Place σ) : Prop where
  pos : s.va.pos = s.pushed
  text : ReadsAt format s.index (formatOfItems items)
  words : ∀ j, j < (wordsOfItems items).length →
    s.va.words (s.pushed + j) = (wordsOfItems items).getD j 0

theorem Laid.head {e : Item} (h : Laid format (e :: items) s) :
    ReadsAt format s.index e.piece.text ∧
      ∀ j, j < e.words.length → s.va.words (s.pushed + j) = e.words.getD j 0 := by
  refine ⟨(readsAt_append.mp h.text).1, fun j hj => ?_⟩
  have hw := h.words j (by rw [wordsOfItems, List.flatMap_cons, List.length_append]; omega)
  rw [hw, wordsOfItems, List.flatMap_cons, List.getD_append _ _ _ _ hj]

theorem Laid.tail {e : Item} (h : Laid format (e :: items) s)
    (hpos : s'.va.pos = s.pushed + e.words.length) (hwords : s'.va.words = s.va.words)
    (hpushed : s'.pushed = s.pushed + e.words.length)
    (hindex : s'.index = s.index + e.piece.text.length) : Laid format items s' where
  pos := hpos.trans hpushed.symm
  text := by
    rw [hindex]
    exact (readsAt_append.mp h.text).2
  words j hj := by
    have hw := h.words (e.words.length + j) (by
      rw [wordsOfItems, List.flatMap_cons, List.length_append]
      exact Nat.add_lt_add_left hj _)
    rw [hwords, hpushed, Nat.add_assoc, hw, wordsOfItems, List.flatMap_cons,
      List.getD_append_right _ _ _ _ (Nat.le_add_right _ _), Nat.add_sub_cancel_left]
    rfl

theorem Laid.argument (h : Laid format (.number x :: items) s) {j : Nat} (hj : j < x.argument.length) :
    s.va.words (s.va.pos + x.stars.length + j) = x.argument.getD j 0 := by
  have hw := h.head.2 (x.stars.length + j) (by
    rw [Item.words, List.length_append]
    exact Nat.add_lt_add_left hj _)
  rw [h.pos, Nat.add_assoc, hw, Item.words, List.getD_append_right _ _ _ _ (Nat.le_add_right _ _),
    Nat.add_sub_cancel_left]

/-- The conversion, parsed. -/
theorem Laid.parse (h : Laid format (.number x :: items) s)
    (hlen : s.index + (Item.number x).piece.text.length < 2 ^ 31) :
    format s.index = ch '%' ∧ ∃ w p, parseSpec 32 format (s.index + 1) s.va =
      some (x.c.spec w p x.conv.char, s.index + 1 + x.c.middle.length,
        { s.va with pos := s.va.pos + x.stars.length }) := by
  obtain ⟨h0, h1⟩ := readsAt_cons.mp h.head.1
  have htext : (Item.number x).piece.text.length = x.c.middle.length + 2 := by
    rw [Item.piece, Piece.text, List.length_cons, List.length_append, List.length_singleton]
  exact ⟨h0, x.parse h1 (by omega)⟩

/-- **One conversion** reads its own words exactly if its type is the one passed. -/
theorem own_iff (h : Laid format (.number x :: items) s)
    (hlen : s.index + (Item.number x).piece.text.length < 2 ^ 31) :
    x.OwnWords format s ↔ x.Aligned := by
  obtain ⟨-, w, p, hparse⟩ := h.parse hlen
  have hargs := fun j (hj : j < x.argument.length) => h.argument hj
  constructor
  · rintro ⟨-, sp, j, va, v, va', hp, -, harg, hpos, hval⟩
    cases hparse.symm.trans hp
    by_cases hl : x.length = .l ∧ x.conv.signed = false
    · -- two words are read for one
      obtain ⟨v', hv⟩ := argumentOf_l (w := w) (p := p) hl
      cases hv.symm.trans harg
      rw [argument_length, hl.1] at hpos
      simp [Length.bits] at hpos
    · cases (argumentOf_eq (w := w) (p := p) hl hargs).symm.trans harg
      exact (value_iff hl).mp hval
  · intro hal
    exact ⟨h.pos, _, _, _, _, _, hparse, by rw [h.pos], argumentOf_eq hal.1 hargs, rfl,
      (value_iff hal.1).mpr hal⟩

theorem own_item_iff (e : Item) (items : List Item) (s : Place σ) (h : Laid format (e :: items) s) :
    e.OwnWords format s ↔ e.Aligned s := by
  cases e with
  | literal c hc => exact Iff.rfl
  | number x => exact imp_congr_right fun hlen => own_iff h hlen

/-- **One turn** leaves the loop before the next item, its words read. -/
theorem laid_step (e : Item) (items : List Item) (s s' : Place σ) (h : Laid format (e :: items) s)
    (hal : e.Aligned s) (hs : e.step K format s = some s') : Laid format items s' := by
  unfold Item.step at hs
  split at hs
  case isFalse => cases hs
  rename_i hlen
  obtain ⟨r, hr, rfl⟩ := Option.map_eq_some_iff.mp hs
  cases e with
  | literal c hc =>
    have h0 : format s.index = c := (readsAt_cons.mp h.head.1).1
    have hturn : vprintf.turn K 32 format s.index s.va s.out = _ := turn_lit (h0 ▸ hc.2) hlen
    cases hturn.symm.trans hr
    exact h.tail h.pos rfl rfl rfl
  | number x =>
    obtain ⟨h0, w, p, hparse⟩ := h.parse hlen
    have htext : (Item.number x).piece.text.length = x.c.middle.length + 2 := by
      rw [Item.piece, Piece.text, List.length_cons, List.length_append, List.length_singleton]
    rw [htext] at hlen
    rw [turn_conv h0 hparse (by omega)] at hr
    obtain ⟨q, hq, rfl⟩ := Option.map_eq_some_iff.mp hr
    have harg : argumentOf 32 (x.c.spec w p x.conv.char)
        { s.va with pos := s.va.pos + x.stars.length } = _ :=
      argumentOf_eq (hal (by rw [htext]; exact hlen)).1 fun j hj => h.argument hj
    have hrest := convert_rest harg hq
    refine h.tail ?_ (by rw [hrest]) rfl (by rw [htext]; dsimp only; omega)
    change q.1.pos = s.pushed + (x.stars ++ x.argument).length
    rw [hrest, List.length_append, ← Nat.add_assoc, ← h.pos]

/-- The arguments of a call, as its caller leaves them. -/
def Pushed (items : List Item) (args : Nat → Nat) : Prop :=
  ∀ j, j < (wordsOfItems items).length → args j = (wordsOfItems items).getD j 0

/-- **The arguments of `printf`.** Every conversion that is reached reads its own words, and
formats the value that was passed, exactly if every one that is reached reads the type that was
passed. -/
theorem own_arguments_iff (K : Console σ) {items : List Item} {args : Nat → Nat}
    (h : Pushed items args) (o : Out σ) :
    AtEvery (Item.step K (strOf (formatOfItems items)))
        (Item.OwnWords (strOf (formatOfItems items))) items ⟨0, 0, ⟨args, 0⟩, o⟩ ↔
      AtEvery (Item.step K (strOf (formatOfItems items))) Item.Aligned items ⟨0, 0, ⟨args, 0⟩, o⟩ := by
  refine atEvery_iff_of own_item_iff laid_step ⟨rfl, fun j _ => ?_, fun j hj => ?_⟩
  · rw [Nat.zero_add]
    rfl
  · rw [Nat.zero_add]
    exact h j hj

end Step

/-! ## A `long` before a `long long` -/

def longOne : Number where
  c := ⟨[], .digits [], no_width, none, .int .l .u⟩
  length := .l
  conv := .u
  kind := rfl
  plain := by decide
  stars := []
  stars_length := rfl
  value := 1
  inType := by simp [Length.InType, Length.typeBits]

def wideFive : Number where
  c := ⟨[], .digits [], no_width, none, .int .ll .d⟩
  length := .ll
  conv := .d
  kind := rfl
  plain := by decide
  stars := []
  stars_length := rfl
  value := -5
  inType := by simp [Length.InType, Length.typeBits, IntConv.signed]

theorem own_arguments_iff_wide :
    AtEvery (Item.step recorder (strOf (formatOfItems [.number wideFive])))
        (Item.OwnWords (strOf (formatOfItems [.number wideFive]))) [.number wideFive]
        ⟨0, 0, ⟨fun j => [2 ^ 32 - 5, 2 ^ 32 - 1].getD j 0, 0⟩, ⟨0, []⟩⟩ ↔
      AtEvery (Item.step recorder (strOf (formatOfItems [.number wideFive]))) Item.Aligned
        [.number wideFive] ⟨0, 0, ⟨fun j => [2 ^ 32 - 5, 2 ^ 32 - 1].getD j 0, 0⟩, ⟨0, []⟩⟩ :=
  own_arguments_iff recorder (show Pushed [.number wideFive] _ from fun j _ => by
    rw [show wordsOfItems [.number wideFive] = [2 ^ 32 - 5, 2 ^ 32 - 1] by decide]) _

/-- `%lu%lld` of 1 and -5: `%lu` reads the first word of the -5. -/
theorem own_arguments_not :
    ¬AtEvery (Item.step recorder (strOf (formatOfItems [.number longOne, .number wideFive])))
      (Item.OwnWords (strOf (formatOfItems [.number longOne, .number wideFive])))
      [.number longOne, .number wideFive]
      ⟨0, 0, ⟨fun j => (wordsOfItems [.number longOne, .number wideFive]).getD j 0, 0⟩, ⟨0, []⟩⟩ := by
  intro h
  have hlaid : Laid (strOf (formatOfItems [.number longOne, .number wideFive]))
      [.number longOne, .number wideFive] (⟨0, 0, ⟨fun j =>
        (wordsOfItems [.number longOne, .number wideFive]).getD j 0, 0⟩, ⟨0, []⟩⟩ :
          Place (List Byte)) :=
    ⟨rfl, fun j _ => by rw [Nat.zero_add]; rfl, fun j _ => by rw [Nat.zero_add]⟩
  have hown := (atEvery_cons h).1 (by decide)
  exact ((own_iff hlaid (by decide)).mp hown).1 ⟨rfl, rfl⟩

end Osdev2.Libk
