import Osdev2.Libk.Printf

/-!
# The grammar of formats

A format is a sequence of pieces: literal characters, `%%`, and conversions
`%[flags][width][.precision][length]conv` of integers, characters, strings and
pointers. `parseSpec_conversion` says that the index `vprintf` advances by hand
comes out behind the pieces of a conversion, with its flags, width, precision and
length in the right places.
-/

namespace Osdev2.Libk

open Osdev2.Lib

/-! ## Pieces -/

inductive Flag
  | leftJustify | plusSign | altForm | spaceNoSign | zeroPad
  deriving DecidableEq

def Flag.char : Flag → Byte
  | .leftJustify => ch '-'
  | .plusSign => ch '+'
  | .altForm => ch '#'
  | .spaceNoSign => ch ' '
  | .zeroPad => ch '0'

def Flag.set (sp : Spec) : Flag → Spec
  | .leftJustify => { sp with leftJustify := true }
  | .plusSign => { sp with plusSign := true }
  | .altForm => { sp with altForm := true }
  | .spaceNoSign => { sp with spaceNoSign := true }
  | .zeroPad => { sp with zeroPad := true }

/-- A width or a precision; no digits stand for none. -/
inductive Amount
  | digits (ds : List (Fin 10))
  | star

def decimalChar (d : Fin 10) : Byte := BitVec.ofNat 8 (48 + d.val)

def Amount.text : Amount → List Byte
  | .digits ds => ds.map decimalChar
  | .star => [ch '*']

inductive Length
  | none | hh | h | l | ll | j | z | t
  deriving DecidableEq

def Length.text : Length → List Byte
  | .none => []
  | .hh => [ch 'h', ch 'h']
  | .h => [ch 'h']
  | .l => [ch 'l']
  | .ll => [ch 'l', ch 'l']
  | .j => [ch 'j']
  | .z => [ch 'z']
  | .t => [ch 't']

/-- How `vprintf` writes it down. -/
def Length.code : Length → Byte
  | .none => 0
  | .hh => ch 'H'
  | .h => ch 'h'
  | .l => ch 'l'
  | .ll => ch 'q'
  | .j => ch 'j'
  | .z => ch 'z'
  | .t => ch 't'

inductive IntConv
  | d | i | u | o | x | X
  deriving DecidableEq

def IntConv.char : IntConv → Byte
  | .d => ch 'd'
  | .i => ch 'i'
  | .u => ch 'u'
  | .o => ch 'o'
  | .x => ch 'x'
  | .X => ch 'X'

inductive Kind
  | int (length : Length) (conv : IntConv)
  | c | s | p

def Kind.length : Kind → Length
  | .int length _ => length
  | _ => .none

def Kind.specifier : Kind → Byte
  | .int _ conv => conv.char
  | .c => ch 'c'
  | .s => ch 's'
  | .p => ch 'p'

/-- A leading zero of the width would be a flag. -/
structure Conversion where
  flags : List Flag
  width : Amount
  width_head : ∀ ds, width = .digits ds → ds.head? ≠ some 0
  precision : Option Amount
  kind : Kind

theorem no_width : ∀ ds, Amount.digits [] = .digits ds → ds.head? ≠ some 0 := by
  simp

def precisionText : Option Amount → List Byte
  | none => []
  | some p => ch '.' :: p.text

/-- Everything between the `%` and the specifier. -/
def Conversion.middle (c : Conversion) : List Byte :=
  c.flags.map Flag.char ++ (c.width.text ++ (precisionText c.precision ++ c.kind.length.text))

inductive Piece
  | literal (c : Byte) (h : c ≠ 0 ∧ c ≠ ch '%')
  | percent
  | conv (c : Conversion)

def Piece.text : Piece → List Byte
  | .literal c _ => [c]
  | .percent => [ch '%', ch '%']
  | .conv c => ch '%' :: (c.middle ++ [c.kind.specifier])

def formatOf (ps : List Piece) : List Byte := ps.flatMap Piece.text

/-- `l` stands at offset `i` of the format. -/
def ReadsAt (format : CStr) (i : Nat) (l : List Byte) : Prop :=
  ∀ j, j < l.length → format (i + j) = l.getD j 0

section ReadsAt

variable {format : CStr} {i : Nat} {c : Byte} {l l' : List Byte}

theorem readsAt_cons : ReadsAt format i (c :: l) ↔ format i = c ∧ ReadsAt format (i + 1) l := by
  constructor
  · intro h
    refine ⟨h 0 (Nat.succ_pos _), fun j hj => ?_⟩
    rw [show i + 1 + j = i + (j + 1) by omega]
    exact h (j + 1) (Nat.succ_lt_succ hj)
  · rintro ⟨h0, h⟩ j hj
    cases j with
    | zero => exact h0
    | succ j =>
      rw [show i + (j + 1) = i + 1 + j by omega]
      exact h j (Nat.lt_of_succ_lt_succ hj)

theorem readsAt_append :
    ReadsAt format i (l ++ l') ↔ ReadsAt format i l ∧ ReadsAt format (i + l.length) l' := by
  induction l generalizing i with
  | nil => simp [ReadsAt]
  | cons c l ih =>
    rw [List.cons_append, readsAt_cons, readsAt_cons, ih, List.length_cons, and_assoc,
      show i + 1 + l.length = i + (l.length + 1) by omega]

end ReadsAt

/-! ## What follows a piece of a conversion -/

/-- The first letters of a length and a specifier. -/
def IsLetter (c : Byte) : Prop :=
  c ∈ [ch 'h', ch 'l', ch 'j', ch 'z', ch 't', ch 'd', ch 'i', ch 'u', ch 'o', ch 'x', ch 'X', ch 'c',
    ch 's', ch 'p']

theorem IsLetter.stops {c : Byte} (h : IsLetter c) : isdigit c = false ∧ c ≠ ch '*' ∧ c ≠ ch '.' := by
  unfold IsLetter at h
  fin_cases h <;> decide

section Follows

variable {format : CStr} {i : Nat} {k : Kind} {p : Option Amount} {w : Amount}

theorem letter_of_kind (h : ReadsAt format i (k.length.text ++ [k.specifier])) : IsLetter (format i) := by
  cases k with
  | int length conv =>
    cases length <;> cases conv <;> rw [(readsAt_cons.mp h).1] <;> unfold IsLetter <;> decide
  | c => rw [(readsAt_cons.mp h).1]; unfold IsLetter; decide
  | s => rw [(readsAt_cons.mp h).1]; unfold IsLetter; decide
  | p => rw [(readsAt_cons.mp h).1]; unfold IsLetter; decide

theorem after_width (h : ReadsAt format i (precisionText p ++ (k.length.text ++ [k.specifier]))) :
    IsLetter (format i) ∨ format i = ch '.' := by
  cases p with
  | none => exact Or.inl (letter_of_kind h)
  | some p => exact Or.inr (readsAt_cons.mp h).1

theorem after_flags (hw : ∀ ds, w = .digits ds → ds.head? ≠ some 0)
    (h : ReadsAt format i (w.text ++ (precisionText p ++ (k.length.text ++ [k.specifier])))) :
    IsLetter (format i) ∨ format i = ch '.' ∨ format i = ch '*' ∨
      ∃ d : Fin 10, d ≠ 0 ∧ format i = decimalChar d := by
  cases w with
  | star => exact Or.inr (Or.inr (Or.inl (readsAt_cons.mp h).1))
  | digits ds =>
    cases ds with
    | nil => exact (after_width h).imp_right Or.inl
    | cons d ds =>
      have hd : d ≠ 0 := fun h0 => hw _ rfl (by rw [h0]; rfl)
      exact Or.inr (Or.inr (Or.inr ⟨d, hd, (readsAt_cons.mp h).1⟩))

end Follows

/-! ## Parsing -/

section Parse

variable {W : Nat} {format : CStr}

theorem parseFlags_flags : ∀ {flags : List Flag} {fuel i : Nat} {sp : Spec},
    ReadsAt format i (flags.map Flag.char) → (∀ f : Flag, format (i + flags.length) ≠ f.char) →
      flags.length < fuel →
      parseFlags format fuel i sp = some (flags.foldl Flag.set sp, i + flags.length)
  | [], fuel + 1, i, sp, _, hend, _ => by
    rw [List.length_nil, Nat.add_zero] at hend ⊢
    rw [parseFlags]
    simp only [if_neg (show format i ≠ ch '-' from hend .leftJustify),
      if_neg (show format i ≠ ch '+' from hend .plusSign),
      if_neg (show format i ≠ ch '#' from hend .altForm),
      if_neg (show format i ≠ ch ' ' from hend .spaceNoSign),
      if_neg (show format i ≠ ch '0' from hend .zeroPad)]
    rfl
  | f :: flags, fuel + 1, i, sp, h, hend, hfuel => by
    obtain ⟨h0, h1⟩ := readsAt_cons.mp h
    rw [List.length_cons, show i + (flags.length + 1) = i + 1 + flags.length by omega] at hend ⊢
    have hrec : parseFlags format fuel (i + 1) (f.set sp) = _ :=
      parseFlags_flags h1 hend (by simpa using hfuel)
    rw [parseFlags, h0, List.foldl_cons, ← hrec]
    cases f <;> simp +decide only [Flag.set, if_true, if_false]

/-- The value of the digits, in `int` arithmetic. -/
def intOf (n : BitVec 32) (ds : List (Fin 10)) : BitVec 32 :=
  ds.foldl (fun n d => n * 10 + BitVec.ofNat 32 d.val) n

theorem parseNumber_digits : ∀ {ds : List (Fin 10)} {fuel i : Nat} {n : BitVec 32},
    ReadsAt format i (Amount.digits ds).text → isdigit (format (i + ds.length)) = false →
      ds.length < fuel → parseNumber format fuel i n = some (intOf n ds, i + ds.length)
  | [], fuel + 1, i, n, _, hend, _ => by
    rw [List.length_nil, Nat.add_zero] at hend ⊢
    rw [parseNumber, hend]
    rfl
  | d :: ds, fuel + 1, i, n, h, hend, hfuel => by
    obtain ⟨h0, h1⟩ := readsAt_cons.mp h
    rw [List.length_cons, show i + (ds.length + 1) = i + 1 + ds.length by omega] at hend ⊢
    have hrec : parseNumber format fuel (i + 1) (n * 10 + BitVec.ofNat 32 d.val) = _ :=
      parseNumber_digits h1 hend (by simpa using hfuel)
    have hdig : ∀ d : Fin 10, isdigit (decimalChar d) = true ∧
        (decimalChar d).setWidth 32 = BitVec.ofNat 32 d.val + 48 := by decide
    rw [parseNumber, h0, (hdig d).1, if_pos rfl, (hdig d).2, ← BitVec.add_assoc,
      BitVec.add_sub_cancel, hrec]
    rfl

/-- A width or precision, and the argument a star takes. -/
def Amount.take (W : Nat) (va : VaList) : Amount → BitVec 32 × VaList
  | .digits ds => (intOf 0 ds, va)
  | .star => (BitVec.ofNat 32 (va_arg W 32 va).1, (va_arg W 32 va).2)

theorem parseNumberOrStar_amount {a : Amount} {i : Nat} (h : ReadsAt format i a.text)
    (hend : isdigit (format (i + a.text.length)) = false ∧ format (i + a.text.length) ≠ ch '*')
    (hlen : a.text.length < 2 ^ W) (va : VaList) : parseNumberOrStar W format i va =
      some ((a.take W va).1, i + a.text.length, (a.take W va).2) := by
  cases a with
  | digits ds =>
    rw [Amount.text, List.length_map] at hend hlen ⊢
    simp only [parseNumberOrStar, parseNumber_digits h hend.1 hlen, Option.bind_eq_bind,
      Option.bind_some, if_neg hend.2]
    rfl
  | star =>
    have h0 : format i = ch '*' := (readsAt_cons.mp h).1
    have hnum : parseNumber format (2 ^ W) i 0 = some (0, i) := by
      obtain ⟨f, hf⟩ : ∃ f, 2 ^ W = f + 1 := ⟨2 ^ W - 1, by omega⟩
      rw [hf, parseNumber, h0]
      simp +decide only [if_false]
    simp only [parseNumberOrStar, hnum, h0, Option.bind_eq_bind, Option.bind_some, if_true]
    rfl

def takePrecision (W : Nat) (va : VaList) : Option Amount → BitVec 32 × VaList
  | none => (6, va)
  | some p => p.take W va

theorem parsePrecision {p : Option Amount} {k : Kind} {i : Nat}
    (h : ReadsAt format i (precisionText p ++ (k.length.text ++ [k.specifier])))
    (hlen : (precisionText p).length < 2 ^ W) (va : VaList) :
    (if format i = ch '.' then parseNumberOrStar W format (i + 1) va else some (6, i, va)) =
      some ((takePrecision W va p).1, i + (precisionText p).length, (takePrecision W va p).2) := by
  cases p with
  | none =>
    have hl := (letter_of_kind h).stops
    rw [if_neg hl.2.2]
    rfl
  | some p =>
    obtain ⟨h0, h1⟩ := readsAt_cons.mp h
    obtain ⟨h1, h2⟩ := readsAt_append.mp h1
    have hl := (letter_of_kind h2).stops
    rw [precisionText, List.length_cons] at hlen ⊢
    rw [if_pos h0, parseNumberOrStar_amount h1 ⟨hl.1, hl.2.1⟩ (by omega),
      show i + 1 + p.text.length = i + (p.text.length + 1) by omega]
    rfl

/-- The length and the index of the specifier: of `hh` the second letter is still to read. -/
theorem parseLength_kind {k : Kind} {i : Nat} (h : ReadsAt format i (k.length.text ++ [k.specifier])) :
    parseLength format i =
      (k.length.code, i + if k.length = .hh then 1 else k.length.text.length) := by
  -- without a length, the specifier stops the test
  have hnone : ∀ c, format i = c →
      c ∈ [ch 'd', ch 'i', ch 'u', ch 'o', ch 'x', ch 'X', ch 'c', ch 's', ch 'p'] →
      parseLength format i = (0, i) := by
    intro c hc hmem
    rw [parseLength, hc]
    fin_cases hmem <;> simp +decide only [if_false]
  cases k with
  | int length conv =>
    cases length with
    | none =>
      refine hnone conv.char (readsAt_cons.mp h).1 ?_
      cases conv <;> decide
    | hh | ll =>
      obtain ⟨h0, h1⟩ := readsAt_cons.mp h
      have h2 := (readsAt_cons.mp h1).1
      simp +decide only [parseLength, h0, h2, if_true, if_false]
      rfl
    | h | l | j | z | t =>
      obtain ⟨h0, h1⟩ := readsAt_cons.mp h
      have h2 : format (i + 1) = conv.char := (readsAt_cons.mp h1).1
      cases conv <;> simp +decide only [parseLength, h0, h2, IntConv.char, if_true, if_false] <;> rfl
  | c => exact hnone _ (readsAt_cons.mp h).1 (by decide)
  | s => exact hnone _ (readsAt_cons.mp h).1 (by decide)
  | p => exact hnone _ (readsAt_cons.mp h).1 (by decide)

theorem parseSpec_eq (i : Nat) (va : VaList) : parseSpec W format i va =
    (parseFlags format (2 ^ W) i {}).bind fun r =>
      (parseNumberOrStar W format r.2 va).bind fun w =>
        (if format w.2.1 = ch '.' then parseNumberOrStar W format (w.2.1 + 1) w.2.2
          else some (6, w.2.1, w.2.2)).bind fun p =>
            let l := parseLength format p.2.1
            some ({ r.1 with
              lengthSpec := w.1, precSpec := p.1, length := l.1, specifier := format l.2 }, l.2, p.2.2) := by
  simp only [parseSpec, Option.bind_eq_bind]
  refine congrArg _ (funext fun r => congrArg _ (funext fun w => ?_))
  split <;> rfl

/-- What `vprintf` has noted when it reaches the specifier `specifier`. -/
def Conversion.spec (c : Conversion) (width precision : BitVec 32) (specifier : Byte) : Spec :=
  { c.flags.foldl Flag.set {} with
    lengthSpec := width, precSpec := precision, length := c.kind.length.code, specifier }

/-- **The hand-advanced index.** Flags, width, precision and length end in their places, and
the index on the specifier, but for `hh`. -/
theorem parseSpec_conversion {c : Conversion} {i : Nat}
    (h : ReadsAt format i (c.middle ++ [c.kind.specifier])) (hlen : c.middle.length < 2 ^ W)
    (va : VaList) : parseSpec W format i va =
      let (width, va) := c.width.take W va
      let (precision, va) := takePrecision W va c.precision
      let j := if c.kind.length = .hh then i + c.middle.length - 1 else i + c.middle.length
      some (c.spec width precision (format j), j, va) := by
  rw [Conversion.middle, List.append_assoc, readsAt_append, List.append_assoc, readsAt_append,
    List.append_assoc] at h
  obtain ⟨hflags, hwidth, hrest⟩ := h
  rw [List.length_map] at hwidth hrest
  simp only [Conversion.middle, List.length_append, List.length_map] at hlen ⊢
  -- the flags end before the width
  have hflag : ∀ f : Flag, format (i + c.flags.length) ≠ f.char := by
    intro f
    have hnext := after_flags c.width_head (readsAt_append.mpr ⟨hwidth, hrest⟩)
    rcases hnext with hl | hl | hl | ⟨d, hd, hl⟩
    · rw [IsLetter] at hl
      generalize format (i + c.flags.length) = x at hl
      fin_cases hl <;> cases f <;> decide
    · rw [hl]
      cases f <;> decide
    · rw [hl]
      cases f <;> decide
    · rw [hl]
      clear hl
      revert d
      cases f <;> decide
  have h1 : parseFlags format (2 ^ W) i {} = _ := parseFlags_flags hflags hflag (by omega)
  -- and the width before the precision
  have hwend : isdigit (format (i + c.flags.length + c.width.text.length)) = false ∧
      format (i + c.flags.length + c.width.text.length) ≠ ch '*' := by
    rcases after_width hrest with hl | hl
    · exact ⟨hl.stops.1, hl.stops.2.1⟩
    · rw [hl]
      decide
  have h2 := parseNumberOrStar_amount (W := W) hwidth hwend (by omega) va
  have h3 := parsePrecision (W := W) hrest (by omega) (c.width.take W va).2
  have h4 := parseLength_kind (readsAt_append.mp hrest).2
  have hj : i + c.flags.length + c.width.text.length + (precisionText c.precision).length +
      (if c.kind.length = .hh then 1 else c.kind.length.text.length) =
      if c.kind.length = .hh then i + (c.flags.length + (c.width.text.length +
        ((precisionText c.precision).length + c.kind.length.text.length))) - 1
      else i + (c.flags.length + (c.width.text.length +
        ((precisionText c.precision).length + c.kind.length.text.length))) := by
    split
    · rename_i hh
      rw [hh, show Length.hh.text.length = 2 from rfl]
      omega
    · omega
  rw [parseSpec_eq, h1, Option.bind_some, h2, Option.bind_some, h3, Option.bind_some, ← hj]
  simp only [h4]
  rfl

end Parse

end Osdev2.Libk
