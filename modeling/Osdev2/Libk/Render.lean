import Osdev2.Libk.Format
import Osdev2.Libk.Number

/-!
# What a format asks for

`Piece.render` says what one piece of a format means: the arguments it takes, as a
caller passes them, and the characters it displays. `Follows` is that `vprintf` does
this piece by piece, one turn of its loop each. It does not for every format:
`follows_iff` says for which.
-/

namespace Osdev2.Libk

open Osdev2.Lib

/-! ## Arguments -/

def IntConv.signed : IntConv → Bool
  | .d | .i => true
  | _ => false

/-- The base `vprintf` prints in; `x` has 17. -/
def IntConv.base : IntConv → BitVec 32
  | .o => 8
  | .x => 17
  | .X => 16
  | _ => 10

/-- The size of the argument a caller passes: `int`, `long`, `size_t`, `ptrdiff_t`, `long long`,
`intmax_t`. -/
def Length.bits (W : Nat) : Length → Nat
  | .none | .hh | .h => 32
  | .l | .z | .t => W
  | .ll | .j => 64

/-- The `intmax_t` that `vprintf` makes of the argument. -/
def Length.value (W : Nat) (signed : Bool) (n : Nat) : Length → BitVec 64
  | .none => if signed then (BitVec.ofNat 32 n).signExtend 64 else BitVec.ofNat 64 n
  | .hh => if signed then (BitVec.ofNat 8 n).signExtend 64 else (BitVec.ofNat 8 n).setWidth 64
  | .h => if signed then (BitVec.ofNat 16 n).signExtend 64 else (BitVec.ofNat 16 n).setWidth 64
  | .l => if signed then (BitVec.ofNat W n).signExtend 64 else BitVec.ofNat 64 n
  | .z => (BitVec.ofNat W n).signExtend 64
  | .t => BitVec.ofNat 64 (n % 2 ^ 32)
  | .ll | .j => BitVec.ofNat 64 n

def Conversion.has (c : Conversion) (f : Flag) : Bool := c.flags.contains f

/-- `#` puts it before the number. -/
def Conversion.prefixOf (c : Conversion) : IntConv → List Byte
  | .o => if c.has .altForm then [ch '0'] else []
  | .x | .X => if c.has .altForm then [ch '0', ch 'x'] else []
  | _ => []

/-- The characters of a number. The digit 16 of base 17 is a NUL and ends them. -/
def Conversion.number (c : Conversion) (base : BitVec 32) (v : BitVec 64) (width : Int) : List Byte :=
  (padded (unpadded base.toNat v (c.has .plusSign) (c.has .spaceNoSign)) width (c.has .leftJustify)
    (c.has .zeroPad)).takeWhile (· != 0)

/-- The numbers `vprintf` can print: the division ends, and the arrays hold the field. -/
def Conversion.Printable (c : Conversion) (base : BitVec 32) (v : BitVec 64) (width : Int) : Prop :=
  (magnitude v).toNat < limit base.toNat ∧
    Room (unpadded base.toNat v (c.has .plusSign) (c.has .spaceNoSign)) width (c.has .leftJustify)

/-! ## Rendering -/

section Render

variable {σ : Type} (K : Console σ) (W : Nat)

def display (l : List Byte) (o : Out σ) : Out σ := l.foldl (fun o c => displayCharacter K c o) o

/-- The arguments a conversion takes, the `*` ones first, and the characters it displays;
`none` for a string that has no end. -/
def Conversion.render (c : Conversion) (va : VaList) (o : Out σ) : Option (VaList × Out σ) :=
  let width := (c.width.take W va).1.toInt
  let va := (takePrecision W (c.width.take W va).2 c.precision).2
  match c.kind with
  | .int length conv =>
    let arg := va_arg W (length.bits W) va
    some (arg.2, display K (c.prefixOf conv ++
      c.number conv.base (length.value W conv.signed arg.1) width) o)
  | .c =>
    let arg := va_arg W 32 va
    some (arg.2, displayCharacter K (BitVec.ofNat 8 arg.1) o)
  | .s =>
    let arg := va_arg W W va
    (displayString K W arg.1 o).map fun o => (arg.2, o)
  | .p =>
    let arg := va_arg W W va
    some (arg.2, display K (c.number 16 ((BitVec.ofNat W arg.1).signExtend 64) width) o)

def Piece.render : Piece → VaList → Out σ → Option (VaList × Out σ)
  | .literal c _, va, o => some (va, displayCharacter K c o)
  | .percent, va, o => some (va, displayCharacter K (ch '%') o)
  | .conv c, va, o => c.render K W va o

def renderAll : List Piece → VaList → Out σ → Option (VaList × Out σ)
  | [], va, o => some (va, o)
  | p :: ps, va, o => (p.render K W va o).bind fun r => renderAll ps r.1 r.2

/-- From index `i` on, one turn of the loop for each piece, which takes its arguments and
displays its characters. -/
def Consumes (format : CStr) : List Piece → Nat → VaList → Out σ → Prop
  | [], _, _, _ => True
  | p :: ps, i, va, o => ∀ va' o', p.render K W va o = some (va', o') →
      vprintf.turn K W format i va o = some (i + p.text.length, va', o') ∧
        Consumes format ps (i + p.text.length) va' o'

/-- `vprintf` follows the grammar: piece by piece, and to the end. -/
def Follows (ps : List Piece) (va : VaList) (o : Out σ) : Prop :=
  Consumes K W (strOf (formatOf ps)) ps 0 va o ∧
    ∀ va' o', renderAll K W ps va o = some (va', o') →
      vprintf K W (strOf (formatOf ps)) (2 ^ W) 0 va o = some o'

/-- The conversions `vprintf` gets right: no `hh`, no unsigned `l` where a `long` is half an
`uint64_t`, and a number it can print. -/
def Conversion.Handled (c : Conversion) (va : VaList) : Prop :=
  let width := (c.width.take W va).1.toInt
  let va := (takePrecision W (c.width.take W va).2 c.precision).2
  match c.kind with
  | .int length conv => length ≠ .hh ∧ ¬(length = .l ∧ conv.signed = false ∧ W = 32) ∧
      c.Printable conv.base (length.value W conv.signed (va_arg W (length.bits W) va).1) width
  | .p => c.Printable 16 ((BitVec.ofNat W (va_arg W W va).1).signExtend 64) width
  | _ => True

def Piece.Handled (va : VaList) : Piece → Prop
  | .literal _ _ => True
  | .percent => False
  | .conv c => c.Handled W va

/-- Every piece that is reached is handled, at an index an `int` holds. -/
def AllHandled : List Piece → Nat → VaList → Out σ → Prop
  | [], _, _, _ => True
  | p :: ps, i, va, o => ∀ va' o', p.render K W va o = some (va', o') →
      i + p.text.length < 2 ^ 31 ∧ p.Handled W va ∧ AllHandled ps (i + p.text.length) va' o'

end Render

/-! ## One conversion -/

section Convert

variable {σ : Type} {K : Console σ} {W : Nat}

theorem displayArray_text {s : CStr} {l : List Byte} (h : IsText s l) (hl : l.length < 2 ^ W)
    (o : Out σ) : displayArray K W s o = some (display K l o) :=
  have hrun : forEachChar (fun _ => s) (displayCharacter K) (2 ^ W) 0 o =
      some ((l.drop 0).foldl (fun o c => displayCharacter K c o) o) ∧ _ :=
    forEachChar_text (I := fun _ => True) (fun _ _ _ => trivial) (fun _ _ => h) trivial
      (Nat.zero_le _) (by omega)
  hrun.1

theorem foldl_set (flags : List Flag) (sp : Spec) :
    (flags.foldl Flag.set sp).leftJustify = (sp.leftJustify || flags.contains .leftJustify) ∧
    (flags.foldl Flag.set sp).plusSign = (sp.plusSign || flags.contains .plusSign) ∧
    (flags.foldl Flag.set sp).altForm = (sp.altForm || flags.contains .altForm) ∧
    (flags.foldl Flag.set sp).spaceNoSign = (sp.spaceNoSign || flags.contains .spaceNoSign) ∧
    (flags.foldl Flag.set sp).zeroPad = (sp.zeroPad || flags.contains .zeroPad) := by
  induction flags generalizing sp with
  | nil => simp
  | cons f flags ih =>
    rw [List.foldl_cons]
    refine ⟨(ih _).1.trans ?_, (ih _).2.1.trans ?_, (ih _).2.2.1.trans ?_, (ih _).2.2.2.1.trans ?_,
      (ih _).2.2.2.2.trans ?_⟩ <;> cases f <;> simp +decide [Flag.set]

variable {c : Conversion} {w p : BitVec 32} {specifier : Byte}

/-- A number is displayed if it can be printed, and else `vprintf` does not return. -/
theorem displayInt_spec (hW : 32 ≤ W) {base : BitVec 32} (hr : Radix base) (v : BitVec 64) (o : Out σ) :
    (c.Printable base v w.toInt → displayInt K W (c.spec w p specifier) base v o =
      some (display K (c.number base v w.toInt) o)) ∧
    (¬c.Printable base v w.toInt → displayInt K W (c.spec w p specifier) base v o = none) := by
  have hflags := foldl_set c.flags {}
  simp only [Bool.false_or] at hflags
  obtain ⟨h1, h2, -, h4, h5⟩ := hflags
  have hb := hr.bounds
  constructor
  · rintro ⟨hn, hroom⟩
    obtain ⟨s, hs, ht⟩ := int_str_text (fun _ => 0) (c.has .plusSign) (c.has .spaceNoSign)
      (c.has .leftJustify) (c.has .zeroPad) hW (show 1 < base.toNat by omega) hn hroom
    simp only [displayInt, Conversion.spec, h1, h2, h4, h5]
    rw [← Conversion.has, ← Conversion.has, ← Conversion.has, ← Conversion.has, hs]
    exact displayArray_text ht (displayed_length_lt hW (by omega) hroom) o
  · intro hn
    have hnone : int_str W v (fun _ => 0) base (c.has .plusSign) (c.has .spaceNoSign) w.toInt
        (c.has .leftJustify) (c.has .zeroPad) = none := by
      rcases Nat.lt_or_ge (magnitude v).toNat (limit base.toNat) with hlt | hge
      · have hint : -2 ^ 31 ≤ w.toInt ∧ w.toInt < 2 ^ 31 := ⟨BitVec.le_toInt w, BitVec.toInt_lt⟩
        exact int_str_overflow _ _ _ _ _ (by omega) hlt hint fun hroom => hn ⟨hlt, hroom⟩
      · exact int_str_never _ _ _ _ _ hr hge
    simp only [displayInt, Conversion.spec, h1, h2, h4, h5]
    rw [← Conversion.has, ← Conversion.has, ← Conversion.has, ← Conversion.has, hnone]
    rfl

/-- A `ptrdiff_t` is read as an `uint32_t`: the same word, its low half. -/
theorem va_arg_t (hW : W = 32 ∨ W = 64) (va : VaList) :
    va_arg W 32 va = ((va_arg W W va).1 % 2 ^ 32, (va_arg W W va).2) := by
  rcases hW with rfl | rfl
  · simp [va_arg]
  · simp [va_arg]

theorem unsignedArg_spec (hW : W = 32 ∨ W = 64) {length : Length} (hhh : length ≠ .hh)
    (hl : ¬(length = .l ∧ W = 32)) (va : VaList) : unsignedArg W length.code va =
      some (length.value W false (va_arg W (length.bits W) va).1, (va_arg W (length.bits W) va).2) := by
  cases length with
  | hh => exact absurd rfl hhh
  | t =>
    have ht := va_arg_t hW va
    simp +decide only [unsignedArg, Length.value, Length.bits, ht, if_true]
  | l =>
    have hW64 : W = 64 := hW.resolve_left fun h => hl ⟨rfl, h⟩
    subst hW64
    simp +decide only [unsignedArg, Length.value, Length.bits, if_true, if_false]
  | none | h | ll | j | z =>
    simp +decide only [unsignedArg, Length.value, Length.bits, if_true, if_false]

theorem signedArg_spec (hW : W = 32 ∨ W = 64) {length : Length} (hhh : length ≠ .hh) (va : VaList) :
    signedArg W length.code va =
      some (length.value W true (va_arg W (length.bits W) va).1, (va_arg W (length.bits W) va).2) := by
  cases length with
  | hh => exact absurd rfl hhh
  | t =>
    have ht := va_arg_t hW va
    simp +decide only [signedArg, Length.value, Length.bits, ht, if_true, if_false]
  | none | h | l | ll | j | z =>
    simp +decide only [signedArg, Length.value, Length.bits, if_true, if_false]

/-- Where a `long` is 32 bits, an unsigned `l` takes two words. -/
theorem unsignedArg_l (va : VaList) : ∃ v, unsignedArg 32 Length.l.code va =
    some (v, { va with pos := va.pos + 2 }) := by
  simp +decide only [unsignedArg, if_true, if_false]
  exact ⟨_, rfl⟩

theorem convert_signed {conv : IntConv} (hs : conv.signed = true) {sp : Spec}
    (hsp : sp.specifier = conv.char) (va : VaList) (o : Out σ) : convert K W sp va o =
      match signedArg W sp.length va with
      | none => some (va, o)
      | some (v, va) => (displayInt K W sp conv.base v o).map fun o => (va, o) := by
  unfold convert
  cases conv with
  | d | i => simp +decide only [hsp, if_true, if_false]; rfl
  | u | o | x | X => cases hs

theorem convert_unsigned (hW : 32 ≤ W) {length : Length} {conv : IntConv}
    (hk : c.kind = .int length conv) (hs : conv.signed = false) (va : VaList) (o : Out σ) :
    convert K W (c.spec w p conv.char) va o =
      displayUnsigned K W (c.spec w p conv.char) conv.base length.code va
        (display K (c.prefixOf conv) o) := by
  have hW2 : 2 ^ 32 ≤ 2 ^ W := Nat.pow_le_pow_right (by decide) hW
  have halt : (c.spec w p conv.char).altForm = c.has .altForm := by
    have h := (foldl_set c.flags {}).2.2.1
    rwa [Bool.false_or] at h
  have hlen : (c.spec w p conv.char).length = length.code := by
    rw [show (c.spec w p conv.char).length = c.kind.length.code from rfl, hk]
    rfl
  have htext : ∀ l : List Char, l.length ≤ 2 → (∀ b ∈ l.map ch, b ≠ 0) → ∀ o : Out σ,
      displayArray K W (lit l) o = some (display K (l.map ch) o) := fun l hl hne o =>
    displayArray_text (isText_strOf hne) (by rw [List.length_map]; omega) o
  unfold convert
  rw [show (c.spec w p conv.char).specifier = conv.char from rfl, halt, hlen]
  cases conv with
  | d | i => cases hs
  | u => simp +decide only [if_true, if_false]; rfl
  | o =>
    simp +decide only [if_true, if_false, htext ['0'] (by decide) (by decide), Option.bind_eq_bind]
    cases hb : c.has .altForm <;>
      simp only [Conversion.prefixOf, hb, Bool.false_eq_true, if_true, if_false, Option.bind_some] <;> rfl
  | x | X =>
    simp +decide only [if_true, if_false, htext ['0', 'x'] (by decide) (by decide),
      Option.bind_eq_bind]
    cases hb : c.has .altForm <;>
      simp only [Conversion.prefixOf, hb, Bool.false_eq_true, if_true, if_false, Option.bind_some] <;> rfl

theorem radix_base (conv : IntConv) : Radix conv.base := by
  unfold Radix
  cases conv <;> decide

/-- A number conversion with its argument `v`. -/
theorem display_iff (hW : 32 ≤ W) {base : BitVec 32} (hr : Radix base) (v : BitVec 64) (va : VaList)
    (l : List Byte) (o : Out σ) :
    ((displayInt K W (c.spec w p specifier) base v (display K l o)).map fun o => (va, o)) =
      some (va, display K (l ++ c.number base v w.toInt) o) ↔ c.Printable base v w.toInt := by
  obtain ⟨h1, h2⟩ : (c.Printable base v w.toInt → displayInt K W (c.spec w p specifier) base v
      (display K l o) = some (display K (c.number base v w.toInt) (display K l o))) ∧
      (¬c.Printable base v w.toInt → displayInt K W (c.spec w p specifier) base v (display K l o) =
        none) := displayInt_spec hW hr v (display K l o)
  by_cases hp : c.Printable base v w.toInt
  · rw [h1 hp]
    simp only [hp, iff_true]
    rw [display, display, display, List.foldl_append]
    rfl
  · rw [h2 hp]
    simp [hp]

/-- **One conversion**, its `*` arguments taken. -/
theorem convert_iff (hW : W = 32 ∨ W = 64) (hhh : c.kind.length ≠ .hh) {va va' : VaList} {o o' : Out σ}
    (hr : c.render K W va o = some (va', o')) :
    convert K W (c.spec (c.width.take W va).1 (takePrecision W (c.width.take W va).2 c.precision).1
        c.kind.specifier) (takePrecision W (c.width.take W va).2 c.precision).2 o = some (va', o') ↔
      c.Handled W va := by
  have hW32 : 32 ≤ W := by omega
  unfold Conversion.render at hr
  unfold Conversion.Handled
  generalize c.width.take W va = r at hr ⊢
  generalize takePrecision W r.2 c.precision = q at hr ⊢
  cases hk : c.kind with
  | int length conv =>
    rw [hk] at hhh hr
    obtain ⟨rfl, rfl⟩ := Prod.mk.inj (Option.some.inj hr)
    have hne : length ≠ .hh := hhh
    simp only [ne_eq, hne, not_false_iff, true_and]
    have hlen : (c.spec r.1 q.1 conv.char).length = length.code := by
      rw [show (c.spec r.1 q.1 conv.char).length = c.kind.length.code from rfl, hk]
      rfl
    rw [show (Kind.int length conv).specifier = conv.char from rfl]
    cases hs : conv.signed with
    | true =>
      have hp : c.prefixOf conv = [] := by
        cases conv <;> first | rfl | cases hs
      rw [convert_signed hs rfl, hlen, signedArg_spec hW hne, hp]
      exact (display_iff hW32 (radix_base conv) _ _ [] o).trans (by simp)
    | false =>
      rw [convert_unsigned hW32 hk hs, displayUnsigned]
      by_cases hl : length = .l ∧ W = 32
      · -- two words for one
        obtain ⟨rfl, rfl⟩ := hl
        obtain ⟨v, hv⟩ := unsignedArg_l q.2
        rw [hv]
        refine ⟨fun h => ?_, fun h => absurd ⟨rfl, rfl, rfl⟩ h.1⟩
        obtain ⟨o', -, ho⟩ := Option.map_eq_some_iff.mp h
        have hpos := congrArg VaList.pos (Prod.mk.inj ho).1
        simp [va_arg, Length.bits] at hpos
      · rw [unsignedArg_spec hW hne hl]
        exact (display_iff hW32 (radix_base conv) _ _ _ o).trans (by simp [hl])
  | c =>
    rw [hk] at hr
    obtain ⟨rfl, rfl⟩ := Prod.mk.inj (Option.some.inj hr)
    simp +decide only [convert, Conversion.spec, Kind.specifier, if_true, if_false]
  | s =>
    rw [hk] at hr
    simp +decide only [convert, Conversion.spec, Kind.specifier, if_true, if_false, iff_true]
    exact hr
  | p =>
    rw [hk] at hr
    obtain ⟨rfl, rfl⟩ := Prod.mk.inj (Option.some.inj hr)
    have harg : unsignedArg W (ch 'z') q.2 =
        some ((BitVec.ofNat W (va_arg W W q.2).1).signExtend 64, (va_arg W W q.2).2) := by
      simp +decide only [unsignedArg, if_true, if_false]
    have hconv : convert K W (c.spec r.1 q.1 (ch 'p')) q.2 o =
        displayUnsigned K W (c.spec r.1 q.1 (ch 'p')) 16 (ch 'z') q.2 o := by
      unfold convert
      rw [show (c.spec r.1 q.1 (ch 'p')).specifier = ch 'p' from rfl]
      simp +decide only [if_true, if_false]
    rw [show Kind.p.specifier = ch 'p' from rfl, hconv, displayUnsigned, harg]
    exact display_iff hW32 (Or.inr (Or.inr (Or.inl rfl))) _ _ [] o

end Convert

/-! ## Whole formats -/

section Follow

variable {σ : Type} {K : Console σ} {W : Nat} {format : CStr} {i : Nat} {va va' : VaList} {o o' : Out σ}

/-- `hh` ends one character early, on its second letter, which is no specifier. -/
theorem convert_hh {sp : Spec} (h : sp.specifier = ch 'h') (va : VaList) (o : Out σ) :
    convert K W sp va o = some (va, o) := by
  unfold convert
  rw [h]
  simp +decide only [if_false]

/-- `%%` displays nothing. -/
theorem convert_percent {sp : Spec} (h : sp.specifier = ch '%') (va : VaList) (o : Out σ) :
    convert K W sp va o = some (va, o) := by
  unfold convert
  rw [h]
  simp +decide only [if_false]

theorem parseSpec_percent (h : format i = ch '%') (va : VaList) :
    ∃ sp, parseSpec W format i va = some (sp, i, va) ∧ sp.specifier = ch '%' := by
  obtain ⟨f, hf⟩ : ∃ f, 2 ^ W = f + 1 := ⟨2 ^ W - 1, by have := Nat.two_pow_pos W; omega⟩
  have h1 : parseFlags format (2 ^ W) i {} = some ({}, i) := by
    rw [hf, parseFlags, h]
    simp +decide only [if_false]
  have h2 : parseNumberOrStar W format i va = some (0, i, va) := by
    have hn : parseNumber format (2 ^ W) i 0 = some (0, i) := by
      rw [hf, parseNumber, h]
      simp +decide only [if_false]
    simp +decide only [parseNumberOrStar, hn, h, Option.bind_eq_bind, Option.bind_some, if_false]
    rfl
  have h3 : parseLength format i = (0, i) := by
    simp +decide only [parseLength, h, if_false]
  refine ⟨{ precSpec := 6, specifier := ch '%' }, ?_, rfl⟩
  rw [parseSpec_eq, h1, Option.bind_some, h2, Option.bind_some]
  simp +decide only [h, h3, if_false, Option.bind_some]

/-- **One piece.** The turn at a piece takes it as a unit exactly if it is handled. -/
theorem turn_iff (hW : W = 32 ∨ W = 64) {p : Piece} (hat : ReadsAt format i p.text)
    (hi : i + p.text.length < 2 ^ 31) (hr : p.render K W va o = some (va', o')) :
    vprintf.turn K W format i va o = some (i + p.text.length, va', o') ↔ p.Handled W va := by
  have hW2 : 2 ^ 32 ≤ 2 ^ W := Nat.pow_le_pow_right (by decide) (by omega)
  cases p with
  | literal c hc =>
    have h0 : format i = c := (readsAt_cons.mp hat).1
    obtain ⟨rfl, rfl⟩ := Prod.mk.inj (Option.some.inj hr)
    rw [turn_lit (h0 ▸ hc.2) hi, h0]
    exact iff_of_true rfl trivial
  | percent =>
    obtain ⟨h0, h1⟩ := readsAt_cons.mp hat
    obtain ⟨rfl, rfl⟩ := Prod.mk.inj (Option.some.inj hr)
    obtain ⟨sp, hs, hsp⟩ := parseSpec_percent (W := W) (readsAt_cons.mp h1).1 va
    rw [turn_conv h0 hs hi, convert_percent hsp]
    refine iff_of_false (fun h => ?_) id
    have hchars := congrArg (fun r => r.2.2.chars) (Option.some.inj h)
    simp [displayCharacter] at hchars
  | conv c =>
    obtain ⟨h0, h1⟩ := readsAt_cons.mp hat
    have hlen : (Piece.conv c).text.length = c.middle.length + 2 := by
      rw [Piece.text, List.length_cons, List.length_append, List.length_singleton]
    rw [hlen] at hi ⊢
    have hparse := parseSpec_conversion (W := W) h1 (by omega) va
    have hspec : format (i + 1 + c.middle.length) = c.kind.specifier :=
      (readsAt_cons.mp (readsAt_append.mp h1).2).1
    by_cases hhh : c.kind.length = .hh
    · -- the index is one short
      have hmid : 2 ≤ c.middle.length := by
        rw [Conversion.middle, hhh, show Length.hh.text = [ch 'h', ch 'h'] from rfl]
        simp only [List.length_append, List.length_cons, List.length_nil]
        omega
      have hh : format (i + 1 + c.middle.length - 1) = ch 'h' := by
        have hread := (readsAt_append.mp h1).1
        rw [Conversion.middle, readsAt_append, readsAt_append, readsAt_append, hhh] at hread
        have hlast := (readsAt_cons.mp (readsAt_cons.mp hread.2.2.2).2).1
        rw [← hlast]
        congr 1
        rw [Conversion.middle, hhh]
        simp only [List.length_append, Length.text, List.length_cons, List.length_nil]
        omega
      simp only [if_pos hhh, hh] at hparse
      rw [turn_conv h0 hparse (by omega), convert_hh rfl]
      refine iff_of_false (fun h => ?_) fun h => ?_
      · have hindex := congrArg Prod.fst (Option.some.inj h)
        simp only at hindex
        omega
      · cases hk : c.kind with
        | int length conv =>
          rw [hk] at hhh
          simp only [Piece.Handled, Conversion.Handled, hk] at h
          exact h.1 hhh
        | c | s | p => rw [hk] at hhh; cases hhh
    · simp only [if_neg hhh, hspec] at hparse
      rw [turn_conv h0 hparse (by omega),
        show i + 1 + c.middle.length + 1 = i + (c.middle.length + 2) by omega]
      refine Iff.trans ?_ (convert_iff hW hhh hr)
      constructor
      · intro h
        obtain ⟨r, hconv, hrest⟩ := Option.map_eq_some_iff.mp h
        cases hrest
        exact hconv
      · intro h
        rw [h]
        rfl

theorem consumes_iff (hW : W = 32 ∨ W = 64) : ∀ {ps : List Piece} {i : Nat} {va : VaList} {o : Out σ},
    ReadsAt format i (formatOf ps) →
      (Consumes K W format ps i va o ↔ AllHandled K W ps i va o)
  | [], _, _, _, _ => Iff.rfl
  | p :: ps, i, va, o, h => by
    obtain ⟨hp, hps⟩ := readsAt_append.mp h
    refine forall_congr' fun va' => forall_congr' fun o' => imp_congr_right fun hr => ?_
    rw [consumes_iff hW hps]
    constructor
    · rintro ⟨hturn, hrest⟩
      have hi := turn_index hturn
      exact ⟨hi, (turn_iff hW hp hi hr).mp hturn, hrest⟩
    · rintro ⟨hi, hp', hrest⟩
      exact ⟨(turn_iff hW hp hi hr).mpr hp', hrest⟩

/-- A loop that takes the pieces as units prints what they ask for. -/
theorem vprintf_of_consumes : ∀ {ps : List Piece} {i fuel : Nat} {va va' : VaList} {o o' : Out σ},
    Consumes K W format ps i va o → ReadsAt format i (formatOf ps) →
      format (i + (formatOf ps).length) = 0 → renderAll K W ps va o = some (va', o') →
      ps.length < fuel → vprintf K W format fuel i va o = some o'
  | [], i, fuel + 1, va, va', o, o', _, _, hend, hr, _ => by
    cases hr
    exact if_pos hend
  | p :: ps, i, fuel + 1, va, va', o, o', hc, hat, hend, hr, hf => by
    obtain ⟨r, hp, hr⟩ := Option.bind_eq_some_iff.mp hr
    obtain ⟨hturn, hrest⟩ := hc r.1 r.2 hp
    obtain ⟨hat, hat'⟩ := readsAt_append.mp hat
    have hne : format i ≠ 0 := by
      cases p with
      | literal c h => exact (readsAt_cons.mp hat).1 ▸ h.1
      | percent | conv c => rw [(readsAt_cons.mp hat).1]; decide
    rw [vprintf, if_neg hne, hturn]
    refine vprintf_of_consumes hrest hat' ?_ hr (by simpa using hf)
    rw [show formatOf (p :: ps) = p.text ++ formatOf ps from rfl, List.length_append] at hend
    rwa [Nat.add_assoc]

theorem length_le_formatOf (ps : List Piece) : ps.length ≤ (formatOf ps).length := by
  induction ps with
  | nil => exact Nat.le_refl 0
  | cons p ps ih =>
    have hp : 1 ≤ p.text.length := by
      cases p <;> simp [Piece.text]
    rw [show formatOf (p :: ps) = p.text ++ formatOf ps from rfl, List.length_append, List.length_cons]
    omega

theorem AllHandled.length_lt : ∀ {ps : List Piece} {i : Nat} {va va' : VaList} {o o' : Out σ},
    AllHandled K W ps i va o → renderAll K W ps va o = some (va', o') → i < 2 ^ 31 →
      i + (formatOf ps).length < 2 ^ 31
  | [], _, _, _, _, _, _, _, hi => hi
  | p :: ps, i, va, va', o, o', h, hr, hi => by
    obtain ⟨r, hp, hr⟩ := Option.bind_eq_some_iff.mp hr
    obtain ⟨hlen, -, hrest⟩ := h r.1 r.2 hp
    have hall := hrest.length_lt hr hlen
    rw [show formatOf (p :: ps) = p.text ++ formatOf ps from rfl, List.length_append]
    omega

/-- **The grammar of `printf`.** `vprintf` follows a format exactly if every piece it reaches
is handled. -/
theorem follows_iff (hW : W = 32 ∨ W = 64) (ps : List Piece) (va : VaList) (o : Out σ) :
    Follows K W ps va o ↔ AllHandled K W ps 0 va o := by
  have hW2 : 2 ^ 32 ≤ 2 ^ W := Nat.pow_le_pow_right (by decide) (by omega)
  have hat : ReadsAt (strOf (formatOf ps)) 0 (formatOf ps) := fun j _ => by rw [Nat.zero_add]; rfl
  refine ⟨fun h => (consumes_iff hW hat).mp h.1, fun h => ?_⟩
  have hc := (consumes_iff hW hat).mpr h
  refine ⟨hc, fun va' o' hr => vprintf_of_consumes hc hat ?_ hr ?_⟩
  · rw [Nat.zero_add, strOf, List.getD_eq_default _ _ (Nat.le_refl _)]
  · have hlen := h.length_lt hr (by decide)
    have hle := length_le_formatOf ps
    omega

end Follow

/-! ## Formats that are not followed -/

/-- A console that keeps what it is given, over a memory of zeros. -/
def recorder : Console (List Byte) where
  mem := fun _ _ => 0
  putc := fun c out => out ++ [c]
  store := fun _ _ out => out

/-- What is printed for `ps` when every argument word is `n`, and what they ask for. -/
def recorded (n : Nat) (ps : List Piece) : Option (List Byte) :=
  printf recorder 32 (strOf (formatOf ps)) (fun _ => n) []

def asked (n : Nat) (ps : List Piece) : Option (List Byte) :=
  (renderAll recorder 32 ps ⟨fun _ => n, 0⟩ ⟨0, []⟩).map fun r => r.2.con

theorem recorded_eq_asked {n : Nat} {ps : List Piece} {l : List Byte} (ha : asked n ps = some l)
    (h : Follows recorder 32 ps ⟨fun _ => n, 0⟩ ⟨0, []⟩) : recorded n ps = some l := by
  obtain ⟨r, hr, rfl⟩ := Option.map_eq_some_iff.mp ha
  rw [recorded, printf, h.2 r.1 r.2 hr]
  rfl

def hhd : Conversion := ⟨[], .digits [], no_width, none, .int .hh .d⟩

def d : Conversion := ⟨[], .digits [], no_width, none, .int .none .d⟩

/-- `%d%%` and `%hhd`, each for the argument 5: `5` and `d` are printed. -/
theorem not_followed :
    recorded 5 [.conv d, .percent] = some [ch '5'] ∧
    ¬Follows recorder 32 [.conv d, .percent] ⟨fun _ => 5, 0⟩ ⟨0, []⟩ ∧
    recorded 5 [.conv hhd] = some [ch 'd'] ∧
    ¬Follows recorder 32 [.conv hhd] ⟨fun _ => 5, 0⟩ ⟨0, []⟩ := by
  have h1 : recorded 5 [.conv d, .percent] = some [ch '5'] := by decide +kernel
  have h2 : recorded 5 [.conv hhd] = some [ch 'd'] := by decide +kernel
  have a1 : asked 5 [.conv d, .percent] = some [ch '5', ch '%'] := by decide +kernel
  have a2 : asked 5 [.conv hhd] = some [ch '5'] := by decide +kernel
  refine ⟨h1, fun h => ?_, h2, fun h => ?_⟩
  · exact absurd (h1.symm.trans (recorded_eq_asked a1 h)) (by decide)
  · exact absurd (h2.symm.trans (recorded_eq_asked a2 h)) (by decide)

theorem follows_iff_recorder :
    Follows recorder 32 [.conv d] ⟨fun _ => 5, 0⟩ ⟨0, []⟩ ↔
      AllHandled recorder 32 [.conv d] 0 ⟨fun _ => 5, 0⟩ ⟨0, []⟩ :=
  follows_iff (Or.inl rfl) _ _ _

end Osdev2.Libk
