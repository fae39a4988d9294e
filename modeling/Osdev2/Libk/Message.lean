import Osdev2.Libk.Radix

/-!
# Messages (`libk/stdio/printf.c`)

A message is a text with unsigned numbers, zero-padded where a width is given, and strings in
it: all that the kernel prints. `printf_message` is what comes out of `printf` for it, character
by character, on a console that leaves its strings alone.
-/

namespace Osdev2.Libk

open Osdev2.Lib

/-- A number is an `unsigned int`, in digits that all have a character. -/
inductive Part where
  | text (l : List Char) (h : ∀ c ∈ l.map ch, c ≠ 0 ∧ c ≠ ch '%' := by decide)
  | number (conv : IntConv) (width : List (Fin 10)) (hconv : conv.signed = false ∧ conv ≠ .x := by decide)
    (hwidth : width.head? ≠ some 0 ∧ (intOf 0 width).toNat ≤ 255 := by decide)
  | string

/-- `%0<width>X` and the like. -/
def numeric (conv : IntConv) (width : List (Fin 10)) (h : width.head? ≠ some 0) : Conversion where
  flags := if width.isEmpty then [] else [.zeroPad]
  width := .digits width
  width_head := fun _ hds => Amount.digits.inj hds ▸ h
  precision := none
  kind := .int .none conv

/-- `%s`. -/
def bareString : Conversion := ⟨[], .digits [], no_width, none, .s⟩

def Part.pieces : Part → List Piece
  | .text l h => (l.map ch).pmap Piece.literal h
  | .number conv width _ h => [.conv (numeric conv width h.1)]
  | .string => [.conv bareString]

def pieces (ps : List Part) : List Piece := ps.flatMap Part.pieces

/-- How many arguments it takes. -/
def Part.takes : Part → Nat
  | .text .. => 0
  | _ => 1

/-- A number in `width` digits, or more where it has more. -/
def numberText (conv : IntConv) (width : List (Fin 10)) (n : Nat) : List Byte :=
  List.replicate ((intOf 0 width).toNat - (digitsText conv.base.toNat n).length) (ch '0') ++
    digitsText conv.base.toNat n

/-- The characters of a part for its argument; `rd` is the text a pointer points to. -/
def Part.chars (rd : Nat → List Byte) (arg : Nat) : Part → List Byte
  | .text l _ => l.map ch
  | .number conv width _ _ => numberText conv width (arg % 2 ^ 32)
  | .string => rd arg

/-- From argument `k` on. -/
def message (rd : Nat → List Byte) (args : Nat → Nat) : List Part → Nat → List Byte
  | [], _ => []
  | p :: ps, k => p.chars rd (args k) ++ message rd args ps (k + p.takes)

/-- The pointers among the arguments. -/
def stringArgs (args : Nat → Nat) : List Part → Nat → List Nat
  | [], _ => []
  | .string :: ps, k => args k :: stringArgs args ps (k + 1)
  | p :: ps, k => stringArgs args ps (k + p.takes)

section Message

variable {σ : Type} {K : Console σ} {W : Nat} {I : σ → Prop} {va va' va'' : VaList} {o o' o'' : Out σ}

/-- Every piece is handled, and this is what they make of the arguments and the console. -/
def Renders (K : Console σ) (W : Nat) (ps : List Piece) (i : Nat) (va : VaList) (o : Out σ) (va' : VaList)
    (o' : Out σ) : Prop :=
  AllHandled K W ps i va o ∧ renderAll K W ps va o = some (va', o')

theorem formatOf_cons (p : Piece) (ps : List Piece) : formatOf (p :: ps) = p.text ++ formatOf ps := rfl

theorem Renders.append {ps qs : List Piece} {i : Nat} (h : Renders K W ps i va o va' o')
    (h' : Renders K W qs (i + (formatOf ps).length) va' o' va'' o'') :
    Renders K W (ps ++ qs) i va o va'' o'' := by
  induction ps generalizing i va o with
  | nil =>
    cases h.2
    exact h'
  | cons p ps ih =>
    obtain ⟨hall, hr⟩ := h
    obtain ⟨r, hp, hrest⟩ := Option.bind_eq_some_iff.mp hr
    obtain ⟨hi, hhandled, hall'⟩ := hall r.1 r.2 hp
    rw [formatOf_cons, List.length_append, ← Nat.add_assoc] at h'
    have htail := ih ⟨hall', hrest⟩ h'
    refine ⟨fun va₁ o₁ hp₁ => ?_, ?_⟩
    · obtain rfl : r = (va₁, o₁) := Option.some.inj (hp.symm.trans hp₁)
      exact ⟨hi, hhandled, htail.1⟩
    · rw [List.cons_append, renderAll, hp]
      exact htail.2

theorem Renders.single {p : Piece} {i : Nat} (hi : i + p.text.length < 2 ^ 31) (h : p.Handled W va)
    (hr : p.render K W va o = some (va', o')) : Renders K W [p] i va o va' o' := by
  refine ⟨fun _ _ _ => ⟨hi, h, trivial⟩, ?_⟩
  rw [renderAll, hr]
  rfl

theorem renders_text {l : List Byte} (h : ∀ c ∈ l, c ≠ 0 ∧ c ≠ ch '%') {i : Nat}
    (hi : i + l.length < 2 ^ 31) : Renders K W (l.pmap Piece.literal h) i va o va (display K l o) := by
  induction l generalizing i o with
  | nil => exact ⟨trivial, rfl⟩
  | cons c l ih =>
    rw [List.length_cons] at hi
    have hhead : Renders K W [.literal c (h c List.mem_cons_self)] i va o va (displayCharacter K c o) :=
      Renders.single (by simp only [Piece.text, List.length_singleton]; omega) trivial rfl
    exact hhead.append (ih (fun c hc => h c (List.mem_cons_of_mem _ hc)) (by
      simp only [formatOf, List.flatMap_cons, List.flatMap_nil, Piece.text, List.append_nil,
        List.length_singleton]
      omega))

theorem va_arg_word (hW : W = 32 ∨ W = 64) (args : Nat → Nat) (k : Nat) :
    va_arg W 32 ⟨args, k⟩ = (args k % 2 ^ 32, ⟨args, k + 1⟩) ∧
      va_arg W W ⟨args, k⟩ = (args k % 2 ^ W, ⟨args, k + 1⟩) := by
  rcases hW with rfl | rfl <;> simp [va_arg]

/-! ## A number -/

theorem numeric_number {conv : IntConv} {width : List (Fin 10)} (hconv : conv.signed = false ∧ conv ≠ .x)
    (hwidth : width.head? ≠ some 0 ∧ (intOf 0 width).toNat ≤ 255) {v : BitVec 64} (hv : v.toNat < 2 ^ 32) :
    (numeric conv width hwidth.1).number conv.base v (intOf 0 width).toInt = numberText conv width v.toNat := by
  obtain ⟨hneg, hmag⟩ := magnitude_of_lt (show v.toNat < 2 ^ 63 by omega)
  have hb : 1 < conv.base.toNat ∧ conv.base.toNat ≤ 16 := by
    cases conv with
    | x => exact absurd rfl hconv.2
    | _ => decide
  have hplain : unpadded conv.base.toNat v false false = digitsText conv.base.toNat v.toNat := by
    rw [unpadded, signText, hneg, hmag]
    rfl
  have hint : (intOf 0 width).toInt = (intOf 0 width).toNat := BitVec.toInt_eq_toNat_of_lt (by omega)
  have hhas : (numeric conv width hwidth.1).has .plusSign = false ∧
      (numeric conv width hwidth.1).has .spaceNoSign = false ∧
      (numeric conv width hwidth.1).has .leftJustify = false ∧
      (numeric conv width hwidth.1).has .zeroPad = !width.isEmpty := by
    cases width <;> exact ⟨rfl, rfl, rfl, rfl⟩
  have hpad : ∀ n : Nat, List.replicate ((intOf 0 width).toInt - (n : Int)).toNat
      (if !width.isEmpty then ch '0' else ch ' ') = List.replicate ((intOf 0 width).toNat - n) (ch '0') := by
    intro n
    rw [hint, Int.toNat_sub]
    cases width with
    | nil => rw [show (intOf 0 []).toNat = 0 from rfl, Nat.zero_sub]; rfl
    | cons d ds => rfl
  rw [Conversion.number, hhas.1, hhas.2.1, hhas.2.2.1, hhas.2.2.2, hplain, padded, hpad, numberText]
  simp only [Bool.false_eq_true, if_false]
  rw [List.takeWhile_append_of_pos, digitsText_takeWhile hb.1 hb.2]
  intro c hc
  rw [List.eq_of_mem_replicate hc]
  decide

theorem renders_number (hW : W = 32 ∨ W = 64) {conv : IntConv} {width : List (Fin 10)}
    (hconv : conv.signed = false ∧ conv ≠ .x)
    (hwidth : width.head? ≠ some 0 ∧ (intOf 0 width).toNat ≤ 255) {args : Nat → Nat} {k i : Nat}
    (hi : i + (Piece.conv (numeric conv width hwidth.1)).text.length < 2 ^ 31) :
    Renders K W [.conv (numeric conv width hwidth.1)] i ⟨args, k⟩ o ⟨args, k + 1⟩
      (display K (numberText conv width (args k % 2 ^ 32)) o) := by
  have hlt : args k % 2 ^ 32 < 2 ^ 32 := Nat.mod_lt _ (Nat.two_pow_pos 32)
  have harg := (va_arg_word hW args k).1
  have hv : (BitVec.ofNat 64 (args k % 2 ^ 32)).toNat = args k % 2 ^ 32 := by
    rw [BitVec.toNat_ofNat, Nat.mod_eq_of_lt (by omega)]
  have hbounds := (radix_base conv).bounds
  have hint : (intOf 0 width).toInt = (intOf 0 width).toNat := BitVec.toInt_eq_toNat_of_lt (by omega)
  have hvalue : Length.none.value W conv.signed (args k % 2 ^ 32) = BitVec.ofNat 64 (args k % 2 ^ 32) := by
    rw [Length.value, hconv.1, if_neg Bool.false_ne_true]
  refine Renders.single hi ⟨Length.noConfusion, fun h => Length.noConfusion h.1, ?_⟩ ?_
  · show (numeric conv width hwidth.1).Printable conv.base
      (Length.none.value W conv.signed (va_arg W 32 ⟨args, k⟩).1) (intOf 0 width).toInt
    rw [harg, hvalue]
    refine ⟨?_, room_of_le (by omega) (by omega)⟩
    rw [(magnitude_of_lt (by omega)).2, hv]
    exact Nat.lt_of_lt_of_le hlt (two_pow_le_limit (by omega))
  · have hnone : (numeric conv width hwidth.1).prefixOf conv = [] := by
      cases width <;> cases conv <;> rfl
    have hnumber := numeric_number hconv hwidth (v := BitVec.ofNat 64 (args k % 2 ^ 32)) (by omega)
    rw [hv] at hnumber
    have hrender : (numeric conv width hwidth.1).render K W ⟨args, k⟩ o = some ((va_arg W 32 ⟨args, k⟩).2,
        display K ((numeric conv width hwidth.1).prefixOf conv ++ (numeric conv width hwidth.1).number conv.base
          (Length.none.value W conv.signed (va_arg W 32 ⟨args, k⟩).1) (intOf 0 width).toInt) o) := rfl
    rw [Piece.render, hrender, harg, hvalue, hnumber, hnone]
    rfl

/-! ## A string -/

theorem at_mod (m : Mem) (p : Nat) : m.at W (p % 2 ^ W) = m.at W p := by
  funext i
  rw [Mem.at, Mem.at, ptrAdd, ptrAdd, Nat.mod_add_mod]

theorem foldl_keeps (hputc : ∀ c t, I t → I (K.putc c t)) {t : σ} (hI : I t) (l : List Byte) :
    I (l.foldl (fun t c => K.putc c t) t) := by
  induction l generalizing t with
  | nil => exact hI
  | cons c l ih => exact ih (hputc c t hI)

theorem renders_string (hW : W = 32 ∨ W = 64) (hputc : ∀ c t, I t → I (K.putc c t)) (hI : I o.con)
    {args : Nat → Nat} {k i : Nat} {l : List Byte} (hl : l.length < 2 ^ W)
    (htext : ∀ t, I t → IsText ((K.mem t).at W (args k)) l) (hi : i + 2 < 2 ^ 31) :
    Renders K W [.conv bareString] i ⟨args, k⟩ o ⟨args, k + 1⟩ (display K l o) := by
  refine Renders.single hi trivial ?_
  have harg := (va_arg_word hW args k).2
  have hdisplay : displayString K W (args k % 2 ^ W) o = some (display K l o) := by
    let rd (o : Out σ) : CStr := (K.mem o.con).at W (args k)
    have htext' : ∀ o : Out σ, I o.con → IsText (rd o) l := fun o hI => htext o.con hI
    have h := (forEachChar_text (I := fun o : Out σ => I o.con) (f := displayCharacter K)
      (fun c o hI => hputc c o.con hI) htext' (i := 0) hI (Nat.zero_le _)
      (by rw [Nat.zero_add]; exact hl)).1
    rw [List.drop_zero] at h
    rw [displayString]
    simp only [at_mod]
    exact h
  have hrender : bareString.render K W ⟨args, k⟩ o =
      (displayString K W (va_arg W W ⟨args, k⟩).1 o).map fun o => ((va_arg W W ⟨args, k⟩).2, o) := rfl
  rw [Piece.render, hrender, harg, hdisplay]
  rfl

/-! ## The whole message -/

theorem display_append (l l' : List Byte) (o : Out σ) :
    display K (l ++ l') o = display K l' (display K l o) := List.foldl_append

theorem formatOf_pieces_cons (p : Part) (ps : List Part) :
    formatOf (pieces (p :: ps)) = formatOf p.pieces ++ formatOf (pieces ps) := by
  rw [pieces, List.flatMap_cons, formatOf, List.flatMap_append]
  rfl

theorem formatOf_pmap {l : List Byte} (h : ∀ c ∈ l, c ≠ 0 ∧ c ≠ ch '%') :
    formatOf (l.pmap Piece.literal h) = l := by
  induction l with
  | nil => rfl
  | cons c l ih => exact congrArg (c :: ·) (ih fun c hc => h c (List.mem_cons_of_mem _ hc))

theorem renders_message (hW : W = 32 ∨ W = 64) (hputc : ∀ c t, I t → I (K.putc c t)) {rd : Nat → List Byte}
    {args : Nat → Nat} : ∀ {ps : List Part} {k i : Nat} {o : Out σ}, I o.con →
      (∀ p ∈ stringArgs args ps k, (rd p).length < 2 ^ W ∧ ∀ t, I t → IsText ((K.mem t).at W p) (rd p)) →
      i + (formatOf (pieces ps)).length < 2 ^ 31 →
      ∃ k', Renders K W (pieces ps) i ⟨args, k⟩ o ⟨args, k'⟩ (display K (message rd args ps k) o)
  | [], k, i, o, _, _, _ => ⟨k, trivial, rfl⟩
  | p :: ps, k, i, o, hI, hs, hi => by
    rw [formatOf_pieces_cons, List.length_append] at hi
    have hhead : Renders K W p.pieces i ⟨args, k⟩ o ⟨args, k + p.takes⟩
        (display K (p.chars rd (args k)) o) := by
      cases p with
      | text l h =>
        refine renders_text h ?_
        rw [Part.pieces, formatOf_pmap] at hi
        omega
      | number conv width hconv hwidth =>
        refine renders_number hW hconv hwidth ?_
        rw [Part.pieces, formatOf_cons, List.length_append] at hi
        omega
      | string =>
        obtain ⟨hl, htext⟩ := hs (args k) List.mem_cons_self
        refine renders_string hW hputc hI hl htext ?_
        have hlen : (formatOf Part.string.pieces).length = 2 := rfl
        omega
    have hI' : I (display K (p.chars rd (args k)) o).con := by
      rw [display_con]
      exact foldl_keeps hputc hI _
    have hs' : ∀ q ∈ stringArgs args ps (k + p.takes),
        (rd q).length < 2 ^ W ∧ ∀ t, I t → IsText ((K.mem t).at W q) (rd q) := by
      intro q hq
      refine hs q ?_
      cases p with
      | string => exact List.mem_cons_of_mem _ hq
      | _ => exact hq
    obtain ⟨k', hrest⟩ := renders_message hW hputc hI' hs' (show
      i + (formatOf p.pieces).length + (formatOf (pieces ps)).length < 2 ^ 31 by omega)
    refine ⟨k', ?_⟩
    rw [message, display_append]
    exact hhead.append hrest

/-- **What `printf` prints.** -/
theorem printf_message (hW : W = 32 ∨ W = 64) (hputc : ∀ c t, I t → I (K.putc c t)) {rd : Nat → List Byte}
    {args : Nat → Nat} {ps : List Part} {t : σ} (hI : I t)
    (hs : ∀ p ∈ stringArgs args ps 0, (rd p).length < 2 ^ W ∧ ∀ t, I t → IsText ((K.mem t).at W p) (rd p))
    (hlen : (formatOf (pieces ps)).length < 2 ^ 31) :
    printf K W (strOf (formatOf (pieces ps))) args t =
      some ((message rd args ps 0).foldl (fun t c => K.putc c t) t) := by
  obtain ⟨k', hall, hrender⟩ := renders_message hW hputc (o := ⟨0, t⟩) hI hs
    (by rw [Nat.zero_add]; exact hlen)
  have hprint := ((follows_iff hW _ _ _).mpr hall).2 _ _ hrender
  rw [printf, hprint, Option.map_some, display_con]

theorem printf_numbers (hW : W = 32 ∨ W = 64) {ps : List Part} {format : List Char} {args : List Nat}
    (hf : formatOf (pieces ps) = format.map ch) (hlen : format.length < 2 ^ 31)
    (hs : stringArgs (fun i => args.getD i 0) ps 0 = []) (t : σ) :
    printf K W (lit format) (fun i => args.getD i 0) t =
      some ((message (fun _ => []) (fun i => args.getD i 0) ps 0).foldl (fun t c => K.putc c t) t) := by
  have hformat : lit format = strOf (formatOf (pieces ps)) := by
    rw [hf]
    rfl
  rw [hformat]
  refine printf_message (I := fun _ => True) hW (fun _ _ _ => trivial) trivial (fun p hp => ?_) ?_
  · rw [hs] at hp
    exact absurd hp List.not_mem_nil
  · rw [hf, List.length_map]
    exact hlen

end Message

/-- `%0<w>X` of a number of at most `w` digits. -/
def hexText (w n : Nat) : List Byte := (fixedDigits 16 w n).map digitChar

/-- `%02X` of any number. -/
def pairText (n : Nat) : List Byte := numberText .X [2] n

theorem numberText_hexText {width : List (Fin 10)} {w n : Nat} (hw : (intOf 0 width).toNat = w + 1)
    (hn : n < 16 ^ (w + 1)) : numberText .X width n = hexText (w + 1) n := by
  have hdigits := congrArg (List.map digitChar) (zeros_numeral (by decide : 1 < 16) hn)
  rw [List.map_append, List.map_replicate] at hdigits
  rw [hexText, ← hdigits, numberText, hw, show IntConv.X.base.toNat = 16 from rfl, digitsText, List.length_map]
  rfl

/-- The memory location `peek` prints. -/
example : message (fun _ => []) (fun i => [0xB8000, 0x41].getD i 0)
    [.number .X [8], .text [':', ' '], .number .X [2]] 0 =
      ['0', '0', '0', 'B', '8', '0', '0', '0', ':', ' ', '4', '1'].map ch := by
  decide +kernel

end Osdev2.Libk
