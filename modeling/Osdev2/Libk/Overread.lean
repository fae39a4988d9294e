import Osdev2.Libk.Reading
import Osdev2.Libk.Render
import Osdev2.Lib.Run

/-!
# What `vprintf` reads of its format

`Checked` is `vprintf` with the check its loop leaves to the caller: it stops at a
read behind the terminator. What a conversion displays does not matter here, and the
floating-point ones are any function.

A conversion is parsed up to the terminator and no further (`parseSpec_reads`), but
the loop's `++i` then steps over it. `in_format_iff`: the reads stay in the format,
and the loop ends at the terminator, exactly if no conversion that is reached is cut
off by it (`Cut`).
-/

namespace Osdev2.Libk

open Osdev2.Lib

/-! ## The checked loop -/

namespace Checked

def parseFlags (format : CStr) (n : Nat) : Nat → Nat → Spec → Reading (Spec × Nat)
  | 0, _, _ => Reading.of none
  | fuel + 1, i, sp => do
    let c ← read format n i
    if c = ch '-' then parseFlags format n fuel (i + 1) { sp with leftJustify := true }
    else if c = ch '+' then parseFlags format n fuel (i + 1) { sp with plusSign := true }
    else if c = ch '#' then parseFlags format n fuel (i + 1) { sp with altForm := true }
    else if c = ch ' ' then parseFlags format n fuel (i + 1) { sp with spaceNoSign := true }
    else if c = ch '0' then parseFlags format n fuel (i + 1) { sp with zeroPad := true }
    else Reading.of (some (sp, i))

def parseNumber (format : CStr) (n : Nat) : Nat → Nat → BitVec 32 → Reading (BitVec 32 × Nat)
  | 0, _, _ => Reading.of none
  | fuel + 1, i, v => do
    let c ← read format n i
    if isdigit c then parseNumber format n fuel (i + 1) (v * 10 + c.setWidth 32 - 48)
    else Reading.of (some (v, i))

def parseNumberOrStar (W : Nat) (format : CStr) (n i : Nat) (va : VaList) :
    Reading (BitVec 32 × Nat × VaList) := do
  let r ← parseNumber format n (2 ^ W) i 0
  let c ← read format n r.2
  if c = ch '*' then
    Reading.of (some (BitVec.ofNat 32 (va_arg W 32 va).1, r.2 + 1, (va_arg W 32 va).2))
  else Reading.of (some (r.1, r.2, va))

def parsePrecision (W : Nat) (format : CStr) (n i : Nat) (va : VaList) :
    Reading (BitVec 32 × Nat × VaList) := do
  let c ← read format n i
  if c = ch '.' then parseNumberOrStar W format n (i + 1) va else Reading.of (some (6, i, va))

def parseLength (format : CStr) (n i : Nat) : Reading (Byte × Nat) := do
  let c ← read format n i
  if c = ch 'h' ∨ c = ch 'l' ∨ c = ch 'j' ∨ c = ch 'z' ∨ c = ch 't' ∨ c = ch 'L' then
    let d ← read format n (i + 1)
    if d = ch 'h' then Reading.of (some (ch 'H', i + 1))
    else if d = ch 'l' then Reading.of (some (ch 'q', i + 1 + 1))
    else Reading.of (some (c, i + 1))
  else Reading.of (some (0, i))

def parseSpec (W : Nat) (format : CStr) (n i : Nat) (va : VaList) :
    Reading (Spec × Nat × VaList) := do
  let f ← parseFlags format n (2 ^ W) i {}
  let w ← parseNumberOrStar W format n f.2 va
  let p ← parsePrecision W format n w.2.1 w.2.2
  let len ← parseLength format n p.2.1
  let c ← read format n len.2
  Reading.of (some ({ f.1 with
    lengthSpec := w.1, precSpec := p.1, length := len.1, specifier := c }, len.2, p.2.2))

end Checked

section Loop

variable {σ : Type} (K : Console σ) (W : Nat) (float : Spec → VaList → Out σ → Option (VaList × Out σ))

/-- `convert`, with `float` for the floating-point conversions. -/
def convertWith (sp : Spec) (va : VaList) (o : Out σ) : Option (VaList × Out σ) :=
  if sp.specifier ∈ [ch 'e', ch 'E', ch 'f', ch 'F', ch 'g', ch 'G'] then float sp va o
  else convert K W sp va o

/-- The loop of `vprintf` on a format whose terminator is at `n`: the index it ends at, and the
output. -/
def Checked.vprintf (format : CStr) (n : Nat) : Nat → Nat → VaList → Out σ → Reading (Nat × Out σ)
  | 0, _, _, _ => Reading.of none
  | fuel + 1, i, va, o => do
    let c ← Checked.read format n i
    if c = 0 then Reading.of (some (i, o))
    else if c = ch '%' then do
      let r ← Checked.parseSpec W format n (i + 1) va
      let s ← Reading.of (convertWith K W float r.1 r.2.2 o)
      if r.2.1 + 1 < 2 ^ 31 then Checked.vprintf format n fuel (r.2.1 + 1) s.1 s.2
      else Reading.of none
    else if i + 1 < 2 ^ 31 then
      Checked.vprintf format n fuel (i + 1) va (displayCharacter K c o)
    else Reading.of none

/-- The body of that loop: the index of the last character it has taken, the arguments left, the
output. -/
def itemWith (format : CStr) (s : Nat × VaList × Out σ) : Option (Nat × VaList × Out σ) :=
  if format s.1 = ch '%' then
    (parseSpec W format (s.1 + 1) s.2.1).bind fun r =>
      (convertWith K W float r.1 r.2.2 s.2.2).map fun t => (r.2.1, t)
  else some (s.1, s.2.1, displayCharacter K (format s.1) s.2.2)

/-- One turn of it, unless it has ended. -/
def turnWith (format : CStr) (s : Nat × VaList × Out σ) : Option (Nat × VaList × Out σ) :=
  if format s.1 = 0 then none
  else (itemWith K W float format s).bind fun r =>
    if r.1 + 1 < 2 ^ 31 then some (r.1 + 1, r.2) else none

end Loop

/-! ## What is left of the text -/

def isFlag (c : Byte) : Bool := c ∈ [ch '-', ch '+', ch '#', ch ' ', ch '0']

/-- After the digits and the `*` of a width or a precision. -/
def afterNumber (l : List Byte) : List Byte :=
  match l.dropWhile isdigit with
  | [] => []
  | c :: l => if c = ch '*' then l else c :: l

def afterPrecision : List Byte → List Byte
  | [] => []
  | c :: l => if c = ch '.' then afterNumber l else c :: l

/-- After the length; of `hh` the second letter is left. -/
def afterLength : List Byte → List Byte
  | [] => []
  | c :: l =>
    if c ∈ [ch 'h', ch 'l', ch 'j', ch 'z', ch 't', ch 'L'] then
      match l with
      | [] => []
      | d :: l => if d = ch 'l' then l else d :: l
    else c :: l

/-- What stands behind the pieces of a conversion. -/
def afterSpec (l : List Byte) : List Byte :=
  afterLength (afterPrecision (afterNumber (l.dropWhile isFlag)))

/-- `l` is a `%` with flags, width, precision and length, and nothing more. -/
def Cut (l : List Byte) : Prop :=
  ∃ rest, l = ch '%' :: rest ∧ afterSpec rest = []

theorem afterNumber_length_le (l : List Byte) : (afterNumber l).length ≤ l.length := by
  have h := (List.dropWhile_suffix isdigit (l := l)).length_le
  unfold afterNumber
  split
  · exact Nat.zero_le _
  · rename_i c l' he
    rw [he, List.length_cons] at h
    split
    · omega
    · rw [List.length_cons]
      exact h

theorem afterPrecision_length_le (l : List Byte) : (afterPrecision l).length ≤ l.length := by
  cases l with
  | nil => exact Nat.le_refl 0
  | cons c l =>
    have h := afterNumber_length_le l
    rw [afterPrecision, List.length_cons]
    split
    · omega
    · exact Nat.le_refl _

theorem afterLength_length_le (l : List Byte) : (afterLength l).length ≤ l.length := by
  unfold afterLength
  split
  · exact Nat.le_refl _
  · split
    · split
      · exact Nat.zero_le _
      · split <;> simp only [List.length_cons] <;> omega
    · exact Nat.le_refl _

theorem afterSpec_length_le (l : List Byte) : (afterSpec l).length ≤ l.length :=
  calc (afterSpec l).length
      ≤ (afterPrecision (afterNumber (l.dropWhile isFlag))).length := afterLength_length_le _
    _ ≤ (afterNumber (l.dropWhile isFlag)).length := afterPrecision_length_le _
    _ ≤ (l.dropWhile isFlag).length := afterNumber_length_le _
    _ ≤ l.length := (List.dropWhile_suffix isFlag).length_le

/-! ## The parser stays in the text -/

/-- `y` is `x` with its reads checked, none of them behind the text `l`; `x` leaves the index
where `rest` stands. -/
structure Reads {α : Type} (l : List Byte) (y : Reading α) (x : Option α) (index : α → Nat)
    (rest : List Byte) : Prop where
  checked : y = Reading.of x
  stands : ∀ r, x = some r → index r ≤ l.length ∧ l.drop (index r) = rest

section Parser

variable {format : CStr} {l : List Byte} {i : Nat}

theorem parseFlags_round (hi : i ≤ l.length) (fuel : Nat) (sp : Spec) : ∃ sp',
    parseFlags format (fuel + 1) i sp =
        (if isFlag (format i) then parseFlags format fuel (i + 1) sp' else some (sp, i)) ∧
      Checked.parseFlags format l.length (fuel + 1) i sp =
        (if isFlag (format i) then Checked.parseFlags format l.length fuel (i + 1) sp'
          else Reading.of (some (sp, i))) := by
  rw [parseFlags, Checked.parseFlags, read_eq hi, of_bind]
  dsimp only
  unfold isFlag
  by_cases h1 : format i = ch '-'
  · exact ⟨_, by rw [h1]; rfl, by rw [h1]; rfl⟩
  by_cases h2 : format i = ch '+'
  · exact ⟨_, by rw [h2]; rfl, by rw [h2]; rfl⟩
  by_cases h3 : format i = ch '#'
  · exact ⟨_, by rw [h3]; rfl, by rw [h3]; rfl⟩
  by_cases h4 : format i = ch ' '
  · exact ⟨_, by rw [h4]; rfl, by rw [h4]; rfl⟩
  by_cases h5 : format i = ch '0'
  · exact ⟨_, by rw [h5]; rfl, by rw [h5]; rfl⟩
  · refine ⟨sp, ?_, ?_⟩ <;> simp [h1, h2, h3, h4, h5]

theorem Reads.here {α : Type} {a : α} {index : α → Nat} {rest : List Byte} (hi : index a ≤ l.length)
    (hd : l.drop (index a) = rest) : Reads l (Reading.of (some a)) (some a) index rest :=
  ⟨rfl, by rintro r ⟨⟩; exact ⟨hi, hd⟩⟩

/-- A loop that reads on while `p` holds, and so not behind the terminator. -/
theorem Reads.skip {σ : Type} {p : Byte → Bool} {x : Nat → Nat → σ → Option (σ × Nat)}
    {y : Nat → Nat → σ → Reading (σ × Nat)} (h : IsText format l) (hp : p 0 = false)
    (hzero : ∀ i v, x 0 i v = none ∧ y 0 i v = Reading.of none)
    (hround : ∀ fuel i v, i ≤ l.length → ∃ v',
      x (fuel + 1) i v = (if p (format i) then x fuel (i + 1) v' else some (v, i)) ∧
        y (fuel + 1) i v = (if p (format i) then y fuel (i + 1) v' else Reading.of (some (v, i)))) :
    ∀ {fuel i : Nat} {v : σ}, i ≤ l.length →
      Reads l (y fuel i v) (x fuel i v) Prod.snd ((l.drop i).dropWhile p)
  | 0, i, v, _ => by
    obtain ⟨e, e'⟩ := hzero i v
    rw [e, e']
    exact ⟨rfl, fun _ hr => by cases hr⟩
  | fuel + 1, i, v, hi => by
    obtain ⟨v', e, e'⟩ := hround fuel i v hi
    rw [e, e']
    rcases drop_cases h hi with ⟨h0, rfl, hdrop⟩ | ⟨hne, hlt, hdrop⟩
    · rw [h0, hp, if_neg Bool.false_ne_true, if_neg Bool.false_ne_true]
      exact Reads.here hi (by rw [hdrop]; rfl)
    · rw [hdrop]
      cases hc : p (format i) with
      | true =>
        rw [if_pos rfl, if_pos rfl, List.dropWhile_cons_of_pos hc]
        exact Reads.skip h hp hzero hround hlt
      | false =>
        rw [if_neg Bool.false_ne_true, if_neg Bool.false_ne_true,
          List.dropWhile_cons_of_neg (by rw [hc]; exact Bool.false_ne_true)]
        exact Reads.here hi hdrop

theorem parseFlags_reads (h : IsText format l) {fuel i : Nat} {sp : Spec} (hi : i ≤ l.length) :
    Reads l (Checked.parseFlags format l.length fuel i sp) (parseFlags format fuel i sp) Prod.snd
      ((l.drop i).dropWhile isFlag) :=
  Reads.skip h (by decide) (fun _ _ => ⟨rfl, rfl⟩) (fun fuel _ sp hi => parseFlags_round hi fuel sp) hi

theorem parseNumber_reads (h : IsText format l) {fuel i : Nat} {v : BitVec 32} (hi : i ≤ l.length) :
    Reads l (Checked.parseNumber format l.length fuel i v) (parseNumber format fuel i v) Prod.snd
      ((l.drop i).dropWhile isdigit) := by
  refine Reads.skip h (by decide) (fun _ _ => ⟨rfl, rfl⟩) (fun fuel i v hi => ?_) hi
  rw [parseNumber, Checked.parseNumber, read_eq hi, of_bind]
  exact ⟨_, rfl, rfl⟩

theorem Reads.bind {α β : Type} {y : Reading α} {x : Option α} {index : α → Nat} {rest rest' : List Byte}
    {g : α → Reading β} {f : α → Option β} {index' : β → Nat} (hx : Reads l y x index rest)
    (hf : ∀ a, index a ≤ l.length → l.drop (index a) = rest → Reads l (g a) (f a) index' rest') :
    Reads l (y >>= g) (x.bind f) index' rest' := by
  rw [hx.checked, of_bind]
  cases hxa : x with
  | none => exact ⟨rfl, nofun⟩
  | some a =>
    obtain ⟨hi, hd⟩ := hx.stands a hxa
    exact hf a hi hd

theorem parseNumberOrStar_reads {W : Nat} (h : IsText format l) (hi : i ≤ l.length) (va : VaList) :
    Reads l (Checked.parseNumberOrStar W format l.length i va) (parseNumberOrStar W format i va)
      (fun r => r.2.1) (afterNumber (l.drop i)) := by
  have heq : parseNumberOrStar W format i va = (parseNumber format (2 ^ W) i 0).bind fun r =>
      if format r.2 = ch '*' then
        some (BitVec.ofNat 32 (va_arg W 32 va).1, r.2 + 1, (va_arg W 32 va).2)
      else some (r.1, r.2, va) := rfl
  rw [heq]
  refine (parseNumber_reads h hi).bind fun r hr hd => ?_
  rw [read_eq hr, of_bind]
  dsimp only
  unfold afterNumber
  rw [← hd]
  rcases drop_cases h hr with ⟨h0, -, hdrop⟩ | ⟨-, hlt, hdrop⟩
  · rw [h0, if_neg (by decide), if_neg (by decide), hdrop]
    exact Reads.here hr hdrop
  · rw [hdrop]
    by_cases hstar : format r.2 = ch '*'
    · rw [if_pos hstar, if_pos hstar]
      dsimp only
      rw [if_pos hstar]
      exact Reads.here hlt rfl
    · rw [if_neg hstar, if_neg hstar]
      dsimp only
      rw [if_neg hstar]
      exact Reads.here hr hdrop

theorem parsePrecision_reads {W : Nat} (h : IsText format l) (hi : i ≤ l.length) (va : VaList) :
    Reads l (Checked.parsePrecision W format l.length i va)
      (if format i = ch '.' then parseNumberOrStar W format (i + 1) va else some (6, i, va))
      (fun r => r.2.1) (afterPrecision (l.drop i)) := by
  rw [Checked.parsePrecision, read_eq hi, of_bind]
  dsimp only
  rcases drop_cases h hi with ⟨h0, -, hdrop⟩ | ⟨-, hlt, hdrop⟩
  · rw [h0, if_neg (by decide), if_neg (by decide), hdrop]
    exact Reads.here hi hdrop
  · rw [hdrop, afterPrecision]
    by_cases hdot : format i = ch '.'
    · rw [if_pos hdot, if_pos hdot, if_pos hdot]
      exact parseNumberOrStar_reads h hlt va
    · rw [if_neg hdot, if_neg hdot, if_neg hdot]
      exact Reads.here hi hdrop

theorem parseLength_reads (h : IsText format l) (hi : i ≤ l.length) :
    Reads l (Checked.parseLength format l.length i) (some (parseLength format i)) Prod.snd
      (afterLength (l.drop i)) := by
  rw [Checked.parseLength, read_eq hi, of_bind, parseLength]
  dsimp only
  have hmem : format i ∈ [ch 'h', ch 'l', ch 'j', ch 'z', ch 't', ch 'L'] ↔ format i = ch 'h' ∨
      format i = ch 'l' ∨ format i = ch 'j' ∨ format i = ch 'z' ∨ format i = ch 't' ∨
        format i = ch 'L' := by
    simp only [List.mem_cons, List.not_mem_nil, or_false]
  rcases drop_cases h hi with ⟨h0, -, hdrop⟩ | ⟨-, hlt, hdrop⟩
  · rw [h0, if_neg (by decide), if_neg (by decide), hdrop]
    exact Reads.here hi hdrop
  · rw [hdrop, afterLength.eq_def]
    dsimp only
    by_cases hlen : format i ∈ [ch 'h', ch 'l', ch 'j', ch 'z', ch 't', ch 'L']
    · rw [if_pos hlen, if_pos (hmem.mp hlen), if_pos (hmem.mp hlen), read_eq hlt, of_bind]
      dsimp only
      rcases drop_cases h hlt with ⟨h0, -, hdrop'⟩ | ⟨-, hlt', hdrop'⟩
      · rw [h0, if_neg (by decide), if_neg (by decide), if_neg (by decide), if_neg (by decide), hdrop']
        exact Reads.here hlt hdrop'
      · rw [hdrop']
        dsimp only
        by_cases hh : format (i + 1) = ch 'h'
        · rw [if_pos hh, if_pos hh, hh, if_neg (by decide)]
          exact Reads.here hlt (by rw [hdrop', hh])
        · by_cases hl : format (i + 1) = ch 'l'
          · rw [if_neg hh, if_neg hh, if_pos hl, if_pos hl, if_pos hl]
            exact Reads.here hlt' rfl
          · rw [if_neg hh, if_neg hh, if_neg hl, if_neg hl, if_neg hl]
            exact Reads.here hlt hdrop'
    · rw [if_neg hlen, if_neg fun hor => hlen (hmem.mpr hor), if_neg fun hor => hlen (hmem.mpr hor)]
      exact Reads.here hi hdrop

/-- **One conversion stays in the text**, and stands at its terminator if it is cut off. -/
theorem parseSpec_reads {W : Nat} (h : IsText format l) (hi : i ≤ l.length) (va : VaList) :
    Reads l (Checked.parseSpec W format l.length i va) (parseSpec W format i va) (fun r => r.2.1)
      (afterSpec (l.drop i)) := by
  rw [parseSpec_eq, Checked.parseSpec]
  unfold afterSpec
  refine (parseFlags_reads h hi).bind fun f hf hd => ?_
  rw [← hd]
  refine (parseNumberOrStar_reads h hf va).bind fun w hw hd => ?_
  rw [← hd]
  refine (parsePrecision_reads h hw w.2.2).bind fun p hp hd => ?_
  rw [← hd]
  have hlen := parseLength_reads h hp
  rw [hlen.checked, of_bind]
  obtain ⟨hj, hd⟩ := hlen.stands _ rfl
  dsimp only
  rw [read_eq hj, of_bind]
  exact Reads.here hj hd

/-! ## The parser returns -/

theorem parseFlags_returns (h : IsText format l) : ∀ {fuel i : Nat} {sp : Spec}, i ≤ l.length →
    l.length < i + fuel → ∃ r, parseFlags format fuel i sp = some r
  | 0, _, _, hi, hf => absurd hf (by omega)
  | fuel + 1, i, sp, hi, hf => by
    obtain ⟨sp', e, -⟩ := parseFlags_round hi fuel sp
    rw [e]
    rcases drop_cases h hi with ⟨h0, -⟩ | ⟨-, hlt, -⟩
    · rw [h0, if_neg (by decide)]
      exact ⟨_, rfl⟩
    · split
      · exact parseFlags_returns h hlt (by omega)
      · exact ⟨_, rfl⟩

theorem parseNumber_returns (h : IsText format l) : ∀ {fuel i : Nat} {v : BitVec 32},
    i ≤ l.length → l.length < i + fuel → ∃ r, parseNumber format fuel i v = some r
  | 0, _, _, hi, hf => absurd hf (by omega)
  | fuel + 1, i, v, hi, hf => by
    rw [parseNumber]
    rcases drop_cases h hi with ⟨h0, -⟩ | ⟨-, hlt, -⟩
    · rw [h0, if_neg (by decide)]
      exact ⟨_, rfl⟩
    · split
      · exact parseNumber_returns h hlt (by omega)
      · exact ⟨_, rfl⟩

theorem parseNumberOrStar_returns {W : Nat} (h : IsText format l) (hi : i ≤ l.length)
    (hW : l.length < 2 ^ W) (va : VaList) : ∃ r, parseNumberOrStar W format i va = some r := by
  obtain ⟨r, hr⟩ := parseNumber_returns (v := 0) h hi (show l.length < i + 2 ^ W by omega)
  simp only [parseNumberOrStar, hr, Option.bind_eq_bind, Option.bind_some]
  split <;> exact ⟨_, rfl⟩

theorem parseSpec_returns {W : Nat} (h : IsText format l) (hi : i ≤ l.length) (hW : l.length < 2 ^ W)
    (va : VaList) : ∃ r, parseSpec W format i va = some r := by
  obtain ⟨f, hf⟩ : ∃ f, parseFlags format (2 ^ W) i {} = some f :=
    parseFlags_returns h hi (by omega)
  have hif := ((parseFlags_reads h hi).stands f hf).1
  obtain ⟨w, hw⟩ := parseNumberOrStar_returns h hif hW va
  have hiw := ((parseNumberOrStar_reads h hif va).stands w hw).1
  obtain ⟨p, hp⟩ : ∃ p, (if format w.2.1 = ch '.' then parseNumberOrStar W format (w.2.1 + 1) w.2.2
      else some (6, w.2.1, w.2.2)) = some p := by
    split
    · rename_i hdot
      have hlt := (drop_of_ne h hiw (by rw [hdot]; decide)).1
      exact parseNumberOrStar_returns h hlt hW w.2.2
    · exact ⟨_, rfl⟩
  rw [parseSpec_eq, hf, Option.bind_some, hw, Option.bind_some, hp]
  exact ⟨_, rfl⟩

theorem parseSpec_specifier {W : Nat} {va : VaList} {r : Spec × Nat × VaList}
    (h : parseSpec W format i va = some r) : r.1.specifier = format r.2.1 := by
  rw [parseSpec_eq] at h
  obtain ⟨f, -, h⟩ := Option.bind_eq_some_iff.mp h
  obtain ⟨w, -, h⟩ := Option.bind_eq_some_iff.mp h
  obtain ⟨p, -, h⟩ := Option.bind_eq_some_iff.mp h
  cases h
  rfl

/-- A conversion at `i`: cut off exactly if the parser leaves the terminator for its specifier. -/
theorem cut_iff {W : Nat} (h : IsText format l) (hi : i ≤ l.length) (hp : format i = ch '%')
    {va : VaList} {r : Spec × Nat × VaList} (hr : parseSpec W format (i + 1) va = some r) :
    i ≤ r.2.1 ∧ r.2.1 ≤ l.length ∧ (Cut (l.drop i) ↔ r.2.1 = l.length) := by
  obtain ⟨hlt, hdrop⟩ := drop_of_ne h hi (by rw [hp]; decide)
  obtain ⟨hj, hrest⟩ := (parseSpec_reads h hlt va).stands r hr
  have hle := afterSpec_length_le (l.drop (i + 1))
  rw [← hrest, List.length_drop, List.length_drop] at hle
  refine ⟨by omega, hj, ?_⟩
  rw [hdrop, hp]
  constructor
  · rintro ⟨rest, he, hnil⟩
    obtain ⟨-, rfl⟩ := List.cons.inj he
    rw [← hrest, List.drop_eq_nil_iff] at hnil
    exact Nat.le_antisymm hj hnil
  · intro hend
    exact ⟨_, rfl, by rw [← hrest, hend, List.drop_length]⟩

theorem not_cut {l : List Byte} {c : Byte} (hc : c ≠ ch '%') : ¬Cut (c :: l) := by
  rintro ⟨rest, he, -⟩
  exact hc (List.cons.inj he).1

end Parser

/-! ## The loop -/

section Loop

open StateTransition

variable {σ : Type} {K : Console σ} {W : Nat} {float : Spec → VaList → Out σ → Option (VaList × Out σ)}
  {format : CStr} {l : List Byte}

/-- No read is behind the terminator, and where the loop ends it is at it. -/
def Ends (l : List Byte) (y : Reading (Nat × Out σ)) : Prop :=
  ∃ r, y = Reading.of r ∧ ∀ s, r = some s → s.1 = l.length

/-- A conversion without specifier displays nothing and takes nothing. -/
theorem convertWith_nul {sp : Spec} (h : sp.specifier = 0) (va : VaList) (o : Out σ) :
    convertWith K W float sp va o = some (va, o) := by
  unfold convertWith convert
  rw [h]
  simp +decide only [if_false]

theorem ends_iff (hW : 32 ≤ W) (h : IsText format l) : ∀ {fuel i : Nat} {va : VaList} {o : Out σ},
    i ≤ l.length → i < 2 ^ 31 → 2 ^ 31 ≤ i + fuel →
      (Ends l (Checked.vprintf K W float format l.length fuel i va o) ↔
        ∀ s, Reaches (turnWith K W float format) (i, va, o) s →
          l.length + 1 < 2 ^ 31 → ¬Cut (l.drop s.1))
  | 0, _, _, _, _, hi, hf => absurd hf (by omega)
  | fuel + 1, i, va, o, hi, hi31, hf => by
    have hW2 : 2 ^ 32 ≤ 2 ^ W := Nat.pow_le_pow_right (by decide) hW
    rw [forall_reaches, Checked.vprintf, read_eq hi, of_bind, turnWith, itemWith]
    dsimp only
    have hnone : ∀ {α : Type} {P : α → Prop}, ∀ a, (none : Option α) = some a → P a :=
      fun a ha => absurd ha.symm (Option.some_ne_none a)
    have hends : Ends l (Reading.of (none : Option (Nat × Out σ))) := ⟨none, rfl, hnone⟩
    rcases drop_cases h hi with ⟨h0, hn, hdrop⟩ | ⟨hne, hlt, hdrop⟩
    · -- the terminator
      rw [if_pos h0, if_pos h0]
      refine iff_of_true ⟨_, rfl, by rintro s ⟨⟩; exact hn⟩ ⟨fun _ => ?_, hnone⟩
      rw [hdrop]
      rintro ⟨rest, he, -⟩
      cases he
    · rw [if_neg hne, if_neg hne]
      -- what is left after an item that ends at `j`
      have hnext : ∀ (j : Nat) (t : VaList × Out σ), i ≤ j → j ≤ l.length →
          (Ends l (if j + 1 < 2 ^ 31 then Checked.vprintf K W float format l.length fuel (j + 1) t.1 t.2
              else Reading.of none) ↔
            (l.length + 1 < 2 ^ 31 → ¬j = l.length) ∧
              ∀ s', (if j + 1 < 2 ^ 31 then some (j + 1, t) else none) = some s' →
                ∀ s, Reaches (turnWith K W float format) s' s →
                  l.length + 1 < 2 ^ 31 → ¬Cut (l.drop s.1)) := by
        intro j t hij hj
        by_cases hj31 : j + 1 < 2 ^ 31
        · rw [if_pos hj31]
          simp only [if_pos hj31, Option.some.injEq, forall_eq']
          rcases Nat.eq_or_lt_of_le hj with rfl | hjl
          · -- the `++i` leaves the text
            refine iff_of_false ?_ fun hc => hc.1 hj31 rfl
            obtain ⟨fuel, rfl⟩ : ∃ f, fuel = f + 1 := ⟨fuel - 1, by omega⟩
            rintro ⟨r, hr, -⟩
            rw [Checked.vprintf, Checked.read, if_neg (by omega)] at hr
            cases hr
          · rw [ends_iff hW h hjl hj31 (by omega)]
            exact (and_iff_right fun _ => Nat.ne_of_lt hjl).symm
        · rw [if_neg hj31, if_neg hj31]
          exact iff_of_true hends ⟨fun hlen => by omega, hnone⟩
      by_cases hp : format i = ch '%'
      · rw [if_pos hp, if_pos hp, (parseSpec_reads h hlt va).checked, of_bind]
        cases hs : parseSpec W format (i + 1) va with
        | none =>
          refine iff_of_true hends ⟨fun hlen => ?_, hnone⟩
          obtain ⟨r, hr⟩ := parseSpec_returns (W := W) h hlt (by omega) va
          rw [hr] at hs
          cases hs
        | some r =>
          obtain ⟨hij, hj, hcut⟩ := cut_iff h hi hp hs
          rw [hcut, Option.bind_some]
          dsimp only
          rw [of_bind]
          cases hc : convertWith K W float r.1 r.2.2 o with
          | none =>
            refine iff_of_true hends ⟨fun _ hend => ?_, hnone⟩
            have hspec : r.1.specifier = 0 := by
              rw [parseSpec_specifier hs, hend]
              exact h.nul
            rw [convertWith_nul hspec] at hc
            cases hc
          | some t => exact hnext r.2.1 t hij hj
      · rw [if_neg hp, if_neg hp, hdrop, Option.bind_some]
        have hskip := hnext i (va, displayCharacter K (format i) o) (Nat.le_refl i) hi
        rw [show ¬Cut (format i :: l.drop (i + 1)) ↔ ¬i = l.length from
          iff_of_true (not_cut hp) (by omega)]
        exact hskip

theorem convertWith_none : convertWith K W (fun _ _ _ => none) = convert K W := by
  funext sp va o
  unfold convertWith
  split
  · rename_i hmem
    simp only [List.mem_cons, List.not_mem_nil, or_false] at hmem
    unfold convert
    rcases hmem with h | h | h | h | h | h <;> rw [h] <;> simp +decide only [if_true, if_false]
  · rfl

/-- The checked loop is the loop, as far as it gets. -/
theorem vprintf_of_checked (h : IsText format l) : ∀ {fuel i : Nat} {va : VaList} {o : Out σ}
    {r : Option (Nat × Out σ)},
    Checked.vprintf K W (fun _ _ _ => none) format l.length fuel i va o = Reading.of r →
      vprintf K W format fuel i va o = r.map Prod.snd
  | 0, _, _, _, r, hr => by
    cases hr
    rfl
  | fuel + 1, i, va, o, r, hr => by
    rcases Nat.lt_or_ge l.length i with hlt | hi
    · rw [Checked.vprintf, Checked.read, if_neg (by omega)] at hr
      cases hr
    rw [Checked.vprintf, read_eq hi, of_bind, convertWith_none] at hr
    dsimp only at hr
    rw [vprintf, vprintf.turn, vprintf.item]
    rcases drop_cases h hi with ⟨h0, -, -⟩ | ⟨hne, hlt, -⟩
    · rw [if_pos h0] at hr ⊢
      cases hr
      rfl
    rw [if_neg hne] at hr ⊢
    by_cases hp : format i = ch '%'
    · rw [if_pos hp] at hr ⊢
      rw [(parseSpec_reads h hlt va).checked, of_bind] at hr
      cases hs : parseSpec W format (i + 1) va with
      | none =>
        rw [hs] at hr
        cases hr
        rfl
      | some q =>
        rw [hs] at hr
        dsimp only at hr
        rw [of_bind] at hr
        cases hc : convert K W q.1 q.2.2 o with
        | none =>
          rw [hc] at hr
          cases hr
          simp only [hc, Option.bind_eq_bind, Option.bind_some, Option.bind_none, Option.map_none]
        | some t =>
          rw [hc] at hr
          dsimp only at hr
          simp only [hc, Option.bind_eq_bind, Option.bind_some, Option.pure_def]
          split at hr
          · rename_i hj
            rw [if_pos hj]
            exact vprintf_of_checked h hr
          · rename_i hj
            rw [if_neg hj]
            cases hr
            rfl
    · rw [if_neg hp] at hr ⊢
      simp only [Option.bind_eq_bind, Option.bind_some, Option.pure_def]
      split at hr
      · rename_i hj
        rw [if_pos hj]
        exact vprintf_of_checked h hr
      · rename_i hj
        rw [if_neg hj]
        cases hr
        rfl

variable (K W float) in
/-- `vprintf` reads `format[0..strlen(format)]` only, and where it ends it is at the terminator. -/
def InFormat (format : CStr) (l : List Byte) (va : VaList) (o : Out σ) : Prop :=
  Ends l (Checked.vprintf K W float format l.length (2 ^ W) 0 va o)

/-- **Over-read.** For every format, whatever its conversions display: no turn starts at a
conversion that the terminator cuts off, in a format an `int` can index. -/
theorem in_format_iff (hW : 32 ≤ W) (h : IsText format l) (va : VaList) (o : Out σ) :
    InFormat K W float format l va o ↔
      ∀ s, Reaches (turnWith K W float format) (0, va, o) s →
        l.length + 1 < 2 ^ 31 → ¬Cut (l.drop s.1) := by
  have hW2 : 2 ^ 32 ≤ 2 ^ W := Nat.pow_le_pow_right (by decide) hW
  exact ends_iff hW h (Nat.zero_le _) (by decide) (by omega)

end Loop

theorem in_format_iff_d : InFormat recorder 32 (fun _ _ _ => none) (strOf [ch '%', ch 'd'])
    [ch '%', ch 'd'] ⟨fun _ => 5, 0⟩ ⟨0, []⟩ ↔
      ∀ s, StateTransition.Reaches (turnWith recorder 32 (fun _ _ _ => none) (strOf [ch '%', ch 'd']))
        (0, ⟨fun _ => 5, 0⟩, ⟨0, []⟩) s →
          [ch '%', ch 'd'].length + 1 < 2 ^ 31 → ¬Cut ([ch '%', ch 'd'].drop s.1) :=
  in_format_iff (by decide) (isText_strOf (by decide)) _ _

/-- `5%-08l`: the byte behind the terminator is read. -/
theorem in_format_not : ¬InFormat recorder 32 (fun _ _ _ => none)
    (strOf [ch '5', ch '%', ch '-', ch '0', ch '8', ch 'l'])
    [ch '5', ch '%', ch '-', ch '0', ch '8', ch 'l'] ⟨fun _ => 0, 0⟩ ⟨0, []⟩ := by
  have htext : IsText (strOf [ch '5', ch '%', ch '-', ch '0', ch '8', ch 'l']) _ :=
    isText_strOf (by decide)
  intro h
  refine (ends_iff (by decide) htext (Nat.zero_le _) (by decide) (by decide)).mp h
    (1, ⟨fun _ => 0, 0⟩, ⟨1, [ch '5']⟩) ?_ (by decide) ⟨_, rfl, by decide⟩
  exact Relation.ReflTransGen.single rfl

end Osdev2.Libk
