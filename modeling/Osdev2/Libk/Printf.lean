import Osdev2.Libk.Str

/-!
# libk: `printf`

`libk/stdio/printf.c` without its floating-point conversions, over any console:
`Console σ` is what `vprintf` needs of the machine it runs on. Local arrays are
`CStr` functions, written by `Function.update`. A conversion is parsed (`Spec`,
one function per piece of the grammar) and then emitted (`convert`).

`none` is a loop that never ends (a string without a NUL, and the doubling loop
of `divmod_u64` once its 32-bit divisor has been shifted out) or a step C gives no
meaning (a write past an array, an `int` index past its maximum).
-/

namespace Osdev2.Libk

open Osdev2.Lib

def isdigit (c : Byte) : Bool := 48 ≤ c.toNat ∧ c.toNat ≤ 57

/-! ## Numbers -/

/-- Shift `b` until it is just less than or equal to `n`. After 32 shifts the
32-bit `base` is 0, and the loop never ends. -/
def scaleUp (n : BitVec 64) : Nat → BitVec 32 → BitVec 64 → Option (BitVec 32 × BitVec 64)
  | 0, _, _ => none
  | fuel + 1, base, b =>
    if base.toNat ≤ (n >>> 1).toNat then scaleUp n fuel (base <<< 1) (b <<< 1) else some (base, b)

/-- The halving loop: the quotient and what is left of `n`. A 64-bit `b` is
shifted out after 64 rounds. -/
def scaleDown : Nat → BitVec 64 → BitVec 64 → BitVec 32 → BitVec 64 → BitVec 64 × BitVec 64
  | 0, n, result, _, _ => (result, n)
  | fuel + 1, n, result, base, b =>
    if b = 0 then (result, n)
    else if base.toNat ≤ n.toNat then
      scaleDown fuel (n - base.setWidth 64) (result + b) (base >>> 1) (b >>> 1)
    else scaleDown fuel n result (base >>> 1) (b >>> 1)

/-- The new `*num`, and the remainder returned. -/
def divmod_u64 (num : BitVec 64) (base : BitVec 32) : Option (BitVec 64 × BitVec 32) := do
  let (base, b) ← scaleUp num 64 base 1
  let (result, n) := scaleDown 64 num 0 base b
  return (result, n.setWidth 32)

/-- `a[i] = c` in an array of `size` bytes. -/
def writeAt (size : Nat) (a : CStr) (i : Nat) (c : Byte) : Option CStr :=
  if i < size then some (Function.update a i c) else none

/-- `buf[i++] = c` in the digit buffer. -/
def appendTo (buf : CStr) (i : Nat) (c : Byte) : Option (CStr × Nat) :=
  (writeAt 65 buf i c).map fun buf => (buf, i + 1)

/-- `do … while (n)`: the digits in reverse order and their number. -/
def reverseDigits (base : BitVec 32) : Nat → BitVec 64 → CStr → Nat → Option (CStr × Nat)
  | 0, _, _, _ => none
  | fuel + 1, n, buf, i => do
    let (n, rem) ← divmod_u64 n base
    let digits := lit ['0', '1', '2', '3', '4', '5', '6', '7', '8', '9', 'A', 'B', 'C', 'D', 'E', 'F']
    let (buf, i) ← appendTo buf i (digits rem.toNat)
    if n = 0 then return (buf, i) else reverseDigits base fuel n buf i

/-- The sign goes behind the digits. -/
def appendSign (negative plusSignIfNeeded spaceSignIfNeeded : Bool) (buf : CStr) (i : Nat) :
    Option (CStr × Nat) :=
  if negative then appendTo buf i (ch '-')
  else if plusSignIfNeeded then appendTo buf i (ch '+')
  else if spaceSignIfNeeded then appendTo buf i (ch ' ')
  else some (buf, i)

/-- `src` copied over `dest`, 256 bytes, from offset `off` on, its NUL included. -/
def strcpy (dest src : CStr) (off : Nat) : Nat → Nat → Option CStr
  | 0, _ => none
  | fuel + 1, i => do
    let dest ← writeAt 256 dest (off + i) (src i)
    if src i = 0 then return dest else strcpy dest src off fuel (i + 1)

/-- The padding loops: `c` from offset `off` on, in 256 bytes. -/
def fillPad (dest : CStr) (off : Nat) (c : Byte) : Nat → Option CStr
  | 0 => some dest
  | k + 1 => do
    let dest ← fillPad dest off c k
    writeAt 256 dest (off + k) c

/-- The reversing loop, into 256 bytes. -/
def reverseInto (b buf : CStr) (i : Nat) : Nat → Option CStr
  | 0 => some b
  | j + 1 => do
    let b ← reverseInto b buf i j
    writeAt 256 b j (buf (i - j - 1))

/-- `__int_str`, for a caller's array `b` of 256 bytes. `pad` is an `int`. -/
def int_str (W : Nat) (value : BitVec 64) (b : CStr) (base : BitVec 32)
    (plusSignIfNeeded spaceSignIfNeeded : Bool) (paddingNo : Int) (justify zeroPad : Bool) :
    Option CStr := do
  let negative := value.slt 0
  let n := if negative then -value else value
  let (buf, i) ← reverseDigits base 65 n (fun _ => 0) 0
  let (buf, i) ← appendSign negative plusSignIfNeeded spaceSignIfNeeded buf i
  let b ← reverseInto b buf i i
  let b ← writeAt 256 b i 0
  let pad := (paddingNo - i).bmod (2 ^ 32)
  let c := if zeroPad then ch '0' else ch ' '
  if 0 < pad then
    if justify then
      let b ← fillPad b i c pad.toNat
      writeAt 256 b (i + pad.toNat) 0
    else
      let tmp ← fillPad (fun _ => 0) 0 c pad.toNat
      let tmp ← strcpy tmp b pad.toNat (2 ^ W) 0
      strcpy b tmp 0 (2 ^ W) 0
  else return b

/-! ## Arguments -/

/-- The words of the argument area, `W` bits each, and the next one to read. -/
structure VaList where
  words : Nat → Nat
  pos : Nat

/-- `va_arg` of a type of `bits` bits: as many words as it fills. -/
def va_arg (W bits : Nat) (va : VaList) : Nat × VaList :=
  let k := (bits + W - 1) / W
  let v := (List.range k).foldr (fun j v => va.words (va.pos + j) + 2 ^ W * v) 0
  (v % 2 ^ bits, { va with pos := va.pos + k })

/-! ## The grammar of a conversion -/

structure Spec where
  leftJustify : Bool := false
  zeroPad : Bool := false
  spaceNoSign : Bool := false
  altForm : Bool := false
  plusSign : Bool := false
  lengthSpec : BitVec 32 := 0
  precSpec : BitVec 32 := 0
  length : Byte := 0
  specifier : Byte := 0

def parseFlags (format : CStr) : Nat → Nat → Spec → Option (Spec × Nat)
  | 0, _, _ => none
  | fuel + 1, i, sp =>
    let c := format i
    if c = ch '-' then parseFlags format fuel (i + 1) { sp with leftJustify := true }
    else if c = ch '+' then parseFlags format fuel (i + 1) { sp with plusSign := true }
    else if c = ch '#' then parseFlags format fuel (i + 1) { sp with altForm := true }
    else if c = ch ' ' then parseFlags format fuel (i + 1) { sp with spaceNoSign := true }
    else if c = ch '0' then parseFlags format fuel (i + 1) { sp with zeroPad := true }
    else some (sp, i)

/-- The digits of a width or precision, added to `n` in `int` arithmetic. -/
def parseNumber (format : CStr) : Nat → Nat → BitVec 32 → Option (BitVec 32 × Nat)
  | 0, _, _ => none
  | fuel + 1, i, n =>
    if isdigit (format i) then
      parseNumber format fuel (i + 1) (n * 10 + (format i).setWidth 32 - 48)
    else some (n, i)

/-- Digits, then `*`. -/
def parseNumberOrStar (W : Nat) (format : CStr) (i : Nat) (va : VaList) :
    Option (BitVec 32 × Nat × VaList) := do
  let (n, i) ← parseNumber format (2 ^ W) i 0
  if format i = ch '*' then
    let (v, va) := va_arg W 32 va
    return (BitVec.ofNat 32 v, i + 1, va)
  else return (n, i, va)

def parseLength (format : CStr) (i : Nat) : Byte × Nat :=
  let c := format i
  if c = ch 'h' ∨ c = ch 'l' ∨ c = ch 'j' ∨ c = ch 'z' ∨ c = ch 't' ∨ c = ch 'L' then
    let i := i + 1
    if format i = ch 'h' then (ch 'H', i)
    else if format i = ch 'l' then (ch 'q', i + 1)
    else (c, i)
  else (0, i)

/-- From after the `%`: the conversion, and the index of its specifier. -/
def parseSpec (W : Nat) (format : CStr) (i : Nat) (va : VaList) : Option (Spec × Nat × VaList) := do
  let (sp, i) ← parseFlags format (2 ^ W) i {}
  let (width, i, va) ← parseNumberOrStar W format i va
  let (prec, i, va) ←
    if format i = ch '.' then parseNumberOrStar W format (i + 1) va else some (6, i, va)
  let (len, i) := parseLength format i
  return ({ sp with lengthSpec := width, precSpec := prec, length := len, specifier := format i },
    i, va)

/-! ## Emitting -/

/-- What `vprintf` asks of its machine: memory to read strings from, `putc`, and
the store of a byte (`%n`). -/
structure Console (σ : Type) where
  mem : σ → Mem
  putc : Byte → σ → σ
  store : Nat → Byte → σ → σ

/-- The machine and the count of displayed characters, an `int` that has no bound here. -/
structure Out (σ : Type) where
  chars : Nat
  con : σ

section Emit

variable {σ : Type} (K : Console σ) (W : Nat)

def displayCharacter (c : Byte) (o : Out σ) : Out σ := ⟨o.chars + 1, K.putc c o.con⟩

/-- `displayString` of a local array. The index, an `int`, has no bound here either. -/
def displayArray (c : CStr) (o : Out σ) : Option (Out σ) :=
  forEachChar (fun _ => c) (displayCharacter K) (2 ^ W) 0 o

/-- `displayString` of a string in memory, its index as above. -/
def displayString (p : Nat) (o : Out σ) : Option (Out σ) :=
  forEachChar (fun o : Out σ => (K.mem o.con).at W p) (displayCharacter K) (2 ^ W) 0 o

/-- The argument of a `u`, `o`, `x`, `X` or `p` conversion as an `intmax_t`. -/
def unsignedArg (length : Byte) (va : VaList) : Option (BitVec 64 × VaList) :=
  if length = 0 ∨ length = ch 't' then
    let (v, va) := va_arg W 32 va
    some (BitVec.ofNat 64 v, va)
  else if length = ch 'H' then
    let (v, va) := va_arg W 32 va
    some ((BitVec.ofNat 8 v).setWidth 64, va)
  else if length = ch 'h' then
    let (v, va) := va_arg W 32 va
    some ((BitVec.ofNat 16 v).setWidth 64, va)
  else if length = ch 'l' ∨ length = ch 'q' ∨ length = ch 'j' then
    let (v, va) := va_arg W 64 va
    some (BitVec.ofNat 64 v, va)
  else if length = ch 'z' then
    -- `size_t` is a signed long here
    let (v, va) := va_arg W W va
    some ((BitVec.ofNat W v).signExtend 64, va)
  else none

/-- The argument of a `d` or `i` conversion as an `intmax_t`. -/
def signedArg (length : Byte) (va : VaList) : Option (BitVec 64 × VaList) :=
  if length = 0 then
    let (v, va) := va_arg W 32 va
    some ((BitVec.ofNat 32 v).signExtend 64, va)
  else if length = ch 'H' then
    let (v, va) := va_arg W 32 va
    some ((BitVec.ofNat 8 v).signExtend 64, va)
  else if length = ch 'h' then
    let (v, va) := va_arg W 32 va
    some ((BitVec.ofNat 16 v).signExtend 64, va)
  else if length = ch 'l' ∨ length = ch 'z' then
    let (v, va) := va_arg W W va
    some ((BitVec.ofNat W v).signExtend 64, va)
  else if length = ch 'q' ∨ length = ch 'j' then
    let (v, va) := va_arg W 64 va
    some (BitVec.ofNat 64 v, va)
  else if length = ch 't' then
    let (v, va) := va_arg W 32 va
    some (BitVec.ofNat 64 v, va)
  else none

/-- The bytes a `%n` stores, by length modifier. -/
def countBytes (length : Byte) : Option Nat :=
  if length = ch 'H' then some 1
  else if length = ch 'h' then some 2
  else if length = 0 ∨ length = ch 't' then some 4
  else if length = ch 'l' ∨ length = ch 'z' then some (W / 8)
  else if length = ch 'q' ∨ length = ch 'j' then some 8
  else none

/-- The low `n` bytes of the count, stored at `p`. -/
def storeCount (p chars : Nat) (t : σ) : Nat → σ
  | 0 => t
  | j + 1 => K.store (ptrAdd W p j) (BitVec.ofNat 8 (chars / 256 ^ j)) (storeCount p chars t j)

def displayInt (sp : Spec) (base : BitVec 32) (v : BitVec 64) (o : Out σ) : Option (Out σ) := do
  let s ← int_str W v (fun _ => 0) base sp.plusSign sp.spaceNoSign sp.lengthSpec.toInt
    sp.leftJustify sp.zeroPad
  displayArray K W s o

/-- The digits of an unsigned conversion in `base`. -/
def displayUnsigned (sp : Spec) (base : BitVec 32) (length : Byte) (va : VaList) (o : Out σ) :
    Option (VaList × Out σ) :=
  match unsignedArg W length va with
  | none => some (va, o)
  | some (v, va) => (displayInt K W sp base v o).map fun o => (va, o)

/-- The `switch` on the specifier. A floating-point conversion is outside the
model. -/
def convert (sp : Spec) (va : VaList) (o : Out σ) : Option (VaList × Out σ) :=
  let c := sp.specifier
  if c = ch 'o' then do
    let o ← if sp.altForm then displayArray K W (lit ['0']) o else some o
    displayUnsigned K W sp 8 sp.length va o
  else if c = ch 'p' then displayUnsigned K W sp 16 (ch 'z') va o
  else if c = ch 'u' then displayUnsigned K W sp 10 sp.length va o
  else if c = ch 'X' ∨ c = ch 'x' then do
    let o ← if sp.altForm then displayArray K W (lit ['0', 'x']) o else some o
    displayUnsigned K W sp (if c = ch 'X' then 16 else 17) sp.length va o
  else if c = ch 'd' ∨ c = ch 'i' then
    match signedArg W sp.length va with
    | none => some (va, o)
    | some (v, va) => (displayInt K W sp 10 v o).map fun o => (va, o)
  else if c = ch 'c' then
    let (v, va) := va_arg W 32 va
    some (va, displayCharacter K (BitVec.ofNat 8 v) o)
  else if c = ch 's' then
    let (p, va) := va_arg W W va
    (displayString K W p o).map fun o => (va, o)
  else if c = ch 'n' then
    match countBytes W sp.length with
    | none => some (va, o)
    | some n =>
      let (p, va) := va_arg W W va
      some (va, { o with con := storeCount K W p o.chars o.con n })
  else if c = ch 'e' ∨ c = ch 'E' ∨ c = ch 'f' ∨ c = ch 'F' ∨ c = ch 'g' ∨ c = ch 'G' then none
  else some (va, o)

/-- The body of the loop at index `i`: the index of the last character it has taken, the
arguments left, the output. -/
def vprintf.item (format : CStr) (i : Nat) (va : VaList) (o : Out σ) :
    Option (Nat × VaList × Out σ) :=
  if format i = ch '%' then do
    let (sp, i, va) ← parseSpec W format (i + 1) va
    let (va, o) ← convert K W sp va o
    return (i, va, o)
  else some (i, va, displayCharacter K (format i) o)

/-- The body, then `++i` on an `int`. -/
def vprintf.turn (format : CStr) (i : Nat) (va : VaList) (o : Out σ) :
    Option (Nat × VaList × Out σ) := do
  let (i, va, o) ← vprintf.item K W format i va o
  if i + 1 < 2 ^ 31 then return (i + 1, va, o) else none

def vprintf (format : CStr) : Nat → Nat → VaList → Out σ → Option (Out σ)
  | 0, _, _, _ => none
  | fuel + 1, i, va, o =>
    if format i = 0 then some o
    else do
      let (i, va, o) ← vprintf.turn K W format i va o
      vprintf format fuel i va o

section Turn

variable {K W} {format : CStr} {i j : Nat} {va va' : VaList} {o : Out σ} {sp : Spec}

theorem turn_lit (h : format i ≠ ch '%') (hi : i + 1 < 2 ^ 31) :
    vprintf.turn K W format i va o = some (i + 1, va, displayCharacter K (format i) o) := by
  rw [vprintf.turn, vprintf.item, if_neg h]
  exact if_pos hi

theorem turn_conv (hp : format i = ch '%')
    (hs : parseSpec W format (i + 1) va = some (sp, j, va')) (hj : j + 1 < 2 ^ 31) :
    vprintf.turn K W format i va o =
      (convert K W sp va' o).map fun r => (j + 1, r.1, r.2) := by
  rw [vprintf.turn, vprintf.item, if_pos hp, hs]
  simp only [Option.bind_eq_bind, Option.bind_some]
  cases convert K W sp va' o with
  | none => rfl
  | some r => exact if_pos hj

/-- Past `INT_MAX` the index has no next value. -/
theorem turn_index {r : Nat × VaList × Out σ} (h : vprintf.turn K W format i va o = some r) :
    r.1 < 2 ^ 31 := by
  obtain ⟨x, -, hx⟩ := Option.bind_eq_some_iff.mp h
  dsimp only at hx
  split at hx
  · rename_i hi
    cases hx
    exact hi
  · cases hx

end Turn

/-- `printf` on the argument words `args`. -/
def printf (format : CStr) (args : Nat → Nat) (t : σ) : Option σ :=
  (vprintf K W format (2 ^ W) 0 ⟨args, 0⟩ ⟨0, t⟩).map Out.con

end Emit

end Osdev2.Libk
