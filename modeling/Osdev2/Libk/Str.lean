import Osdev2.Libk.Mem

/-!
# libk: strings

The string functions of `libk/string`, over what their pointers read (`CStr`).
Those that return a pointer into a string return its offset. A delimiter set is
the list of its characters. Each scan but `strlen`'s has the fuel of the `W`-bit
address space (`Lib/Memory.lean`), and `none` is a loop that finds no end.
-/

namespace Osdev2.Libk

open Osdev2.Lib

def ISUPPER (c : Int) : Bool := 64 < c ∧ c < 91
def ISALPHA (c : Int) : Bool := (64 < c ∧ c < 91) ∨ (96 < c ∧ c < 123)
def ISDIGIT (c : Int) : Bool := 47 < c ∧ c < 58
def ISSPACE (c : Int) : Bool := (8 < c ∧ c < 14) ∨ c = 32

/-- `len` is a `size_t`, a signed type of `W` bits, and `none` where it overflows. -/
def strlen (W : Nat) (str : CStr) : Option Nat := scan (fun c => c == 0) str (2 ^ (W - 1)) 0

/-- The length of the prefix of characters in `accept`. -/
def strspn (W : Nat) (s : CStr) (accept : List Byte) : Option Nat :=
  scan (fun c => c == 0 || !accept.contains c) s (2 ^ W) 0

/-- The first character in `accept`; `some none` is NULL. -/
def strpbrk (W : Nat) (s : CStr) (accept : List Byte) : Option (Option Nat) := do
  let i ← scan (fun c => c == 0 || accept.contains c) s (2 ^ W) 0
  return if s i = 0 then none else some i

def strchr (W : Nat) (s : CStr) (c : Byte) : Option (Option Nat) := do
  let i ← scan (fun b => b == c || b == 0) s (2 ^ W) 0
  return if s i = c then some i else none

/-- The loop advances while the strings agree and have not ended. -/
def strcmp.go (s1 s2 : CStr) : Nat → Nat → Option Int
  | 0, _ => none
  | fuel + 1, i =>
    if s1 i = s2 i then
      if s1 i = 0 then some 0 else strcmp.go s1 s2 fuel (i + 1)
    else some (((s1 i).toNat : Int) - (s2 i).toNat)

def strcmp (W : Nat) (s1 s2 : CStr) : Option Int := strcmp.go s1 s2 (2 ^ W) 0

/-- The token (0 is NULL), the new `olds`, and the memory. -/
structure Token where
  token : Nat
  olds : Nat
  mem : Mem

def strtok (W : Nat) (s : Nat) (delim : List Byte) (olds : Nat) (m : Mem) : Option Token := do
  let s := if s = 0 then olds else s
  let s := ptrAdd W s (← strspn W (m.at W s) delim)
  if m s = 0 then
    return ⟨0, s, m⟩
  let token := s
  match ← strpbrk W (m.at W token) delim with
  | none =>
    let e ← strchr W (m.at W token) 0
    return ⟨token, ptrAdd W token (e.getD 0), m⟩
  | some k =>
    let s := ptrAdd W token k
    return ⟨token, ptrAdd W s 1, Function.update m s 0⟩

/-! ## `strtoul` -/

/-- The character read last, the offset of the next, and `any`, `acc`. -/
structure Digits where
  c : Int
  s : Nat
  any : Int
  acc : Nat

/-- The value of a digit or letter. -/
def digit (c : Int) : Option Int :=
  if ISDIGIT c then some (c - 48)
  else if ISALPHA c then some (c - if ISUPPER c then 55 else 87)
  else none

/-- The digit loop, from `c` with `s` the offset of the character after it. -/
def strtoul.go (W : Nat) (nptr : CStr) (base : Nat) (cutoff cutlim : Nat) :
    Nat → Digits → Option Digits
  | 0, _ => none
  | fuel + 1, d =>
    match digit d.c with
    | none => some d
    | some c =>
      if (base : Int) ≤ c then some { d with c := c }
      else
        let d' : Digits :=
          if d.any < 0 ∨ cutoff < d.acc ∨ (d.acc = cutoff ∧ (cutlim : Int) < c) then
            { d with any := -1 }
          else { d with any := 1, acc := (d.acc * base + c.toNat) % 2 ^ W }
        strtoul.go W nptr base cutoff cutlim fuel
          { d' with c := (nptr d.s).toNat, s := d.s + 1 }

/-- The value, and the offset `*endptr` is set to. -/
def strtoul (W : Nat) (nptr : CStr) (base : Nat) : Option (Nat × Nat) := do
  let ULONG_MAX := 2 ^ W - 1
  let i ← scan (fun c => !ISSPACE c.toNat) nptr (2 ^ W) 0
  let c := nptr i
  let s := i + 1
  let neg := c == ch '-'
  let (c, s) := if c = ch '-' ∨ c = ch '+' then (nptr s, s + 1) else (c, s)
  let (c, s, base) :=
    if (base = 0 ∨ base = 16) ∧ c = ch '0' ∧ (nptr s = ch 'x' ∨ nptr s = ch 'X') then
      (nptr (s + 1), s + 2, 16)
    else (c, s, base)
  let base := if base = 0 then (if c = ch '0' then 8 else 10) else base
  let d ← strtoul.go W nptr base (ULONG_MAX / base) (ULONG_MAX % base) (2 ^ W)
    ⟨c.toNat, s, 0, 0⟩
  let acc := if d.any < 0 then ULONG_MAX else if neg then (2 ^ W - d.acc) % 2 ^ W else d.acc
  return (acc, if d.any ≠ 0 then d.s - 1 else 0)

/-! ## `strlen` -/

section Strlen

variable {W : Nat} {s : CStr} {l : List Byte}

theorem strlen_text (h : IsText s l) (hl : l.length < 2 ^ (W - 1)) : strlen W s = some l.length :=
  scan_end h rfl (fun _ => beq_false_of_ne) hl

theorem strlen_none (h : IsText s l) (hl : 2 ^ (W - 1) ≤ l.length) : strlen W s = none :=
  scan_none fun _ hj => beq_false_of_ne (h.ne_zero (by omega))

end Strlen

/-! ## `strpbrk` returns -/

theorem strpbrk_returns {W n : Nat} {s : CStr} {accept : List Byte} (hn : n < 2 ^ W) (h : s n = 0) :
    ∃ r, strpbrk W s accept = some r ∧ ∀ k, r = some k → k < n ∧ s k ≠ 0 := by
  obtain ⟨k, hk, e⟩ : ∃ k, k ≤ n ∧ scan (fun c => c == 0 || accept.contains c) s (2 ^ W) 0 = some k :=
    scan_returns (Nat.zero_le n) (by omega) (by rw [h]; rfl)
  refine ⟨_, by rw [strpbrk, e]; rfl, fun j hj => ?_⟩
  split at hj
  · cases hj
  · rename_i hz
    cases hj
    refine ⟨?_, hz⟩
    rcases Nat.eq_or_lt_of_le hk with rfl | hlt
    · exact absurd h hz
    · exact hlt

end Osdev2.Libk
