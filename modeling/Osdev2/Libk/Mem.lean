import Osdev2.Lib.Memory

/-!
# libk: `memcpy`, `memmove`, `memset`

Each byte loop as the source writes it, the size as the last argument: the
memory after `size` iterations. `memcpy_apply`, `memmove_apply` and
`memset_apply` read the result at an address; `memmove_apply` needs no
disjointness, `memcpy_apply` does. Both loops of `memmove` keep `Moved`, which says
what is copied so far.

Pointers are numbers here. `Wrapping` has `memmove` on `W`-bit pointers; inside memory
it is the same (`Wrapping.memmove_eq`).
-/

namespace Osdev2.Libk

open Osdev2.Lib

def memcpy (dst src : Nat) (m : Mem) : Nat → Mem
  | 0 => m
  | i + 1 =>
    let m := memcpy dst src m i
    Function.update m (dst + i) (m (src + i))

def memset (buf : Nat) (value : Byte) (m : Mem) : Nat → Mem
  | 0 => m
  | i + 1 => Function.update (memset buf value m i) (buf + i) value

/-- The descending loop of `memmove`: `i` counts down from `size`. -/
def memmoveDown (dst src : Nat) (m : Mem) : Nat → Mem
  | 0 => m
  | i + 1 => memmoveDown dst src (Function.update m (dst + i) (m (src + i))) i

def memmove (dst src : Nat) (m : Mem) (size : Nat) : Mem :=
  if dst < src then memcpy dst src m size else memmoveDown dst src m size

theorem memset_apply (buf : Nat) (value : Byte) (m : Mem) (n a : Nat) :
    memset buf value m n a = if buf ≤ a ∧ a < buf + n then value else m a := by
  induction n with
  | zero => rw [memset, if_neg (by omega)]
  | succ n ih =>
    rw [memset, Function.update_apply, ih]
    by_cases h1 : a = buf + n
    · rw [if_pos h1, if_pos (by omega)]
    · rw [if_neg h1]
      by_cases h2 : buf ≤ a ∧ a < buf + n
      · rw [if_pos h2, if_pos (by omega)]
      · rw [if_neg h2, if_neg (by omega)]

theorem memcpy_outside {dst src n a : Nat} (m : Mem) (h : ¬(dst ≤ a ∧ a < dst + n)) :
    memcpy dst src m n a = m a := by
  induction n with
  | zero => rfl
  | succ n ih =>
    simp only [memcpy]
    rw [Function.update_of_ne (by omega), ih (by omega)]

/-! ## Copied bytes -/

/-- The bytes `lo ≤ k < hi` of the destination are those of the source in `m`, and all else is as
in `m`. -/
def Moved (dst src : Nat) (m m' : Mem) (lo hi : Nat) : Prop :=
  ∀ a, m' a = if dst + lo ≤ a ∧ a < dst + hi then m (src + (a - dst)) else m a

section Moved

variable {dst src lo hi n : Nat} {m m' : Mem}

theorem Moved.none (dst src : Nat) (m : Mem) (lo : Nat) : Moved dst src m m lo lo :=
  fun _ => (if_neg (by omega)).symm

theorem Moved.reads (h : Moved dst src m m' lo hi) {k : Nat} (hk : src + k < dst + lo ∨ dst + hi ≤ src + k) :
    m' (src + k) = m (src + k) :=
  (h _).trans (if_neg (by omega))

theorem Moved.up (h : Moved dst src m m' lo hi) (hlo : lo ≤ hi) (hk : src + hi < dst + lo ∨ dst ≤ src) :
    Moved dst src m (Function.update m' (dst + hi) (m' (src + hi))) lo (hi + 1) := by
  intro a
  rw [h.reads (by omega), Function.update_apply]
  by_cases ha : a = dst + hi
  · rw [if_pos ha, if_pos (by omega), ha, Nat.add_sub_cancel_left]
  · rw [if_neg ha, h a]
    exact if_congr (by omega) rfl rfl

theorem Moved.down (h : Moved dst src m m' (lo + 1) hi) (hlo : lo < hi) (hd : src ≤ dst) :
    Moved dst src m (Function.update m' (dst + lo) (m' (src + lo))) lo hi := by
  intro a
  rw [h.reads (by omega), Function.update_apply]
  by_cases ha : a = dst + lo
  · rw [if_pos ha, if_pos (by omega), ha, Nat.add_sub_cancel_left]
  · rw [if_neg ha, h a]
    exact if_congr (by omega) rfl rfl

/-- The ascending copy, where no source byte is written before it is read. -/
theorem memcpy_moved (m : Mem) (hd : dst ≤ src ∨ src + n ≤ dst) :
    Moved dst src m (memcpy dst src m n) 0 n := by
  induction n with
  | zero => exact Moved.none dst src m 0
  | succ n ih => exact (ih (by omega)).up (Nat.zero_le n) (by omega)

/-- The descending copy, of the bytes below those that are moved. -/
theorem memmoveDown_moved (h : Moved dst src m m' n hi) (hn : n ≤ hi) (hd : src ≤ dst) :
    Moved dst src m (memmoveDown dst src m' n) 0 hi := by
  induction n generalizing m' with
  | zero => exact h
  | succ n ih => exact ih (h.down hn hd) (Nat.le_of_succ_le hn)

end Moved

theorem memcpy_apply {dst src n : Nat} (m : Mem) (hd : dst + n ≤ src ∨ src + n ≤ dst) (a : Nat) :
    memcpy dst src m n a = if dst ≤ a ∧ a < dst + n then m (src + (a - dst)) else m a :=
  memcpy_moved m (by omega) a

theorem memmove_apply (dst src : Nat) (m : Mem) (n a : Nat) :
    memmove dst src m n a = if dst ≤ a ∧ a < dst + n then m (src + (a - dst)) else m a := by
  unfold memmove
  split <;> rename_i hlt
  · exact memcpy_moved m (by omega) a
  · exact memmoveDown_moved (Moved.none dst src m n) (Nat.le_refl n) (by omega) a

/-! ## Pointers that wrap -/

namespace Wrapping

/-- The ascending loop, on `W`-bit pointers: the memory after `i` iterations. -/
def memmoveUp (W dst src : Nat) (m : Mem) : Nat → Mem
  | 0 => m
  | i + 1 =>
    let m := memmoveUp W dst src m i
    Function.update m (ptrAdd W dst i) (m (ptrAdd W src i))

def memmoveDown (W dst src : Nat) (m : Mem) : Nat → Mem
  | 0 => m
  | i + 1 =>
    memmoveDown W dst src (Function.update m (ptrAdd W dst i) (m (ptrAdd W src i))) i

/-- `memmove` returns `dst`. -/
def memmove (W dst src : Nat) (m : Mem) (size : Nat) : Nat × Mem :=
  (dst, if dst < src then memmoveUp W dst src m size else memmoveDown W dst src m size)

section InMemory

variable {W dst src size : Nat}

theorem memmoveUp_eq (m : Mem) (hd : dst + size ≤ 2 ^ W) (hs : src + size ≤ 2 ^ W) :
    memmoveUp W dst src m size = memcpy dst src m size := by
  induction size with
  | zero => rfl
  | succ i ih =>
    rw [memmoveUp, memcpy, ih (by omega) (by omega), ptrAdd_of_lt (by omega), ptrAdd_of_lt (by omega)]

theorem memmoveDown_eq (m : Mem) (hd : dst + size ≤ 2 ^ W) (hs : src + size ≤ 2 ^ W) :
    memmoveDown W dst src m size = Libk.memmoveDown dst src m size := by
  induction size generalizing m with
  | zero => rfl
  | succ i ih =>
    rw [memmoveDown, Libk.memmoveDown, ih _ (by omega) (by omega), ptrAdd_of_lt (by omega),
      ptrAdd_of_lt (by omega)]

theorem memmove_eq (m : Mem) (hd : dst + size ≤ 2 ^ W) (hs : src + size ≤ 2 ^ W) :
    memmove W dst src m size = (dst, Libk.memmove dst src m size) := by
  rw [memmove, memmoveUp_eq m hd hs, memmoveDown_eq m hd hs]
  rfl

/-- **The bytes of the source arrive, however the ranges overlap.** -/
theorem memmove_moves (m : Mem) (hd : dst + size ≤ 2 ^ W) (hs : src + size ≤ 2 ^ W) :
    (memmove W dst src m size).1 = dst ∧
      (∀ k, k < size → (memmove W dst src m size).2 (dst + k) = m (src + k)) ∧
        ∀ a, ¬(dst ≤ a ∧ a < dst + size) → (memmove W dst src m size).2 a = m a := by
  rw [memmove_eq m hd hs]
  refine ⟨rfl, fun k hk => ?_, fun a ha => ?_⟩
  · show Libk.memmove dst src m size (dst + k) = m (src + k)
    rw [memmove_apply, if_pos (by omega), Nat.add_sub_cancel_left]
  · exact (memmove_apply dst src m size a).trans (if_neg ha)

theorem memmove_moves_overlapping :
    (memmove 32 0x102 0x100 (BitVec.ofNat 8) 4).1 = 0x102 ∧
      (∀ k, k < 4 → (memmove 32 0x102 0x100 (BitVec.ofNat 8) 4).2 (0x102 + k) = BitVec.ofNat 8 (0x100 + k)) ∧
        ∀ a, ¬(0x102 ≤ a ∧ a < 0x102 + 4) →
          (memmove 32 0x102 0x100 (BitVec.ofNat 8) 4).2 a = BitVec.ofNat 8 a :=
  memmove_moves (BitVec.ofNat 8) (by decide) (by decide)

end InMemory

end Wrapping

end Osdev2.Libk
