import Osdev2.Lib.Memory

/-!
# Little-endian words in a 64-bit address space

`Mem64` is a byte memory over 64-bit addresses, so that address arithmetic wraps
as the machine's does. `loadLE m a n` is the number the `n` bytes from `a` spell;
`load64_store64` and `load64_store64_off` are the read-over-write facts, the
second for two slots at known offsets from one base.
-/

namespace Osdev2.Lib

abbrev Mem64 := BitVec 64 → Byte

/-- `x` is one of the `n` bytes from `a`. -/
def InRange (a : BitVec 64) (n : Nat) (x : BitVec 64) : Prop := (x - a).toNat < n

instance (a : BitVec 64) (n : Nat) (x : BitVec 64) : Decidable (InRange a n x) :=
  inferInstanceAs (Decidable (_ < _))

def loadLE (m : Mem64) (a : BitVec 64) : Nat → Nat
  | 0 => 0
  | n + 1 => (m a).toNat + 256 * loadLE m (a + 1#64) n

def load64 (m : Mem64) (a : BitVec 64) : BitVec 64 := BitVec.ofNat 64 (loadLE m a 8)

def store64 (m : Mem64) (a v : BitVec 64) : Mem64 := fun x =>
  if InRange a 8 x then v.extractLsb' (8 * (x - a).toNat) 8 else m x

theorem inRange_add {a : BitVec 64} {n k : Nat} (hk : k < n) (hn : n ≤ 2 ^ 64) :
    InRange a n (a + BitVec.ofNat 64 k) := by
  unfold InRange
  have : a + BitVec.ofNat 64 k - a = BitVec.ofNat 64 k := by
    rw [BitVec.add_comm, BitVec.add_sub_cancel]
  rw [this, BitVec.toNat_ofNat, Nat.mod_eq_of_lt (by omega)]
  exact hk

theorem loadLE_congr {m m' : Mem64} {a b : BitVec 64} {n : Nat}
    (h : ∀ k, k < n → m (a + BitVec.ofNat 64 k) = m' (b + BitVec.ofNat 64 k)) :
    loadLE m a n = loadLE m' b n := by
  have hnext : ∀ (c : BitVec 64) k, c + BitVec.ofNat 64 (k + 1) = c + 1#64 + BitVec.ofNat 64 k :=
    fun c k => by rw [BitVec.add_assoc, Nat.add_comm, BitVec.ofNat_add]
  induction n generalizing a b with
  | zero => rfl
  | succ n ih =>
    have h0 := h 0 (Nat.succ_pos n)
    simp only [BitVec.add_zero] at h0
    rw [loadLE, loadLE, h0, ih fun k hk => ?_]
    rw [← hnext, ← hnext]
    exact h (k + 1) (by omega)

theorem loadLE_lt (m : Mem64) (a : BitVec 64) (n : Nat) : loadLE m a n < 256 ^ n := by
  induction n generalizing a with
  | zero => exact Nat.one_pos
  | succ n ih =>
    have h := ih (a + 1#64)
    have hb := (m a).isLt
    rw [loadLE, Nat.pow_succ]
    omega

/-- Bytes that are the base-256 digits of `N` spell `N`. -/
theorem loadLE_digits {m : Mem64} {a : BitVec 64} {n N : Nat}
    (h : ∀ k, k < n → (m (a + BitVec.ofNat 64 k)).toNat = N / 256 ^ k % 256) :
    loadLE m a n = N % 256 ^ n := by
  induction n generalizing a N with
  | zero => rw [loadLE, Nat.pow_zero, Nat.mod_one]
  | succ n ih =>
    have h0 := h 0 (Nat.succ_pos n)
    rw [show a + BitVec.ofNat 64 0 = a from BitVec.add_zero a, Nat.pow_zero, Nat.div_one] at h0
    rw [loadLE, h0, ih (N := N / 256) fun k hk => ?_]
    · rw [Nat.pow_succ, Nat.mul_comm (256 ^ n) 256, Nat.mod_mul]
    · have h1 := h (k + 1) (by omega)
      rw [show a + BitVec.ofNat 64 (k + 1) = a + 1#64 + BitVec.ofNat 64 k by
        rw [BitVec.add_assoc, Nat.add_comm, BitVec.ofNat_add]] at h1
      rw [h1, Nat.div_div_eq_div_mul, Nat.pow_succ, Nat.mul_comm (256 ^ k) 256]

theorem load64_congr {m m' : Mem64} {a : BitVec 64}
    (h : ∀ k, k < 8 → m (a + BitVec.ofNat 64 k) = m' (a + BitVec.ofNat 64 k)) :
    load64 m a = load64 m' a := by
  rw [load64, load64, loadLE_congr h]

theorem store64_apply_in {m : Mem64} {a v : BitVec 64} {k : Nat} (hk : k < 8) :
    store64 m a v (a + BitVec.ofNat 64 k) = v.extractLsb' (8 * k) 8 := by
  have : a + BitVec.ofNat 64 k - a = BitVec.ofNat 64 k := by
    rw [BitVec.add_comm, BitVec.add_sub_cancel]
  rw [store64, if_pos (inRange_add hk (by omega)), this, BitVec.toNat_ofNat,
    Nat.mod_eq_of_lt (by omega)]

theorem store64_apply_out {m : Mem64} {a v x : BitVec 64} (h : ¬InRange a 8 x) :
    store64 m a v x = m x := if_neg h

@[simp] theorem load64_store64 (m : Mem64) (a v : BitVec 64) : load64 (store64 m a v) a = v := by
  have hv := v.isLt
  rw [load64, loadLE_digits (N := v.toNat) fun k hk => ?_]
  · rw [Nat.mod_eq_of_lt (by omega), BitVec.ofNat_toNat, BitVec.setWidth_eq]
  · rw [store64_apply_in hk, BitVec.extractLsb'_toNat, Nat.shiftRight_eq_div_pow, Nat.pow_mul]

theorem not_inRange_off {p : BitVec 64} {i j k : Nat} (hi : i < 2 ^ 32) (hj : j < 2 ^ 32)
    (hd : i + 8 ≤ j ∨ j + 8 ≤ i) (hk : k < 8) :
    ¬InRange (p + BitVec.ofNat 64 i) 8 (p + BitVec.ofNat 64 j + BitVec.ofNat 64 k) := by
  unfold InRange
  have hs : p + BitVec.ofNat 64 j + BitVec.ofNat 64 k - (p + BitVec.ofNat 64 i) =
      BitVec.ofNat 64 (j + k) - BitVec.ofNat 64 i := by
    rw [BitVec.add_assoc, ← BitVec.ofNat_add]
    exact add_sub_add_left_eq_sub ..
  rw [hs, BitVec.toNat_sub, BitVec.toNat_ofNat, BitVec.toNat_ofNat]
  omega

theorem load64_store64_off {m : Mem64} {p v : BitVec 64} {i j : Nat} (hi : i < 2 ^ 32)
    (hj : j < 2 ^ 32) (hd : i + 8 ≤ j ∨ j + 8 ≤ i) :
    load64 (store64 m (p + BitVec.ofNat 64 i) v) (p + BitVec.ofNat 64 j) =
      load64 m (p + BitVec.ofNat 64 j) :=
  load64_congr fun _ hk => store64_apply_out (not_inRange_off hi hj hd hk)

/-! ## Blocks of bytes -/

/-- `n` bytes from `a` set to `v`. -/
def setMem (a : BitVec 64) (n : Nat) (v : Byte) (m : Mem64) : Mem64 := fun x =>
  if InRange a n x then v else m x

/-- `n` bytes copied from `src` to `dst`, as they were before. -/
def copyMem (dst src : BitVec 64) (n : Nat) (m : Mem64) : Mem64 := fun x =>
  if InRange dst n x then m (src + (x - dst)) else m x

/-- A list of bytes placed at `a`. -/
def placeBytes (a : BitVec 64) (bs : List Byte) (m : Mem64) : Mem64 := fun x =>
  if InRange a bs.length x then bs.getD (x - a).toNat 0 else m x

/-! ## Words in slots -/

/-- Store a list of words from byte offset `i` of `p` on. -/
def storeWords (p : BitVec 64) : Nat → List (BitVec 64) → Mem64 → Mem64
  | _, [], m => m
  | i, w :: ws, m => storeWords p (i + 8) ws (store64 m (p + BitVec.ofNat 64 i) w)

theorem load64_storeWords_below {p : BitVec 64} {ws : List (BitVec 64)} {m : Mem64} {i j : Nat}
    (h : j + 8 ≤ i) (hi : i + 8 * ws.length ≤ 2 ^ 32) :
    load64 (storeWords p i ws m) (p + BitVec.ofNat 64 j) = load64 m (p + BitVec.ofNat 64 j) := by
  induction ws generalizing m i with
  | nil => rfl
  | cons w ws ih =>
    rw [List.length_cons] at hi
    rw [storeWords, ih (by omega) (by omega), load64_store64_off (by omega) (by omega) (by omega)]

theorem load64_storeWords {p : BitVec 64} {ws : List (BitVec 64)} {m : Mem64} {i k : Nat}
    (hi : i + 8 * ws.length ≤ 2 ^ 32) (hk : k < ws.length) :
    load64 (storeWords p i ws m) (p + BitVec.ofNat 64 (i + 8 * k)) = ws[k] := by
  induction ws generalizing m i k with
  | nil => cases hk
  | cons w ws ih =>
    rw [List.length_cons] at hi hk
    rw [storeWords]
    cases k with
    | zero =>
      simp only [Nat.mul_zero, Nat.add_zero]
      rw [load64_storeWords_below (by omega) (by omega), load64_store64]
      rfl
    | succ k =>
      rw [show i + 8 * (k + 1) = i + 8 + 8 * k by omega, ih (by omega) (by omega)]
      rfl

end Osdev2.Lib
