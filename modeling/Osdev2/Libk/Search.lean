import Osdev2.Lib.Find
import Osdev2.Libk.Reading
import Osdev2.Libk.Str

/-!
# The character searches (`strchr.c`, `memchr.c`)

`strchr` compares a `char` with `(char) c`, `strrchr` a `char` with the `int`, and
`memchr` an `unsigned char` with it; `char` is signed. Each finds the first or the last
byte that its own comparison takes (`strchr_first`, `strrchr_last`, `memchr_first`).

For the characters from 0 to 127 the comparisons are one. `searches_iff`: for any other
`c` the functions differ exactly if the text has the byte `c mod 256`, which `strrchr`
or `memchr` does not find.
-/

namespace Osdev2.Libk

open Osdev2.Lib

/-! ## The functions -/

/-- `ret` is the match so far. -/
def strrchr.go (s : CStr) (c : Int) : Nat → Nat → Option Nat → Option (Option Nat)
  | 0, _, _ => none
  | fuel + 1, i, ret =>
    let ret := if (s i).toInt = c then some i else ret
    if s i = 0 then some ret else strrchr.go s c fuel (i + 1) ret

def strrchr (W : Nat) (s : CStr) (c : Int) : Option (Option Nat) := strrchr.go s c (2 ^ W) 0 none

/-- From offset `i`, with `length` bytes left. -/
def memchr.go (src : CStr) (c : Int) : Nat → Nat → Option Nat
  | 0, _ => none
  | length + 1, i => if ((src i).toNat : Int) = c then some i else memchr.go src c length (i + 1)

def memchr (src : CStr) (c : Int) (length : Nat) : Option Nat := memchr.go src c length 0

section Searches

variable {W : Nat} {s : CStr} {l : List Byte}

theorem strchr_first (h : IsText s l) (hlen : l.length < 2 ^ W) (b : Byte) :
    ∃ r, strchr W s b = some r ∧ First (· = b) s (l.length + 1) r := by
  obtain ⟨k, hk, hscan⟩ : ∃ k, k ≤ l.length ∧ scan (fun x => x == b || x == 0) s (2 ^ W) 0 = some k :=
    scan_returns (Nat.zero_le _) (by omega) (by rw [h.nul]; exact Bool.or_true _)
  obtain ⟨-, hstop, hbefore⟩ := scan_some hscan
  have hno : ∀ j, j < k → s j ≠ b := fun j hj hb => by
    have hfalse := hbefore j (Nat.zero_le j) hj
    rw [hb, beq_self_eq_true, Bool.true_or] at hfalse
    cases hfalse
  refine ⟨_, by rw [strchr, hscan]; rfl, ?_⟩
  split
  · rename_i hb
    exact ⟨⟨Nat.lt_succ_of_le hk, hb⟩, hno⟩
  · rename_i hb
    have hz : s k = 0 := by
      rw [beq_false_of_ne hb, Bool.false_or] at hstop
      exact eq_of_beq hstop
    obtain rfl : k = l.length := by
      rcases Nat.eq_or_lt_of_le hk with heq | hlt
      · exact heq
      · exact absurd hz (h.ne_zero hlt)
    intro i hi
    rcases Nat.lt_succ_iff_lt_or_eq.mp hi with hlt | rfl
    · exact hno i hlt
    · exact hb

theorem strrchr_go_last (h : IsText s l) (c : Int) : ∀ {fuel i : Nat} {ret : Option Nat}, i ≤ l.length →
    l.length < i + fuel → Last (·.toInt = c) s i ret →
      ∃ r, strrchr.go s c fuel i ret = some r ∧ Last (·.toInt = c) s (l.length + 1) r
  | 0, i, ret, hi, hf, _ => absurd hf (by omega)
  | fuel + 1, i, ret, hi, hf, hret => by
    rw [strrchr.go]
    rcases drop_cases h hi with ⟨h0, rfl, -⟩ | ⟨hne, hlt, -⟩
    · exact ⟨_, if_pos h0, hret.succ⟩
    · rw [if_neg hne]
      exact strrchr_go_last h c hlt (by omega) hret.succ

theorem strrchr_last (h : IsText s l) (hlen : l.length < 2 ^ W) (c : Int) :
    ∃ r, strrchr W s c = some r ∧ Last (·.toInt = c) s (l.length + 1) r :=
  strrchr_go_last h c (Nat.zero_le _) (by omega) fun _ hi => absurd hi (Nat.not_lt_zero _)

theorem memchr_go_first (s : CStr) (c : Int) : ∀ (n i : Nat), (∀ j, j < i → ¬((s j).toNat : Int) = c) →
    First (fun b => (b.toNat : Int) = c) s (i + n) (memchr.go s c n i)
  | 0, _, hi => hi
  | n + 1, i, hi => by
    rw [memchr.go]
    split
    · rename_i hc
      exact ⟨⟨by omega, hc⟩, hi⟩
    · rename_i hc
      rw [show i + (n + 1) = i + 1 + n by omega]
      exact memchr_go_first s c n (i + 1) fun j hj =>
        (Nat.lt_succ_iff_lt_or_eq.mp hj).elim (hi j) fun heq => heq ▸ hc

theorem memchr_first (s : CStr) (c : Int) (n : Nat) :
    First (fun b => (b.toNat : Int) = c) s n (memchr s c n) := by
  have h := memchr_go_first s c n 0 fun j hj => absurd hj (Nat.not_lt_zero j)
  rwa [Nat.zero_add] at h

end Searches

/-! ## When they agree -/

/-- `(char) c`. -/
def toChar (c : Int) : Byte := BitVec.ofInt 8 c

/-- What `strchr`, `strrchr` and `memchr` should return in a string of `n` bytes, its terminator
included. -/
structure Agree (s : CStr) (n : Nat) (b : Byte) (first last found : Option Nat) : Prop where
  null : first = none ↔ last = none
  ends : first ≠ none → First (· = b) s n first ∧ Last (· = b) s n last
  same : found = first

section Agree

variable {W : Nat} {s : CStr} {l : List Byte} {c : Int} {b : Byte}

theorem eq_toChar (hc : -128 ≤ c ∧ c ≤ 255) :
    b = toChar c ↔ (b.toNat : Int) = c ∨ (b.toNat : Int) = c + 256 := by
  have hb := b.isLt
  have hval : (toChar c).toNat = (c % 256).toNat := BitVec.toNat_ofInt ..
  rw [← BitVec.toNat_inj, hval]
  omega

theorem toInt_eq : b.toInt = c ↔
    ((b.toNat : Int) = c ∧ c ≤ 127) ∨ ((b.toNat : Int) = c + 256 ∧ -128 ≤ c ∧ c < 0) := by
  have hb := b.isLt
  rw [BitVec.toInt_eq_toNat_cond]
  split <;> omega

theorem mem_of_eq (h : IsText s l) {i : Nat} (hi : i < l.length + 1) (hb : b ≠ 0) (hs : s i = b) : b ∈ l := by
  rcases Nat.lt_succ_iff_lt_or_eq.mp hi with hlt | rfl
  · rw [← hs, h.reads_lt hlt]
    exact List.getElem_mem hlt
  · exact absurd (hs.symm.trans h.nul) hb

/-- **The searches.** The string's size, with its terminator, is a `size_t`. -/
theorem searches_iff (h : IsText s l) (hlen : l.length + 1 < 2 ^ (W - 1)) (hc : -128 ≤ c ∧ c ≤ 255) :
    ∃ n first last, strlen W s = some n ∧ strchr W s (toChar c) = some first ∧ strrchr W s c = some last ∧
      (Agree s (n + 1) (toChar c) first last (memchr s c (n + 1)) ↔ (0 ≤ c ∧ c ≤ 127) ∨ toChar c ∉ l) := by
  have hW : 2 ^ (W - 1) ≤ 2 ^ W := Nat.pow_le_pow_right (by decide) (Nat.sub_le W 1)
  obtain ⟨first, hstrchr, hfirst⟩ := strchr_first h (by omega : l.length < 2 ^ W) (toChar c)
  obtain ⟨last, hstrrchr, hlast⟩ := strrchr_last h (by omega : l.length < 2 ^ W) c
  have hfound := memchr_first s c (l.length + 1)
  refine ⟨l.length, first, last, strlen_text h (by omega), hstrchr, hstrrchr, ?_⟩
  by_cases hascii : 0 ≤ c ∧ c ≤ 127
  · -- one comparison
    have hlast' : Last (· = toChar c) s (l.length + 1) last := hlast.congr fun b => by
      rw [toInt_eq, eq_toChar hc]
      omega
    have hfound' : First (· = toChar c) s (l.length + 1) (memchr s c (l.length + 1)) :=
      hfound.congr fun b => by
        have hb := b.isLt
        rw [eq_toChar hc]
        omega
    refine iff_of_true ⟨?_, fun _ => ⟨hfirst, hlast'⟩, hfound'.unique hfirst⟩ (Or.inl hascii)
    rw [hfirst.eq_none_iff, hlast'.eq_none_iff]
  · have hne : toChar c ≠ 0 := fun h0 => by
      have hzero := (eq_toChar hc).mp h0.symm
      rw [show ((0 : Byte).toNat : Int) = 0 from rfl] at hzero
      omega
    have hor : ((0 ≤ c ∧ c ≤ 127) ∨ toChar c ∉ l) ↔ toChar c ∉ l := or_iff_right hascii
    rw [hor]
    constructor
    · -- `strrchr` misses the bytes from 128 on, `memchr` the negative ones
      intro hagree hmem
      obtain ⟨i, hi, hget⟩ := List.getElem_of_mem hmem
      have hsome : first ≠ none := fun hnone =>
        hfirst.eq_none_iff.mp hnone i (Nat.lt_succ_of_lt hi) ((h.reads_lt hi).trans hget)
      by_cases hneg : c < 0
      · refine hsome (hagree.same.symm.trans (hfound.eq_none_iff.mpr fun j _ hj => ?_))
        omega
      · refine hsome (hagree.null.mpr (hlast.eq_none_iff.mpr fun j _ hj => ?_))
        rw [toInt_eq] at hj
        omega
    · intro hnot
      have hno : ∀ i, i < l.length + 1 → s i ≠ toChar c := fun i hi hs => hnot (mem_of_eq h hi hne hs)
      have hnone : first = none := hfirst.eq_none_iff.mpr hno
      refine ⟨iff_of_true hnone (hlast.eq_none_iff.mpr fun i hi hs => ?_), absurd hnone, ?_⟩
      · rw [toInt_eq] at hs
        exact hno i hi ((eq_toChar hc).mpr (hs.imp And.left And.left))
      · rw [hnone]
        exact hfound.eq_none_iff.mpr fun i hi hs => hno i hi ((eq_toChar hc).mpr (Or.inl hs))

theorem searches_iff_ascii :
    ∃ n first last, strlen 32 (strOf [ch 'a', ch 'b', ch 'a']) = some n ∧
      strchr 32 (strOf [ch 'a', ch 'b', ch 'a']) (toChar 98) = some first ∧
      strrchr 32 (strOf [ch 'a', ch 'b', ch 'a']) 98 = some last ∧
      (Agree (strOf [ch 'a', ch 'b', ch 'a']) (n + 1) (toChar 98) first last
          (memchr (strOf [ch 'a', ch 'b', ch 'a']) 98 (n + 1)) ↔
        (0 ≤ (98 : Int) ∧ (98 : Int) ≤ 127) ∨ toChar 98 ∉ [ch 'a', ch 'b', ch 'a']) :=
  searches_iff (isText_strOf (by decide)) (by decide) (by decide)

/-- `strchr` and `memchr` find the byte 0xE9, `strrchr` does not. -/
theorem strrchr_high : strlen 32 (strOf [0xE9]) = some 1 ∧
    strchr 32 (strOf [0xE9]) (toChar 0xE9) = some (some 0) ∧
    strrchr 32 (strOf [0xE9]) 0xE9 = some none ∧ memchr (strOf [0xE9]) 0xE9 2 = some 0 ∧
      ¬Agree (strOf [0xE9]) 2 (toChar 0xE9) (some 0) none (some 0) :=
  ⟨rfl, rfl, rfl, rfl, fun h => absurd h.null (by decide)⟩

end Agree

end Osdev2.Libk
