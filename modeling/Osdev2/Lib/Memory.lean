import Mathlib

/-!
# Byte memories and NUL-terminated strings

`Mem` is a flat byte memory. A C string is read through `CStr`, the byte at
each offset of a `char *`; `Mem.at W m p` is the string a `W`-bit pointer `p`
reads in `m`, its offsets wrapping at the end of the address space.

`scan` and `forEachChar` are the two loops over a string: advance to the first
byte of a kind, and hand every byte before the NUL to a function. Both take
fuel and are `none` when it runs out; a scan of `2 ^ W` bytes has seen the whole
address space, so for `Mem.at` running out is never returning. `scan_returns`
and `forEachChar_returns` say when they do return. On a string whose text is
known (`IsText`), `scan_text` and `forEachChar_text` say what they compute.
-/

namespace Osdev2.Lib

abbrev Byte := BitVec 8

instance : LawfulBEq Byte := inferInstance

abbrev Mem := Nat → Byte

abbrev CStr := Nat → Byte

/-- `p + n` on `W`-bit pointers. -/
def ptrAdd (W p n : Nat) : Nat := (p + n) % 2 ^ W

/-- The string a `W`-bit pointer reads. -/
def Mem.at (W : Nat) (m : Mem) (p : Nat) : CStr := fun i => m (ptrAdd W p i)

/-- A character constant. -/
def ch (c : Char) : Byte := BitVec.ofNat 8 c.toNat

/-- A string literal: its characters, then NUL. -/
def lit (l : List Char) : CStr := fun i => (l.map ch).getD i 0

theorem ptrAdd_of_lt {W p n : Nat} (h : p + n < 2 ^ W) : ptrAdd W p n = p + n :=
  Nat.mod_eq_of_lt h

theorem Mem.at_eq {W p i : Nat} {m : Mem} (h : p + i < 2 ^ W) : m.at W p i = m (p + i) := by
  rw [Mem.at, ptrAdd_of_lt h]

theorem exists_ptrAdd {W : Nat} (p : Nat) {z : Nat} (hz : z < 2 ^ W) :
    ∃ k, k < 2 ^ W ∧ ptrAdd W p k = z := by
  have hp := Nat.mod_lt p (Nat.two_pow_pos W)
  refine ⟨(z + (2 ^ W - p % 2 ^ W)) % 2 ^ W, Nat.mod_lt _ (Nat.two_pow_pos W), ?_⟩
  have hq := Nat.div_add_mod p (2 ^ W)
  unfold ptrAdd
  rw [Nat.add_mod_mod, show p + (z + (2 ^ W - p % 2 ^ W)) = z + 2 ^ W * (p / 2 ^ W + 1) by
    rw [Nat.mul_add]; omega, Nat.add_mul_mod_self_left, Nat.mod_eq_of_lt hz]

/-! ## Scanning -/

/-- The first offset from `i` on whose byte stops the loop. -/
def scan (stop : Byte → Bool) (s : CStr) : Nat → Nat → Option Nat
  | 0, _ => none
  | fuel + 1, i => if stop (s i) then some i else scan stop s fuel (i + 1)

section Scan

variable {stop : Byte → Bool} {s : CStr}

theorem scan_eq {k : Nat} : ∀ {fuel i : Nat}, i ≤ k → k < i + fuel →
    (∀ j, i ≤ j → j < k → stop (s j) = false) → stop (s k) = true →
    scan stop s fuel i = some k
  | 0, i, h1, h2, _, _ => absurd h2 (by omega)
  | fuel + 1, i, h1, h2, hne, hk => by
    rw [scan]
    rcases Nat.eq_or_lt_of_le h1 with rfl | hlt
    · rw [if_pos hk]
    · rw [hne i (Nat.le_refl i) hlt]
      exact scan_eq hlt (by omega) (fun j h => hne j (by omega)) hk

theorem scan_some {k : Nat} : ∀ {fuel i : Nat}, scan stop s fuel i = some k →
    i ≤ k ∧ stop (s k) = true ∧ ∀ j, i ≤ j → j < k → stop (s j) = false
  | 0, _, h => by cases h
  | fuel + 1, i, h => by
    rw [scan] at h
    split at h
    · rename_i hs
      cases h
      exact ⟨Nat.le_refl _, hs, fun j h1 h2 => absurd h2 (by omega)⟩
    · rename_i hs
      obtain ⟨h1, h2, h3⟩ := scan_some h
      refine ⟨by omega, h2, fun j hj hjk => ?_⟩
      rcases Nat.eq_or_lt_of_le hj with rfl | hlt
      · simpa using hs
      · exact h3 j hlt hjk

theorem scan_returns {n : Nat} : ∀ {fuel i : Nat}, i ≤ n → n < i + fuel → stop (s n) = true →
    ∃ k, k ≤ n ∧ scan stop s fuel i = some k
  | 0, i, h1, h2, _ => absurd h2 (by omega)
  | fuel + 1, i, h1, h2, hn => by
    rw [scan]
    split
    · exact ⟨i, h1, rfl⟩
    · rename_i hs
      rcases Nat.eq_or_lt_of_le h1 with rfl | hlt
      · exact absurd hn hs
      · exact scan_returns hlt (by omega) hn

theorem scan_none : ∀ {fuel i : Nat}, (∀ j, j < i + fuel → stop (s j) = false) → scan stop s fuel i = none
  | 0, _, _ => rfl
  | fuel + 1, i, h => by
    rw [scan, h i (by omega)]
    exact scan_none fun j hj => h j (by omega)

end Scan

/-! ## Visiting every character -/

/-- Hand each byte of the string before its NUL to `f`. The string is read again
at every step (`rd`), since `f` may change what it is stored in. -/
def forEachChar {σ : Type*} (rd : σ → CStr) (f : Byte → σ → σ) : Nat → Nat → σ → Option σ
  | 0, _, _ => none
  | fuel + 1, i, t =>
    if rd t i = 0 then some t else forEachChar rd f fuel (i + 1) (f (rd t i) t)

section ForEachChar

variable {σ : Type*} {rd : σ → CStr} {f : Byte → σ → σ} {I : σ → Prop}

theorem forEachChar_preserves (hf : ∀ c t, I t → I (f c t)) : ∀ {fuel i : Nat} {t t' : σ}, I t →
    forEachChar rd f fuel i t = some t' → I t'
  | 0, _, _, _, _, h => by cases h
  | fuel + 1, i, t, t', hI, h => by
    rw [forEachChar] at h
    split at h
    · cases h; exact hI
    · exact forEachChar_preserves hf (hf _ _ hI) h

/-- The loop returns if the byte at `n` is NUL and stays so. -/
theorem forEachChar_returns {n : Nat} (hf : ∀ c t, I t → I (f c t)) (hn : ∀ t, I t → rd t n = 0) :
    ∀ {fuel i : Nat} {t : σ}, I t → i ≤ n → n < i + fuel →
      ∃ t', forEachChar rd f fuel i t = some t' ∧ I t'
  | 0, i, _, _, h1, h2 => absurd h2 (by omega)
  | fuel + 1, i, t, hI, h1, h2 => by
    rw [forEachChar]
    split
    · exact ⟨t, rfl, hI⟩
    · rename_i hz
      rcases Nat.eq_or_lt_of_le h1 with rfl | hlt
      · exact absurd (hn t hI) hz
      · exact forEachChar_returns hf hn (hf _ _ hI) hlt (by omega)

/-- The bytes the loop hands to `f`, in order. -/
def charsRead {σ : Type*} (rd : σ → CStr) (f : Byte → σ → σ) : Nat → Nat → σ → List Byte
  | 0, _, _ => []
  | fuel + 1, i, t =>
    if rd t i = 0 then [] else rd t i :: charsRead rd f fuel (i + 1) (f (rd t i) t)

theorem forEachChar_eq_foldl : ∀ {fuel i : Nat} {t t' : σ}, forEachChar rd f fuel i t = some t' →
    t' = (charsRead rd f fuel i t).foldl (fun t c => f c t) t
  | 0, _, _, _, h => by cases h
  | fuel + 1, i, t, t', h => by
    rw [forEachChar] at h
    rw [charsRead]
    split at h
    · rename_i hz
      cases h
      rw [if_pos hz]
      rfl
    · rename_i hz
      rw [if_neg hz]
      exact forEachChar_eq_foldl h

/-- `l` is the text of the string `s`: its bytes up to the first NUL. -/
structure IsText (s : CStr) (l : List Byte) : Prop where
  reads : ∀ i, i ≤ l.length → s i = l.getD i 0
  noNul : ∀ c ∈ l, c ≠ 0

theorem forEachChar_text {l : List Byte} (hf : ∀ c t, I t → I (f c t))
    (hl : ∀ t, I t → IsText (rd t) l) : ∀ {fuel i : Nat} {t : σ}, I t → i ≤ l.length →
      l.length < i + fuel →
      forEachChar rd f fuel i t = some ((l.drop i).foldl (fun t c => f c t) t) ∧
        charsRead rd f fuel i t = l.drop i
  | 0, i, _, _, h1, h2 => absurd h2 (by omega)
  | fuel + 1, i, t, hI, h1, h2 => by
    have hr := (hl t hI).reads i h1
    rw [forEachChar, charsRead]
    rcases Nat.eq_or_lt_of_le h1 with rfl | hlt
    · rw [List.getD_eq_default _ _ (Nat.le_refl _)] at hr
      rw [if_pos hr, if_pos hr, List.drop_length]
      exact ⟨rfl, rfl⟩
    · rw [List.getD_eq_getElem _ _ hlt] at hr
      have hne : rd t i ≠ 0 := hr ▸ (hl t hI).noNul _ (List.getElem_mem hlt)
      have h3 : l.length < i + 1 + fuel := by omega
      obtain ⟨e1, e2⟩ := forEachChar_text hf hl (hf (rd t i) t hI) hlt h3
      rw [if_neg hne, if_neg hne, e1, e2, hr, List.drop_eq_getElem_cons hlt]
      exact ⟨rfl, rfl⟩

end ForEachChar

/-! ## Texts -/

section Cut

variable {α : Type*} (l : List α) (d : α) {i n : Nat}

theorem getD_take (h : i < n) : (l.take n).getD i d = l.getD i d := by
  rw [List.getD_eq_getElem?_getD, List.getD_eq_getElem?_getD, List.getElem?_take_of_lt h]

theorem getD_drop (n i : Nat) : (l.drop n).getD i d = l.getD (n + i) d := by
  rw [List.getD_eq_getElem?_getD, List.getD_eq_getElem?_getD, List.getElem?_drop]

theorem getD_dropLast (h : i ≠ l.length - 1) : l.dropLast.getD i d = l.getD i d := by
  rcases Nat.lt_or_ge i (l.length - 1) with hlt | hge
  · rw [List.dropLast_eq_take, getD_take l d hlt]
  · rw [List.getD_eq_default l d (by omega), List.getD_eq_default]
    rw [List.length_dropLast]
    omega

theorem getD_concat (c : α) (i : Nat) :
    (l ++ [c]).getD i d = if i = l.length then c else l.getD i d := by
  rcases Nat.lt_trichotomy i l.length with hlt | rfl | hgt
  · rw [List.getD_append _ _ _ _ hlt, if_neg (Nat.ne_of_lt hlt)]
  · rw [List.getD_append_right _ _ _ _ (Nat.le_refl _), Nat.sub_self, List.getD_cons_zero, if_pos rfl]
  · rw [if_neg (Nat.ne_of_gt hgt), List.getD_eq_default l d (Nat.le_of_lt hgt), List.getD_eq_default]
    rw [List.length_append, List.length_singleton]
    omega

end Cut

section Text

variable {W : Nat} {s s' : CStr} {l l' : List Byte}

/-- The string with text `l`. -/
def strOf (l : List Byte) : CStr := fun i => l.getD i 0

theorem IsText.nul (h : IsText s l) : s l.length = 0 := by
  rw [h.reads _ (Nat.le_refl _), List.getD_eq_default _ _ (Nat.le_refl _)]

theorem IsText.reads_lt (h : IsText s l) {i : Nat} (hi : i < l.length) : s i = l[i] := by
  rw [h.reads i (Nat.le_of_lt hi), List.getD_eq_getElem _ _ hi]

theorem IsText.ne_zero (h : IsText s l) {i : Nat} (hi : i < l.length) : s i ≠ 0 :=
  h.reads_lt hi ▸ h.noNul _ (List.getElem_mem hi)

theorem isText_strOf (h : ∀ c ∈ l, c ≠ 0) : IsText (strOf l) l := ⟨fun _ _ => rfl, h⟩

theorem IsText.congr (h : IsText s l) (hs : ∀ i, i ≤ l.length → s' i = s i) : IsText s' l :=
  ⟨fun i hi => (hs i hi).trans (h.reads i hi), h.noNul⟩

theorem IsText.unique (h : IsText s l) (h' : IsText s l') : l = l' := by
  have hle : ∀ {l l' : List Byte}, IsText s l → IsText s l' → l.length ≤ l'.length :=
    fun h h' => Nat.le_of_not_lt fun hlt => h.ne_zero hlt h'.nul
  refine List.ext_getElem (Nat.le_antisymm (hle h h') (hle h' h)) fun i h1 h2 => ?_
  rw [← h.reads_lt h1, h'.reads_lt h2]

/-- The bytes of `l`, then a NUL. -/
def Holds (s : CStr) (l : List Byte) : Prop := ∀ i, i ≤ l.length → s i = l.getD i 0

theorem Holds.isText (h : Holds s l) : IsText s (l.takeWhile (· != 0)) := by
  induction l generalizing s with
  | nil => exact ⟨h, fun _ hc => absurd hc List.not_mem_nil⟩
  | cons c l ih =>
    have h0 : s 0 = c := h 0 (Nat.zero_le _)
    by_cases hc : c = 0
    · rw [List.takeWhile_cons_of_neg (by simp [hc])]
      exact ⟨fun i hi => by rw [Nat.le_zero.mp hi, h0, hc]; rfl, fun _ hc => absurd hc List.not_mem_nil⟩
    · rw [List.takeWhile_cons_of_pos (p := (· != 0)) (bne_iff_ne.mpr hc)]
      have ht := ih (s := fun i => s (i + 1)) fun i hi => h (i + 1) (Nat.succ_le_succ hi)
      refine ⟨fun i hi => ?_, List.forall_mem_cons.mpr ⟨hc, ht.noNul⟩⟩
      cases i with
      | zero => exact h0
      | succ i => exact ht.reads i (Nat.le_of_succ_le_succ hi)

theorem scan_text {stop p : Byte → Bool} (h : IsText s l) (h0 : stop 0 = true)
    (hp : ∀ c, c ≠ 0 → stop c = p c) (hl : l.length < 2 ^ W) :
    scan stop s (2 ^ W) 0 = some (l.findIdx p) := by
  have hle : l.findIdx p ≤ l.length := List.findIdx_le_length
  refine scan_eq (Nat.zero_le _) (by omega) (fun j _ hj => ?_) ?_
  · have hjl : j < l.length := by omega
    rw [hp _ (h.ne_zero hjl), h.reads_lt hjl]
    simpa using List.not_of_lt_findIdx hj
  · rcases Nat.eq_or_lt_of_le hle with heq | hlt
    · rw [heq, h.nul, h0]
    · rw [hp _ (h.ne_zero hlt), h.reads_lt hlt]
      exact List.findIdx_getElem

theorem scan_text_or {p : Byte → Bool} (h : IsText s l) (hl : l.length < 2 ^ W) :
    scan (fun c => c == 0 || p c) s (2 ^ W) 0 = some (l.findIdx p) :=
  scan_text h rfl (fun c hc => by rw [beq_false_of_ne hc, Bool.false_or]) hl

/-- A scan for NUL alone. -/
theorem scan_end {stop : Byte → Bool} {fuel : Nat} (h : IsText s l) (h0 : stop 0 = true)
    (hp : ∀ c, c ≠ 0 → stop c = false) (hl : l.length < fuel) : scan stop s fuel 0 = some l.length :=
  scan_eq (Nat.zero_le _) (by omega) (fun _ _ hj => hp _ (h.ne_zero hj)) (by rw [h.nul, h0])

theorem IsText.byte {m : Mem} {q i : Nat} (h : IsText (m.at W q) l) (hq : q + l.length < 2 ^ W)
    (hi : i ≤ l.length) : m (q + i) = l.getD i 0 := by
  have hread := h.reads i hi
  rwa [Mem.at_eq (by omega)] at hread

theorem IsText.drop {m : Mem} {q i : Nat} (h : IsText (m.at W q) l) (hq : q + l.length < 2 ^ W)
    (hi : i ≤ l.length) : IsText (m.at W (q + i)) (l.drop i) := by
  refine ⟨fun j hj => ?_, fun c hc => h.noNul c (List.mem_of_mem_drop hc)⟩
  rw [List.length_drop] at hj
  rw [Mem.at_eq (by omega), Nat.add_assoc, h.byte hq (by omega), getD_drop]

theorem IsText.take {m : Mem} {q k : Nat} (h : IsText (m.at W q) l) (hq : q + l.length < 2 ^ W)
    (hk : k < l.length) : IsText (Mem.at W (Function.update m (q + k) 0) q) (l.take k) := by
  refine ⟨fun j hj => ?_, fun c hc => h.noNul c (List.mem_of_mem_take hc)⟩
  rw [List.length_take, Nat.min_eq_left (Nat.le_of_lt hk)] at hj
  rw [Mem.at_eq (by omega), Function.update_apply]
  by_cases hjk : j = k
  · rw [if_pos (by omega), List.getD_eq_default _ _ (by rw [List.length_take]; omega)]
  · rw [if_neg (by omega), h.byte hq (by omega), getD_take l 0 (by omega)]

end Text

end Osdev2.Lib
