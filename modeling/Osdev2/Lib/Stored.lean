import Osdev2.Lib.Memory

/-!
# Bytes stored one after the other

`Stored d l m m'`: `m'` is `m` with the bytes of `l` from `d` on. A loop that stores
upwards is followed from its first store (`Stored.cons`), a single store behind such a
loop by `Stored.snoc`. A text with the bytes of another and a NUL stored behind it is
the two texts in a row (`Stored.text`). `NoOverlap` is two blocks that share no byte.
-/

namespace Osdev2.Lib

theorem ptrAdd_zero {W p : Nat} (h : p < 2 ^ W) : ptrAdd W p 0 = p := ptrAdd_of_lt h

theorem ptrAdd_ptrAdd (W p i j : Nat) : ptrAdd W (ptrAdd W p i) j = ptrAdd W p (i + j) := by
  rw [ptrAdd, ptrAdd, ptrAdd, Nat.mod_add_mod, Nat.add_assoc]

/-- The `i` bytes from `a` and the `j` bytes from `b`. -/
def NoOverlap (a i b j : Nat) : Prop := ∀ x y, x < i → y < j → a + x ≠ b + y

theorem NoOverlap.cases {a i b j : Nat} (h : NoOverlap a i b j) (hi : 0 < i) (hj : 0 < j) :
    a + i ≤ b ∨ b + j ≤ a := by
  rcases Nat.le_total a b with hab | hba
  · refine Or.inl (Nat.le_of_not_lt fun hlt => h (b - a) 0 (by omega) hj ?_)
    omega
  · refine Or.inr (Nat.le_of_not_lt fun hlt => h 0 (a - b) hi (by omega) ?_)
    omega

def Stored (d : Nat) (l : List Byte) (m m' : Mem) : Prop :=
  ∀ a, m' a = if d ≤ a ∧ a < d + l.length then l.getD (a - d) 0 else m a

section Stored

variable {W d q : Nat} {c : Byte} {l t : List Byte} {m m' : Mem}

theorem Stored.nil (d : Nat) (m : Mem) : Stored d [] m m :=
  fun _ => (if_neg (by rw [List.length_nil]; omega)).symm

theorem Stored.unique {m₁ : Mem} (h : Stored d l m m') (h₁ : Stored d l m m₁) : m' = m₁ :=
  funext fun a => (h a).trans (h₁ a).symm

/-- The memory that comes of it. -/
def Mem.put (m : Mem) (d : Nat) (l : List Byte) : Mem := fun a =>
  if d ≤ a ∧ a < d + l.length then l.getD (a - d) 0 else m a

theorem Stored.put (d : Nat) (l : List Byte) (m : Mem) : Stored d l m (m.put d l) := fun _ => rfl

theorem Stored.inside (h : Stored d l m m') {k : Nat} (hk : k < l.length) : m' (d + k) = l.getD k 0 := by
  rw [h, if_pos (by omega), Nat.add_sub_cancel_left]

theorem Stored.outside (h : Stored d l m m') {a : Nat} (ha : ¬(d ≤ a ∧ a < d + l.length)) : m' a = m a := by
  rw [h, if_neg ha]

theorem Stored.cons (h : Stored (d + 1) l (Function.update m d c) m') : Stored d (c :: l) m m' := by
  intro a
  rw [List.length_cons]
  rcases Nat.lt_trichotomy a d with hlt | rfl | hgt
  · rw [h.outside (by omega), Function.update_of_ne (by omega), if_neg (by omega)]
  · rw [h.outside (by omega), Function.update_self, if_pos (by omega), Nat.sub_self, List.getD_cons_zero]
  · rw [h a, Function.update_of_ne (by omega), show a - d = a - (d + 1) + 1 by omega, List.getD_cons_succ]
    exact if_congr (by omega) rfl rfl

theorem Stored.snoc (h : Stored d l m m') (c : Byte) :
    Stored d (l ++ [c]) m (Function.update m' (d + l.length) c) := by
  intro a
  rw [List.length_append, List.length_singleton, getD_concat]
  by_cases ha : a = d + l.length
  · rw [ha, Function.update_self, if_pos (by omega), Nat.add_sub_cancel_left, if_pos rfl]
  · rw [Function.update_of_ne ha, h a]
    by_cases hin : d ≤ a ∧ a < d + l.length
    · rw [if_pos hin, if_pos (by omega), if_neg (by omega)]
    · rw [if_neg hin, if_neg (by omega)]

theorem IsText.tail (h : IsText (m.at W q) (c :: l)) (hq : q + (c :: l).length < 2 ^ W) :
    IsText (m.at W (q + 1)) l :=
  h.drop hq (Nat.succ_le_succ (Nat.zero_le _))

theorem IsText.update (h : IsText (m.at W q) l) (hq : q + l.length < 2 ^ W)
    (hd : d < q ∨ q + l.length < d) (c : Byte) : IsText (Mem.at W (Function.update m d c) q) l :=
  h.congr fun i hi => by
    rw [Mem.at_eq (by omega), Mem.at_eq (by omega), Function.update_of_ne (by omega)]

theorem Stored.isText (h : Stored q (t ++ [0]) m m') (ht : ∀ c ∈ t, c ≠ 0) (hq : q + t.length < 2 ^ W) :
    IsText (m'.at W q) t := by
  refine ⟨fun i hi => ?_, ht⟩
  rw [Mem.at_eq (by omega), h.inside (by rw [List.length_append, List.length_singleton]; omega),
    getD_concat]
  split
  · rw [List.getD_eq_default _ _ (by omega)]
  · rfl

theorem Stored.text (hl : IsText (m.at W q) l) (ht : ∀ c ∈ t, c ≠ 0) (hq : q + l.length + t.length < 2 ^ W)
    (h : Stored (q + l.length) (t ++ [0]) m m') : IsText (m'.at W q) (l ++ t) := by
  refine ⟨fun i hi => ?_, List.forall_mem_append.mpr ⟨hl.noNul, ht⟩⟩
  rw [List.length_append] at hi
  rw [Mem.at_eq (by omega)]
  rcases Nat.lt_or_ge i l.length with hlt | hge
  · rw [h.outside (by omega), hl.byte (by omega) (Nat.le_of_lt hlt), List.getD_append _ _ _ _ hlt]
  · obtain ⟨k, rfl⟩ := Nat.exists_eq_add_of_le hge
    rw [← Nat.add_assoc, (h.isText ht hq).byte hq (by omega), List.getD_append_right _ _ _ _ hge,
      Nat.add_sub_cancel_left]

end Stored

/-! ## 32-bit words -/

section Word

variable {m : Mem} {a : Nat}

/-- The bytes of a word, the low one first. -/
def le32 (w : BitVec 32) : List Byte :=
  [w.extractLsb' 0 8, w.extractLsb' 8 8, w.extractLsb' 16 8, w.extractLsb' 24 8]

def load32 (m : Mem) (a : Nat) : BitVec 32 := m (a + 3) ++ m (a + 2) ++ m (a + 1) ++ m a

theorem load32_congr {m' : Mem} (h : ∀ k, k < 4 → m' (a + k) = m (a + k)) : load32 m' a = load32 m a := by
  have h0 : m' a = m a := h 0 (by decide)
  rw [load32, load32, h0, h 1 (by decide), h 2 (by decide), h 3 (by decide)]

@[simp] theorem load32_put (m : Mem) (a : Nat) (w : BitVec 32) : load32 (m.put a (le32 w)) a = w := by
  have hbyte : ∀ k, k < 4 → m.put a (le32 w) (a + k) = (le32 w).getD k 0 := fun k hk =>
    (Stored.put a (le32 w) m).inside hk
  have h0 : m.put a (le32 w) a = (le32 w).getD 0 0 := hbyte 0 (by decide)
  rw [load32, h0, hbyte 1 (by decide), hbyte 2 (by decide), hbyte 3 (by decide)]
  change w.extractLsb' 24 8 ++ w.extractLsb' 16 8 ++ w.extractLsb' 8 8 ++ w.extractLsb' 0 8 = w
  rw [BitVec.extractLsb'_append_extractLsb'_eq_extractLsb' (by rfl),
    BitVec.extractLsb'_append_extractLsb'_eq_extractLsb' (by rfl),
    BitVec.extractLsb'_append_extractLsb'_eq_extractLsb' (by rfl)]
  exact BitVec.extractLsb'_eq_self

end Word

end Osdev2.Lib
