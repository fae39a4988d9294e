import Mathlib

/-!
# Pieces between separators

Of `n` positions some are separators. A piece (`IsPiece`) is a maximal run of the
others. `Pieces sep n i R` says that `R` lists the pieces from `i` on as a scan from
left to right finds them: separators are skipped, a piece is taken up to the next
separator, and the scan goes on behind that.

`Pieces.mem_iff` and `Pieces.sorted`: such a list is all the pieces, in order;
`exists_pieces`: there is one.
-/

namespace Osdev2.Lib

/-- `k` positions from `a` on, no separator among them and none to add. -/
structure IsPiece (sep : Nat → Prop) (n a k : Nat) : Prop where
  pos : 0 < k
  le : a + k ≤ n
  inside : ∀ j, a ≤ j → j < a + k → ¬sep j
  left : a = 0 ∨ sep (a - 1)
  right : a + k = n ∨ sep (a + k)

inductive Pieces (sep : Nat → Prop) (n : Nat) : Nat → List (Nat × Nat) → Prop
  | done {i : Nat} (h : ∀ j, i ≤ j → j < n → sep j) : Pieces sep n i []
  | piece {i a k : Nat} {R : List (Nat × Nat)} (hi : i ≤ a) (skip : ∀ j, i ≤ j → j < a → sep j)
      (pos : 0 < k) (le : a + k ≤ n) (inside : ∀ j, a ≤ j → j < a + k → ¬sep j)
      (right : a + k = n ∨ sep (a + k)) (rest : Pieces sep n (a + k + 1) R) : Pieces sep n i ((a, k) :: R)

variable {sep : Nat → Prop} {n i : Nat} {R : List (Nat × Nat)}

theorem Pieces.ge (h : Pieces sep n i R) : ∀ r ∈ R, i ≤ r.1 := by
  induction h with
  | done => exact fun _ hr => absurd hr List.not_mem_nil
  | piece hi _ _ _ _ _ _ ih =>
    refine List.forall_mem_cons.mpr ⟨hi, fun r hr => ?_⟩
    have hle := ih r hr
    omega

theorem Pieces.sorted (h : Pieces sep n i R) : R.Pairwise fun r r' => r.1 < r'.1 := by
  induction h with
  | done => exact .nil
  | piece _ _ _ _ _ _ rest ih =>
    refine .cons (fun r hr => ?_) ih
    have hle := rest.ge r hr
    simp only
    omega

/-- Two pieces that begin together are one. -/
theorem IsPiece.length_eq {a k k' : Nat} (h : IsPiece sep n a k) (h' : IsPiece sep n a k') : k = k' := by
  have hle : ∀ {k k' : Nat}, IsPiece sep n a k → IsPiece sep n a k' → k ≤ k' := by
    intro k k' h h'
    by_contra hlt
    have hk := h.le
    rcases h'.right with hend | hsep
    · omega
    · exact h.inside _ (by omega) (by omega) hsep
  exact Nat.le_antisymm (hle h h') (hle h' h)

theorem Pieces.mem_iff (h : Pieces sep n i R) (hi : i = 0 ∨ sep (i - 1) ∨ n < i) {a k : Nat} :
    (a, k) ∈ R ↔ IsPiece sep n a k ∧ i ≤ a := by
  induction h with
  | done h =>
    refine ⟨fun hr => absurd hr List.not_mem_nil, fun ⟨hp, hia⟩ => ?_⟩
    have hpos := hp.pos
    have hle := hp.le
    exact absurd (h a hia (by omega)) (hp.inside a (Nat.le_refl a) (by omega))
  | @piece i b l R hib skip pos le inside right rest ih =>
    have hb : IsPiece sep n b l := by
      refine ⟨pos, le, inside, ?_, right⟩
      rcases Nat.eq_or_lt_of_le hib with rfl | hlt
      · rcases hi with h0 | hsep | hn
        · exact Or.inl h0
        · exact Or.inr hsep
        · omega
      · exact Or.inr (skip (b - 1) (by omega) (by omega))
    have hnext : b + l + 1 = 0 ∨ sep (b + l + 1 - 1) ∨ n < b + l + 1 := by
      rcases right with hend | hsep
      · exact Or.inr (Or.inr (by omega))
      · exact Or.inr (Or.inl hsep)
    rw [List.mem_cons, ih hnext, Prod.mk.injEq]
    constructor
    · rintro (⟨rfl, rfl⟩ | ⟨hp, hle⟩)
      · exact ⟨hb, hib⟩
      · exact ⟨hp, by omega⟩
    · rintro ⟨hp, hia⟩
      have hpos := hp.pos
      -- before `b` there are separators, and inside its piece another cannot begin
      rcases Nat.lt_trichotomy a b with hlt | rfl | hgt
      · exact absurd (skip a hia hlt) (hp.inside a (Nat.le_refl a) (by omega))
      · exact Or.inl ⟨rfl, hp.length_eq hb⟩
      · rcases Nat.lt_or_ge (b + l) a with h1 | h1
        · exact Or.inr ⟨hp, h1⟩
        · rcases hp.left with h0 | hsep
          · omega
          · exact absurd hsep (inside _ (by omega) (by omega))

/-- A separator in front changes nothing. -/
theorem Pieces.skip_one (h : Pieces sep n (i + 1) R) (hi : sep i) : Pieces sep n i R := by
  have hfrom : ∀ {j : Nat}, i ≤ j → j = i ∨ i + 1 ≤ j := by
    intro j hj
    omega
  cases h with
  | done h =>
    refine .done fun j hj hjn => ?_
    rcases hfrom hj with rfl | h1
    · exact hi
    · exact h j h1 hjn
  | piece hia skip pos le inside right rest =>
    refine .piece (by omega) (fun j hj hja => ?_) pos le inside right rest
    rcases hfrom hj with rfl | h1
    · exact hi
    · exact skip j h1 hja

theorem exists_pieces (sep : Nat → Prop) (n i : Nat) : ∃ R, Pieces sep n i R := by
  obtain ⟨d, hd⟩ : ∃ d, d = n - i := ⟨_, rfl⟩
  induction d using Nat.strong_induction_on generalizing i with
  | _ d ih =>
    rcases Nat.lt_or_ge i n with hi | hi
    · obtain ⟨R, hR⟩ := ih (n - (i + 1)) (by omega) (i + 1) rfl
      by_cases hs : sep i
      · exact ⟨R, hR.skip_one hs⟩
      · by_cases hend : i + 1 = n ∨ sep (i + 1)
        · -- a piece of one position
          obtain ⟨R', hR'⟩ : ∃ R', Pieces sep n (i + 1 + 1) R' := by
            rcases Nat.lt_or_ge (i + 1) n with h1 | h1
            · exact ih (n - (i + 1 + 1)) (by omega) (i + 1 + 1) rfl
            · exact ⟨[], .done fun j hj hjn => absurd hjn (by omega)⟩
          refine ⟨(i, 1) :: R', .piece (Nat.le_refl i) (fun j hj hji => absurd hji (by omega)) Nat.one_pos
            hi (fun j hj hj1 => ?_) hend hR'⟩
          obtain rfl : j = i := by omega
          exact hs
        · -- the piece that begins behind it, one longer
          rw [not_or] at hend
          cases hR with
          | done h => exact absurd (h (i + 1) (Nat.le_refl _) (by omega)) hend.2
          | @piece _ a k R' hia skip pos le inside right rest =>
            obtain rfl : a = i + 1 := by
              by_contra hne
              exact hend.2 (skip (i + 1) (Nat.le_refl _) (by omega))
            refine ⟨(i, k + 1) :: R', .piece (Nat.le_refl i) (fun j hj hji => absurd hji (by omega))
              (Nat.succ_pos k) (by omega) (fun j hj hjk => ?_) ?_ ?_⟩
            · rcases Nat.eq_or_lt_of_le hj with rfl | hlt
              · exact hs
              · exact inside j hlt (by omega)
            · rw [show i + (k + 1) = i + 1 + k by omega]
              exact right
            · rw [show i + (k + 1) + 1 = i + 1 + k + 1 by omega]
              exact rest
    · exact ⟨[], .done fun j hj hjn => absurd hjn (by omega)⟩

end Osdev2.Lib
