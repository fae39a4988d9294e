import Osdev2.Lib.Sign
import Osdev2.Libk.Reading
import Osdev2.Libk.Str

/-!
# The order of strings (`strcmp.c`, `memcmp.c`)

A text stands for the list of its characters' values from 0 to 255; these lists are
ordered lexicographically. `strcmp` and `memcmp` both give the sign of that order
(`strcmp_follows`, `memcmp_follows`), so `strcmp` orders strings as a linear order does.

`Checked.strcmp` has the two pointers of the source, moved where it moves them, and
fails on a read behind a terminator. It never does (`strcmp_follows`).
-/

namespace Osdev2.Libk

open Osdev2.Lib

/-! ## The functions -/

/-- From index `i`, with so many bytes left. -/
def memcmp.go (a b : CStr) : Nat → Nat → Int
  | 0, _ => 0
  | n + 1, i =>
    if (a i).toNat < (b i).toNat then -1
    else if (b i).toNat < (a i).toNat then 1
    else memcmp.go a b n (i + 1)

def memcmp (a b : CStr) (size : Nat) : Int := memcmp.go a b size 0

/-- The loop at offsets `p1` and `p2`, in strings whose terminators are at `n1` and `n2`. -/
def Checked.strcmp.go (s1 s2 : CStr) (n1 n2 : Nat) : Nat → Nat → Nat → Reading Int
  | 0, _, _ => Reading.of none
  | fuel + 1, p1, p2 => do
    let c1 ← Checked.read s1 n1 p1
    let c2 ← Checked.read s2 n2 p2
    let p2 := p2 + 1
    if c1.toInt = c2.toInt then
      let c ← Checked.read s1 n1 p1
      let p1 := p1 + 1
      if c = 0 then return 0 else Checked.strcmp.go s1 s2 n1 n2 fuel p1 p2
    else
      let u1 ← Checked.read s1 n1 p1
      let u2 ← Checked.read s2 n2 (p2 - 1)
      return (u1.toNat : Int) - u2.toNat

def Checked.strcmp (W : Nat) (s1 s2 : CStr) (n1 n2 : Nat) : Reading Int :=
  Checked.strcmp.go s1 s2 n1 n2 (2 ^ W) 0 0

/-! ## What they compute -/

/-- A text by the values of its characters. -/
def values (l : List Byte) : List Nat := l.map BitVec.toNat

theorem values_inj {l l' : List Byte} : values l = values l' ↔ l = l' :=
  (List.map_injective_iff.mpr fun _ _ => BitVec.eq_of_toNat_eq).eq_iff

section Compare

variable {W : Nat} {a b : CStr} {la lb : List Byte} {i : Nat}

/-- Two texts from an index on: both are at their end, or they differ there, or they go on. -/
theorem meet (ha : IsText a la) (hb : IsText b lb) (hia : i ≤ la.length) (hib : i ≤ lb.length) :
    (a i = 0 ∧ b i = 0 ∧ i = la.length ∧ i = lb.length ∧ la.drop i = [] ∧ lb.drop i = []) ∨
    (a i ≠ b i ∧ ∀ r, Follows r (a i).toNat (b i).toNat →
      Follows r (values (la.drop i)) (values (lb.drop i))) ∨
    (a i = b i ∧ a i ≠ 0 ∧ i + 1 ≤ la.length ∧ i + 1 ≤ lb.length ∧
      ∀ r, Follows r (values (la.drop (i + 1))) (values (lb.drop (i + 1))) →
        Follows r (values (la.drop i)) (values (lb.drop i))) := by
  have hpos : ∀ {c : Byte}, c ≠ 0 → 0 < c.toNat := fun hc => BitVec.toNat_pos_of_ne_zero hc
  rcases drop_cases ha hia with ⟨ha0, hla, hda⟩ | ⟨hane, hla, hda⟩
  · rcases drop_cases hb hib with ⟨hb0, hlb, hdb⟩ | ⟨hbne, hlb, hdb⟩
    · exact Or.inl ⟨ha0, hb0, hla, hlb, hda, hdb⟩
    · refine Or.inr (Or.inl ⟨ha0 ▸ hbne.symm, fun r hr => ?_⟩)
      rw [hda, hdb]
      refine follows_nil_cons (hr.lt.mpr ?_)
      rw [ha0]
      exact hpos hbne
  · rcases drop_cases hb hib with ⟨hb0, hlb, hdb⟩ | ⟨hbne, hlb, hdb⟩
    · refine Or.inr (Or.inl ⟨hb0 ▸ hane, fun r hr => ?_⟩)
      rw [hda, hdb]
      refine follows_cons_nil (hr.gt.mpr ?_)
      rw [hb0]
      exact hpos hane
    · rw [hda, hdb]
      by_cases hab : a i = b i
      · refine Or.inr (Or.inr ⟨hab, hane, hla, hlb, fun r hr => ?_⟩)
        rw [← hab]
        exact hr.tail _
      · exact Or.inr (Or.inl ⟨hab, fun r hr => hr.head fun h => hab (BitVec.eq_of_toNat_eq h)⟩)

theorem memcmp_go_follows (ha : IsText a la) (hb : IsText b lb) : ∀ {n i : Nat}, i ≤ la.length →
    i ≤ lb.length → i + n = min la.length lb.length + 1 →
      Follows (memcmp.go a b n i) (values (la.drop i)) (values (lb.drop i))
  | 0, i, hia, hib, hn => absurd hn (by omega)
  | n + 1, i, hia, hib, hn => by
    rw [memcmp.go]
    rcases meet ha hb hia hib with
      ⟨ha0, hb0, hla, hlb, hda, hdb⟩ | ⟨hne, hfollow⟩ | ⟨heq, hne, hla, hlb, hfollow⟩
    · obtain rfl : n = 0 := by omega
      rw [ha0, hb0, if_neg (lt_irrefl _), if_neg (lt_irrefl _), hda, hdb]
      exact follows_nil
    · apply hfollow
      rcases lt_trichotomy (a i).toNat (b i).toNat with hlt | h | hgt
      · rw [if_pos hlt]
        exact ⟨iff_of_true (by decide) hlt, iff_of_false (by decide) (lt_asymm hlt)⟩
      · exact absurd (BitVec.eq_of_toNat_eq h) hne
      · rw [if_neg (lt_asymm hgt), if_pos hgt]
        exact ⟨iff_of_false (by decide) (lt_asymm hgt), iff_of_true (by decide) hgt⟩
    · rw [heq, if_neg (lt_irrefl _), if_neg (lt_irrefl _)]
      exact hfollow _ (memcmp_go_follows ha hb hla hlb (by omega))

theorem memcmp_follows (ha : IsText a la) (hb : IsText b lb) :
    Follows (memcmp a b (min la.length lb.length + 1)) (values la) (values lb) :=
  memcmp_go_follows ha hb (Nat.zero_le _) (Nat.zero_le _) (Nat.zero_add _)

theorem strcmp_go_follows (ha : IsText a la) (hb : IsText b lb) : ∀ {fuel i : Nat}, i ≤ la.length →
    i ≤ lb.length → la.length < i + fuel → ∃ r, strcmp.go a b fuel i = some r ∧
      Checked.strcmp.go a b la.length lb.length fuel i i = Reading.of (some r) ∧
        Follows r (values (la.drop i)) (values (lb.drop i))
  | 0, i, hia, hib, hf => absurd hf (by omega)
  | fuel + 1, i, hia, hib, hf => by
    rw [strcmp.go, Checked.strcmp.go]
    simp only [read_eq hia, read_eq hib, of_bind, BitVec.toInt_inj, Nat.add_sub_cancel]
    rcases meet ha hb hia hib with
      ⟨ha0, hb0, -, -, hda, hdb⟩ | ⟨hne, hfollow⟩ | ⟨heq, hne, hla, hlb, hfollow⟩
    · rw [ha0, hb0, if_pos rfl, if_pos rfl, if_pos rfl, if_pos rfl, hda, hdb]
      exact ⟨0, rfl, rfl, follows_nil⟩
    · rw [if_neg hne, if_neg hne]
      exact ⟨_, rfl, rfl, hfollow _ (follows_sub _ _)⟩
    · rw [if_pos heq, if_pos heq, if_neg hne, if_neg hne]
      obtain ⟨r, hgo, hchecked, hr⟩ := strcmp_go_follows ha hb hla hlb (by omega : la.length < i + 1 + fuel)
      exact ⟨r, hgo, hchecked, hfollow r hr⟩

/-- `strcmp`, which reads no byte behind a terminator. -/
theorem strcmp_follows (ha : IsText a la) (hb : IsText b lb) (hl : la.length < 2 ^ W) :
    ∃ r, strcmp W a b = some r ∧ Checked.strcmp W a b la.length lb.length = Reading.of (some r) ∧
      Follows r (values la) (values lb) :=
  strcmp_go_follows ha hb (Nat.zero_le _) (Nat.zero_le _) (by omega)

end Compare

/-! ## The order -/

section Order

variable {W : Nat} {a b c : CStr} {la lb lc : List Byte}

/-- **`strcmp` orders strings.** The size of the comparison with `memcmp` is a `size_t`. -/
theorem strcmp_order (ha : IsText a la) (hb : IsText b lb) (hc : IsText c lc) (hla : la.length < 2 ^ W)
    (hlb : lb.length < 2 ^ W) : ∃ ab ba bc ac,
      Checked.strcmp W a b la.length lb.length = Reading.of (some ab) ∧
      Checked.strcmp W b a lb.length la.length = Reading.of (some ba) ∧
      Checked.strcmp W b c lb.length lc.length = Reading.of (some bc) ∧
      Checked.strcmp W a c la.length lc.length = Reading.of (some ac) ∧
      (min la.length lb.length + 1 < 2 ^ (W - 1) →
        ab.sign = (memcmp a b (min la.length lb.length + 1)).sign) ∧
      (ab = 0 ↔ la = lb) ∧
      ba.sign = -ab.sign ∧
      (ab ≤ 0 → bc ≤ 0 → ac ≤ 0) := by
  obtain ⟨ab, -, hab, fab⟩ := strcmp_follows ha hb hla
  obtain ⟨ba, -, hba, fba⟩ := strcmp_follows hb ha hlb
  obtain ⟨bc, -, hbc, fbc⟩ := strcmp_follows hb hc hlb
  obtain ⟨ac, -, hac, fac⟩ := strcmp_follows ha hc hla
  refine ⟨ab, ba, bc, ac, hab, hba, hbc, hac, fun _ => fab.sign_eq (memcmp_follows ha hb), ?_,
    ?_, fab.trans fbc fac⟩
  · rw [fab.zero_iff, values_inj]
  · rw [fba.sign_eq fab.neg, Int.sign_neg]

theorem strcmp_order_high :
    let a := [ch 'a']
    let b := [ch 'a', 0xE9]
    let c : List Byte := [0xFF]
    ∃ ab ba bc ac,
      Checked.strcmp 32 (strOf a) (strOf b) a.length b.length = Reading.of (some ab) ∧
      Checked.strcmp 32 (strOf b) (strOf a) b.length a.length = Reading.of (some ba) ∧
      Checked.strcmp 32 (strOf b) (strOf c) b.length c.length = Reading.of (some bc) ∧
      Checked.strcmp 32 (strOf a) (strOf c) a.length c.length = Reading.of (some ac) ∧
      ab.sign = (memcmp (strOf a) (strOf b) (min a.length b.length + 1)).sign ∧
      (ab = 0 ↔ a = b) ∧
      ba.sign = -ab.sign ∧
      (ab ≤ 0 → bc ≤ 0 → ac ≤ 0) := by
  intro a b c
  have ha : IsText (strOf a) a := isText_strOf (by decide)
  have hb : IsText (strOf b) b := isText_strOf (by decide)
  have hc : IsText (strOf c) c := isText_strOf (by decide)
  obtain ⟨ab, ba, bc, ac, hab, hba, hbc, hac, hmemcmp, hrest⟩ :=
    strcmp_order (W := 32) ha hb hc (by decide) (by decide)
  exact ⟨ab, ba, bc, ac, hab, hba, hbc, hac, hmemcmp (by decide), hrest⟩

end Order

end Osdev2.Libk
