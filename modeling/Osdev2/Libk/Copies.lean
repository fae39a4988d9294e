import Osdev2.Lib.Stored
import Osdev2.Libk.Str

/-!
# Copies of strings (`strcpy.c`, `strcat.c`)

The functions on a memory, with the integer types the source gives their counters:
`size_t` is a signed type of `W` bits, `int` and `unsigned` have 32. `none` is a signed
counter that overflows, and a `strcat` that finds no NUL.

`strncpy` is right on every string, and so is `strcat`, which walks its pointers.
`strncat` keeps the lengths in `unsigned`s and leaves the unbounded copy to `strcpy`,
which counts with an `int`: `bounded_copies_iff` has the lengths these hold.
-/

namespace Osdev2.Libk

open Osdev2.Lib

/-! ## The functions -/

namespace Sized

/-- From index `i` on, which may still be incremented so many times. -/
def strcpy.go (W dest src : Nat) : Nat → Nat → Mem → Option Mem
  | 0, _, _ => none
  | fuel + 1, i, m =>
    let m := Function.update m (ptrAdd W dest i) (m (ptrAdd W src i))
    if m (ptrAdd W dest i) = 0 then some m else strcpy.go W dest src fuel (i + 1) m

/-- `i` is an `int`. -/
def strcpy (W dest src : Nat) (m : Mem) : Option Mem := strcpy.go W dest src (2 ^ 31) 0 m

/-- `while (--n != 0) *d++ = 0;`, from `n + 1`. -/
def strncpy.pad (W : Nat) : Nat → Nat → Mem → Mem
  | 0, _, m => m
  | n + 1, d, m => strncpy.pad W n (ptrAdd W d 1) (Function.update m d 0)

/-- The loop, which is left when `n` is 0. -/
def strncpy.go (W : Nat) : Nat → Nat → Nat → Mem → Mem
  | 0, _, _, m => m
  | n + 1, d, s, m =>
    let c := m s
    let m := Function.update m d c
    if c = 0 then strncpy.pad W n (ptrAdd W d 1) m
    else strncpy.go W n (ptrAdd W d 1) (ptrAdd W s 1) m

def strncpy (W dst src n : Nat) (m : Mem) : Nat × Mem :=
  (dst, if n ≠ 0 then strncpy.go W n dst src m else m)

/-- `while ((*dest++ = *src++) != '\0');` -/
def strcat.go (W : Nat) : Nat → Nat → Nat → Mem → Option Mem
  | 0, _, _, _ => none
  | fuel + 1, dest, src, m =>
    let c := m src
    let m := Function.update m dest c
    if c ≠ 0 then strcat.go W fuel (ptrAdd W dest 1) (ptrAdd W src 1) m else some m

def strcat (W dest src : Nat) (m : Mem) : Option (Nat × Mem) := do
  let tmp := dest
  let k ← scan (fun c => c == 0) (m.at W dest) (2 ^ W) 0
  let m ← strcat.go W (2 ^ W) (ptrAdd W dest k) src m
  return (tmp, m)

/-- `len1` and `len2` are `unsigned`. -/
def strncat (W s1 s2 n : Nat) (m : Mem) : Option (Nat × Mem) := do
  let len1 := (← strlen W (m.at W s1)) % 2 ^ 32
  let len2 := (← strlen W (m.at W s2)) % 2 ^ 32
  if len2 < n then
    let m ← strcpy W (ptrAdd W s1 len1) s2 m
    return (s1, m)
  else
    let m := (strncpy W (ptrAdd W s1 len1) s2 n m).2
    return (s1, Function.update m (ptrAdd W s1 (len1 + n)) 0)

/-! ## `strcpy` and `strcat` -/

section Strcpy

variable {W dest src : Nat}

theorem strcpy_go_stored : ∀ {fuel i : Nat} {l : List Byte} {m : Mem}, IsText (m.at W (src + i)) l →
    l.length < fuel → dest + i + l.length < 2 ^ W → src + i + l.length < 2 ^ W →
    (dest + l.length < src ∨ src + l.length < dest) →
    ∃ m', strcpy.go W dest src fuel i m = some m' ∧ Stored (dest + i) (l ++ [0]) m m'
  | 0, _, _, _, _, hf, _, _, _ => absurd hf (Nat.not_lt_zero _)
  | fuel + 1, i, l, m, h, hf, hd, hs, hap => by
    have hread := h.byte hs (Nat.zero_le _)
    rw [strcpy.go, ptrAdd_of_lt (by omega), ptrAdd_of_lt (by omega)]
    simp only [Function.update_self]
    rw [Nat.add_zero] at hread
    rw [hread]
    cases l with
    | nil => exact ⟨_, if_pos rfl, Stored.cons (Stored.nil _ _)⟩
    | cons c l =>
      have hrest := h.tail hs
      rw [List.length_cons] at hf hd hs hap
      have hkept : IsText (Mem.at W (Function.update m (dest + i) c) (src + (i + 1))) l :=
        hrest.update (by omega) (by omega) c
      rw [List.getD_cons_zero, if_neg (h.noNul c List.mem_cons_self)]
      have hlt : l.length < fuel := Nat.lt_of_succ_lt_succ hf
      obtain ⟨m', hgo, hst⟩ := strcpy_go_stored hkept hlt (by omega) (by omega) (by omega)
      exact ⟨m', hgo, Stored.cons hst⟩

theorem strcpy_go_none : ∀ {fuel i : Nat} {m : Mem}, (∀ j, j < i + fuel → m (ptrAdd W src j) ≠ 0) →
    strcpy.go W dest src fuel i m = none
  | 0, _, _, _ => rfl
  | fuel + 1, i, m, h => by
    have hi := h i (by omega)
    rw [strcpy.go]
    simp only [Function.update_self]
    rw [if_neg hi]
    refine strcpy_go_none fun j hj => ?_
    rw [Function.update_apply]
    split
    · exact hi
    · exact h j (by omega)

/-- The loop of `strcat` is that of `strcpy`, whose index it adds to the pointers. -/
theorem strcat_go_eq : ∀ {fuel i : Nat} {m : Mem},
    strcat.go W fuel (ptrAdd W dest i) (ptrAdd W src i) m = strcpy.go W dest src fuel i m
  | 0, _, _ => rfl
  | fuel + 1, i, m => by
    rw [strcat.go, strcpy.go, ptrAdd_ptrAdd, ptrAdd_ptrAdd, strcat_go_eq]
    simp only [Function.update_self, ite_not]

end Strcpy

/-! ## `strncpy` -/

section Strncpy

variable {W : Nat}

theorem strncpy_eq (dst src n : Nat) (m : Mem) : strncpy W dst src n m = (dst, strncpy.go W n dst src m) := by
  cases n <;> rfl

theorem pad_stored : ∀ {n d : Nat} {m : Mem}, d + n ≤ 2 ^ W →
    Stored d (List.replicate n 0) m (strncpy.pad W n d m)
  | 0, d, m, _ => Stored.nil d m
  | n + 1, d, m, h => by
    rw [strncpy.pad]
    refine Stored.cons ?_
    rcases Nat.eq_zero_or_pos n with rfl | hn
    · exact Stored.nil _ _
    · rw [ptrAdd_of_lt (by omega)]
      exact pad_stored (by omega)

/-- The loop stores the characters, then zeros; a last increment of `d` may wrap. -/
theorem strncpy_go_stored : ∀ {n d s : Nat} {l : List Byte} {m : Mem}, IsText (m.at W s) l →
    d + n ≤ 2 ^ W → s + l.length < 2 ^ W → (d + n ≤ s ∨ s + l.length < d) →
    Stored d (l.take n ++ List.replicate (n - l.length) 0) m (strncpy.go W n d s m)
  | 0, d, _, l, m, _, _, _, _ => by
    rw [List.take_zero, Nat.zero_sub]
    exact Stored.nil d m
  | n + 1, d, s, [], m, h, hd, hs, _ => by
    have hread : m s = 0 := h.byte hs (Nat.zero_le _)
    rw [strncpy.go, hread, if_pos rfl]
    exact pad_stored (n := n + 1) hd
  | n + 1, d, s, c :: l, m, h, hd, hs, hap => by
    have hread : m s = c := h.byte hs (Nat.zero_le _)
    have hrest := h.tail hs
    rw [List.length_cons] at hs hap ⊢
    rw [strncpy.go, hread, if_neg (h.noNul c List.mem_cons_self), ptrAdd_of_lt (p := s) (by omega),
      List.take_succ_cons, Nat.add_sub_add_right]
    refine Stored.cons ?_
    rcases Nat.eq_zero_or_pos n with rfl | hn
    · rw [List.take_zero, Nat.zero_sub]
      exact Stored.nil _ _
    · have hkept : IsText (Mem.at W (Function.update m d c) (s + 1)) l :=
        hrest.update (by omega) (by omega) c
      rw [ptrAdd_of_lt (by omega)]
      exact strncpy_go_stored hkept (by omega) (by omega) (by omega)

/-- The arguments of `strncpy`: the text of `src` and `n` bytes at `dst`, inside memory and apart. -/
structure strncpy.Args (W dst src n : Nat) (l : List Byte) (m : Mem) : Prop where
  text : IsText (m.at W src) l
  src_end : src + l.length < 2 ^ W
  dst_end : dst + n ≤ 2 ^ W
  apart : NoOverlap dst n src (l.length + 1)

/-- The first characters, then zeros, in `n` bytes and nowhere else. -/
structure Copied (dst n : Nat) (l : List Byte) (m m' : Mem) : Prop where
  chars : ∀ k, k < min n l.length → m' (dst + k) = l.getD k 0
  zeros : ∀ k, l.length ≤ k → k < n → m' (dst + k) = 0
  frame : ∀ a, ¬(dst ≤ a ∧ a < dst + n) → m' a = m a

theorem Copied.of_stored {dst n : Nat} {l : List Byte} {m m' : Mem}
    (h : Stored dst (l.take n ++ List.replicate (n - l.length) 0) m m') : Copied dst n l m m' := by
  have hlen : (l.take n ++ List.replicate (n - l.length) 0).length = n := by
    rw [List.length_append, List.length_take, List.length_replicate]
    omega
  refine ⟨fun k hk => ?_, fun k hl hk => ?_, fun a ha => h.outside (by rwa [hlen])⟩
  · rw [h.inside (by omega), List.getD_append _ _ _ _ (by rw [List.length_take]; omega),
      getD_take l 0 (by omega)]
  · rw [h.inside (by omega), List.getD_append_right _ _ _ _ (by rw [List.length_take]; omega),
      List.getD_replicate _ (by rw [List.length_take]; omega)]

theorem strncpy_copied {dst src n : Nat} {l : List Byte} {m : Mem} (h : strncpy.Args W dst src n l m) :
    (strncpy W dst src n m).1 = dst ∧ Copied dst n l m (strncpy W dst src n m).2 := by
  rw [strncpy_eq]
  refine ⟨rfl, Copied.of_stored ?_⟩
  rcases Nat.eq_zero_or_pos n with rfl | hn
  · rw [List.take_zero, Nat.zero_sub]
    exact Stored.nil dst m
  · exact strncpy_go_stored h.text h.dst_end h.src_end (h.apart.cases hn (Nat.succ_pos _))

end Strncpy

/-! ## `strncat` -/

/-- The arguments of `strncat`: two texts, and room behind the first for what is appended, inside
memory and apart. -/
structure strncat.Args (W s1 s2 n : Nat) (l1 l2 : List Byte) (m : Mem) : Prop where
  text1 : IsText (m.at W s1) l1
  text2 : IsText (m.at W s2) l2
  end1 : s1 + l1.length + min n l2.length < 2 ^ W
  end2 : s2 + l2.length < 2 ^ W
  apart : NoOverlap s1 (l1.length + min n l2.length + 1) s2 (l2.length + 1)

/-- The first characters of the second text appended, and no other byte changed. -/
structure Concatenated (W s1 n : Nat) (l1 l2 : List Byte) (m m' : Mem) : Prop where
  text : IsText (m'.at W s1) (l1 ++ l2.take n)
  frame : ∀ a, ¬(s1 + l1.length ≤ a ∧ a ≤ s1 + l1.length + min n l2.length) → m' a = m a

/-- No counter of `strncat` overflows: `size_t` holds both lengths, and where `strcpy` is called its
index counts the second. -/
def strncat.Counts (W n k1 k2 : Nat) : Prop :=
  k1 < 2 ^ (W - 1) ∧ k2 < 2 ^ (W - 1) ∧ (k2 < 2 ^ 31 ∨ n ≤ k2 % 2 ^ 32)

section Strncat

variable {W s1 s2 n : Nat} {l1 l2 : List Byte} {m : Mem}

theorem strncat.Args.aside (ha : strncat.Args W s1 s2 n l1 l2 m) :
    s1 + (l1.length + min n l2.length) < s2 ∨ s2 + l2.length < s1 :=
  ha.apart.cases (Nat.succ_pos _) (Nat.succ_pos _)

/-- What `strncat` stores, behind as much of the first text as `len1` holds. -/
theorem strncat_stored (ha : strncat.Args W s1 s2 n l1 l2 m) (hc : strncat.Counts W n l1.length l2.length) :
    ∃ m', strncat W s1 s2 n m = some (s1, m') ∧
      Stored (s1 + l1.length % 2 ^ 32) (l2.take n ++ [0]) m m' := by
  obtain ⟨hk1, hk2, hidx⟩ := hc
  have hap := ha.aside
  have hend1 := ha.end1
  have hle := Nat.mod_le l1.length (2 ^ 32)
  rw [strncat, strlen_text ha.text1 hk1, strlen_text ha.text2 hk2]
  simp only [Option.bind_eq_bind, Option.bind_some]
  rw [ptrAdd_of_lt (by omega)]
  by_cases hlt : l2.length % 2 ^ 32 < n
  · have hsmall : l2.length < 2 ^ 31 := hidx.resolve_right (Nat.not_le_of_lt hlt)
    have hall : l2.length ≤ n := by omega
    obtain ⟨m', hcpy, hst⟩ := strcpy_go_stored (i := 0) ha.text2 hsmall
      (by omega : s1 + l1.length % 2 ^ 32 + 0 + l2.length < 2 ^ W) ha.end2 (by omega)
    rw [if_pos hlt, strcpy, hcpy, List.take_of_length_le hall]
    exact ⟨m', rfl, hst⟩
  · have hcut : n ≤ l2.length := by omega
    have hst := strncpy_go_stored (n := n) (d := s1 + l1.length % 2 ^ 32) ha.text2 (by omega) ha.end2
      (by omega)
    rw [Nat.sub_eq_zero_of_le hcut, List.replicate_zero, List.append_nil] at hst
    have hsn := hst.snoc 0
    rw [List.length_take, Nat.min_eq_left hcut] at hsn
    rw [if_neg hlt, strncpy_eq, ptrAdd_of_lt (by omega), ← Nat.add_assoc]
    exact ⟨_, rfl, hsn⟩

theorem strncat_none (ha : strncat.Args W s1 s2 n l1 l2 m) (hc : ¬strncat.Counts W n l1.length l2.length) :
    strncat W s1 s2 n m = none := by
  rw [strncat]
  rcases Nat.lt_or_ge l1.length (2 ^ (W - 1)) with hk1 | hk1
  · rcases Nat.lt_or_ge l2.length (2 ^ (W - 1)) with hk2 | hk2
    · -- both lengths are there, and `i` overflows
      obtain ⟨hbig, hlt⟩ : 2 ^ 31 ≤ l2.length ∧ l2.length % 2 ^ 32 < n := by
        rw [strncat.Counts] at hc
        omega
      have hnone : strcpy W (ptrAdd W s1 (l1.length % 2 ^ 32)) s2 m = none :=
        strcpy_go_none fun j hj => ha.text2.ne_zero (by omega)
      rw [strlen_text ha.text1 hk1, strlen_text ha.text2 hk2]
      simp only [Option.bind_eq_bind, Option.bind_some]
      rw [if_pos hlt, hnone]
      rfl
    · rw [strlen_text ha.text1 hk1, strlen_none ha.text2 hk2]
      rfl
  · rw [strlen_none ha.text1 hk1]
    rfl

theorem Concatenated.of_stored {m' : Mem} (ha : strncat.Args W s1 s2 n l1 l2 m)
    (h : Stored (s1 + l1.length) (l2.take n ++ [0]) m m') : Concatenated W s1 n l1 l2 m m' := by
  have hend := ha.end1
  refine ⟨Stored.text ha.text1 (fun c hc => ha.text2.noNul c (List.mem_of_mem_take hc)) ?_ h,
    fun a hout => h.outside ?_⟩
  · rw [List.length_take]
    omega
  · rw [List.length_append, List.length_take, List.length_singleton]
    omega

/-- Where it does not, the NUL behind the characters appended is in the midst of the first text. -/
theorem not_concatenated_of_long (ha : strncat.Args W s1 s2 n l1 l2 m) (hlong : 2 ^ 32 ≤ l1.length) :
    ¬∃ m', strncat W s1 s2 n m = some (s1, m') ∧ Concatenated W s1 n l1 l2 m m' := by
  rintro ⟨m', hcat, htext, -⟩
  have hend := ha.end1
  have hcounts : strncat.Counts W n l1.length l2.length := by
    by_contra hc
    cases (strncat_none ha hc).symm.trans hcat
  obtain ⟨m₁, hcat₁, hst⟩ := strncat_stored ha hcounts
  obtain rfl : m₁ = m' := by
    rw [hcat] at hcat₁
    cases hcat₁
    rfl
  have htaken : (l2.take n).length = min n l2.length := List.length_take
  have hlow : l1.length % 2 ^ 32 < 2 ^ 32 := Nat.mod_lt _ (by decide)
  have hnul := hst.inside (k := (l2.take n).length) (by rw [List.length_append, List.length_singleton]; omega)
  rw [getD_concat, if_pos rfl] at hnul
  have hne := htext.ne_zero (i := l1.length % 2 ^ 32 + (l2.take n).length) (by rw [List.length_append]; omega)
  rw [Mem.at_eq (by omega), ← Nat.add_assoc] at hne
  exact hne hnul

/-! ## `strcat`, which walks its pointers -/

theorem strcat_go_zero {dest src fuel : Nat} (hd : dest < 2 ^ W) (hs : src < 2 ^ W) :
    strcat.go W fuel dest src m = strcpy.go W dest src fuel 0 m := by
  have h : strcat.go W fuel (ptrAdd W dest 0) (ptrAdd W src 0) m = strcpy.go W dest src fuel 0 m :=
    strcat_go_eq
  rwa [ptrAdd_zero hd, ptrAdd_zero hs] at h

/-- The whole second text is appended, however long the two are. -/
theorem strcat_stored (ha : strncat.Args W s1 s2 l2.length l1 l2 m) :
    ∃ m', strcat W s1 s2 m = some (s1, m') ∧ Stored (s1 + l1.length) (l2 ++ [0]) m m' := by
  have hap := ha.aside
  have hend1 := ha.end1
  have hend2 := ha.end2
  have hscan : scan (fun c => c == 0) (m.at W s1) (2 ^ W) 0 = some l1.length :=
    scan_end ha.text1 rfl (fun _ => beq_false_of_ne) (by omega)
  obtain ⟨m', hcpy, hst⟩ := strcpy_go_stored (i := 0) ha.text2 (by omega : l2.length < 2 ^ W)
    (by omega : s1 + l1.length + 0 + l2.length < 2 ^ W) ha.end2 (by omega)
  rw [strcat, hscan]
  simp only [Option.bind_eq_bind, Option.bind_some]
  rw [ptrAdd_of_lt (by omega), strcat_go_zero (by omega) (by omega), hcpy]
  exact ⟨m', rfl, hst⟩

theorem strncat_eq_strcat (ha : strncat.Args W s1 s2 n l1 l2 m) (hn : l2.length ≤ n)
    (h1 : l1.length < 2 ^ 32) (hc : strncat.Counts W n l1.length l2.length) :
    strncat W s1 s2 n m = strcat W s1 s2 m := by
  have hmin : min n l2.length = min l2.length l2.length := by omega
  have ha' : strncat.Args W s1 s2 l2.length l1 l2 m :=
    ⟨ha.text1, ha.text2, hmin ▸ ha.end1, ha.end2, hmin ▸ ha.apart⟩
  obtain ⟨m', hcat, hst⟩ := strncat_stored ha hc
  obtain ⟨m₁, hcat₁, hst₁⟩ := strcat_stored ha'
  rw [Nat.mod_eq_of_lt h1, List.take_of_length_le hn] at hst
  rw [hcat, hcat₁, hst.unique hst₁]

/-! ## Both -/

/-- **The bounded copies** do what they say on strings that `strncat` can count, and only there:
`strncpy` on all, `strncat` where `len1`, an `unsigned`, holds the length of the first and no counter
overflows. -/
theorem bounded_copies_iff {dst src k : Nat} {l : List Byte} {mc : Mem} (hcpy : strncpy.Args W dst src k l mc)
    (hcat : strncat.Args W s1 s2 n l1 l2 m) :
    ((strncpy W dst src k mc).1 = dst ∧ Copied dst k l mc (strncpy W dst src k mc).2) ∧
        (∃ m', strncat W s1 s2 n m = some (s1, m') ∧ Concatenated W s1 n l1 l2 m m') ↔
      l1.length < 2 ^ 32 ∧ strncat.Counts W n l1.length l2.length := by
  constructor
  · rintro ⟨-, m', hret, hdone⟩
    refine ⟨?_, ?_⟩
    · by_contra hlong
      exact not_concatenated_of_long hcat (Nat.le_of_not_lt hlong) ⟨m', hret, hdone⟩
    · by_contra hc
      cases (strncat_none hcat hc).symm.trans hret
  · rintro ⟨h1, hc⟩
    obtain ⟨m', hret, hst⟩ := strncat_stored hcat hc
    rw [Nat.mod_eq_of_lt h1] at hst
    exact ⟨strncpy_copied hcpy, m', hret, Concatenated.of_stored hcat hst⟩

/-- On i386 these are the lengths that a `size_t` holds. -/
theorem counts_i386 {k1 k2 : Nat} :
    k1 < 2 ^ 32 ∧ strncat.Counts 32 n k1 k2 ↔ k1 < 2 ^ 31 ∧ k2 < 2 ^ 31 := by
  rw [strncat.Counts]
  omega

end Strncat

/-- Two texts in memory, the second above the first. -/
def textsAt (p : Nat) (l : List Byte) (q : Nat) (t : List Byte) : Mem :=
  fun a => if a < q then strOf l (a - p) else strOf t (a - q)

theorem textsAt_args {W p q n : Nat} {l t : List Byte} (hl : ∀ c ∈ l, c ≠ 0) (ht : ∀ c ∈ t, c ≠ 0)
    (hroom : p + l.length + min n t.length < q) (hq : q + t.length < 2 ^ W) :
    strncat.Args W p q n l t (textsAt p l q t) where
  text1 := (isText_strOf hl).congr fun i hi => by
    rw [Mem.at_eq (by omega), textsAt, if_pos (by omega), Nat.add_sub_cancel_left]
  text2 := (isText_strOf ht).congr fun i hi => by
    rw [Mem.at_eq (by omega), textsAt, if_neg (by omega), Nat.add_sub_cancel_left]
  end1 := by omega
  end2 := hq
  apart := fun x y hx hy => by omega

theorem bounded_copies_iff_pair :
    ((strncpy 32 0x300 0x200 4 (textsAt 0x100 [ch 'a', ch 'b'] 0x200 [ch 'c', ch 'd'])).1 = 0x300 ∧
        Copied 0x300 4 [ch 'c', ch 'd'] (textsAt 0x100 [ch 'a', ch 'b'] 0x200 [ch 'c', ch 'd'])
          (strncpy 32 0x300 0x200 4 (textsAt 0x100 [ch 'a', ch 'b'] 0x200 [ch 'c', ch 'd'])).2) ∧
      ∃ m', strncat 32 0x100 0x200 1 (textsAt 0x100 [ch 'a', ch 'b'] 0x200 [ch 'c', ch 'd']) =
          some (0x100, m') ∧
        Concatenated 32 0x100 1 [ch 'a', ch 'b'] [ch 'c', ch 'd']
          (textsAt 0x100 [ch 'a', ch 'b'] 0x200 [ch 'c', ch 'd']) m' := by
  have hcat : strncat.Args 32 0x100 0x200 1 [ch 'a', ch 'b'] [ch 'c', ch 'd']
      (textsAt 0x100 [ch 'a', ch 'b'] 0x200 [ch 'c', ch 'd']) :=
    textsAt_args (by decide) (by decide) (by decide) (by decide)
  have hcpy : strncpy.Args 32 0x300 0x200 4 [ch 'c', ch 'd']
      (textsAt 0x100 [ch 'a', ch 'b'] 0x200 [ch 'c', ch 'd']) :=
    ⟨hcat.text2, by decide, by decide, fun x y _ hy => by
      simp only [List.length_cons, List.length_nil] at hy
      omega⟩
  exact (bounded_copies_iff hcpy hcat).mpr ⟨by decide, by decide, by decide, Or.inl (by decide)⟩

/-- 2^32 characters. -/
def longText : List Byte := List.replicate (2 ^ 32) (ch 'a')

theorem longText_length : longText.length = 2 ^ 32 := List.length_replicate

theorem longText_args :
    strncat.Args 64 (2 ^ 32) (2 ^ 34) 1 longText [ch 'b'] (textsAt (2 ^ 32) longText (2 ^ 34) [ch 'b']) := by
  refine textsAt_args (fun c hc => ?_) (by decide) ?_ (by decide)
  · rw [List.eq_of_mem_replicate hc]
    decide
  · rw [longText_length]
    decide

/-- On a 64-bit machine, `b` appended to 2^32 characters: `len1` is 0, and the first text is
overwritten and ends behind its first character. -/
theorem strncat_overwrites :
    strncat.Args 64 (2 ^ 32) (2 ^ 34) 1 longText [ch 'b'] (textsAt (2 ^ 32) longText (2 ^ 34) [ch 'b']) ∧
      (∃ m', strncat 64 (2 ^ 32) (2 ^ 34) 1 (textsAt (2 ^ 32) longText (2 ^ 34) [ch 'b']) =
          some (2 ^ 32, m') ∧ IsText (m'.at 64 (2 ^ 32)) [ch 'b']) ∧
      ¬∃ m', strncat 64 (2 ^ 32) (2 ^ 34) 1 (textsAt (2 ^ 32) longText (2 ^ 34) [ch 'b']) =
          some (2 ^ 32, m') ∧
        Concatenated 64 (2 ^ 32) 1 longText [ch 'b'] (textsAt (2 ^ 32) longText (2 ^ 34) [ch 'b']) m' := by
  have hcounts : strncat.Counts 64 1 longText.length 1 := by
    rw [longText_length]
    exact ⟨by decide, by decide, Or.inl (by decide)⟩
  obtain ⟨m', hcat, hst⟩ := strncat_stored longText_args hcounts
  rw [longText_length, Nat.mod_self, Nat.add_zero] at hst
  have htext : IsText (m'.at 64 (2 ^ 32)) [ch 'b'] := hst.isText (by decide) (by decide)
  exact ⟨longText_args, ⟨m', hcat, htext⟩,
    not_concatenated_of_long longText_args (Nat.le_of_eq longText_length.symm)⟩

end Sized

end Osdev2.Libk
