import Osdev2.Libk.Str

/-!
# The string functions on texts

What `strcmp` and `strtok` do to strings whose text is known (`IsText`).

* `strcmp_text`: the result is 0 exactly on equal texts.
* `Line`: a line `strtok` is at work on, split at `olds` into the bytes it has
  passed, its NULs among them, and the text it has yet to scan. `Line.next` is
  one call; `strtok_line` says that the code makes it, and touches nothing else.
-/

namespace Osdev2.Libk

open Osdev2.Lib

/-! ## `strcmp` -/

section Strcmp

variable {W : Nat} {s1 s2 : CStr} {n : Nat}

theorem strcmp_go (hn : s2 n = 0) (hne : ∀ j, j < n → s2 j ≠ 0) : ∀ {fuel i : Nat}, i ≤ n →
    n < i + fuel → ∃ r, strcmp.go s1 s2 fuel i = some r ∧
      (r = 0 ↔ ∀ j, i ≤ j → j ≤ n → s1 j = s2 j)
  | 0, i, h1, h2 => absurd h2 (by omega)
  | fuel + 1, i, h1, h2 => by
    rw [strcmp.go]
    split
    · rename_i heq
      rcases Nat.eq_or_lt_of_le h1 with rfl | hlt
      · refine ⟨0, if_pos (heq.trans hn), fun _ j h3 h4 => ?_, fun _ => rfl⟩
        obtain rfl := Nat.le_antisymm h3 h4
        exact heq
      · have hlt2 : n < i + 1 + fuel := by omega
        obtain ⟨r, hr, hiff⟩ := strcmp_go hn hne hlt hlt2
        refine ⟨r, by rw [if_neg (heq ▸ hne i hlt), hr], hiff.trans ⟨fun H j h3 h4 => ?_,
          fun H j h3 h4 => H j (by omega) h4⟩⟩
        rcases Nat.eq_or_lt_of_le h3 with rfl | h5
        · exact heq
        · exact H j h5 h4
    · rename_i hdiff
      refine ⟨_, rfl, fun h0 => absurd (BitVec.eq_of_toNat_eq (by omega)) hdiff,
        fun H => absurd (H i (Nat.le_refl i) h1) hdiff⟩

/-- Against a terminated string `strcmp` returns, whatever the other is. -/
theorem strcmp_returns {l : List Byte} (h : IsText s2 l) (hl : l.length < 2 ^ W) :
    ∃ r, strcmp W s1 s2 = some r ∧ (r = 0 ↔ ∀ j, j ≤ l.length → s1 j = s2 j) := by
  obtain ⟨r, hr, hiff⟩ : ∃ r, strcmp.go s1 s2 (2 ^ W) 0 = some r ∧
      (r = 0 ↔ ∀ j, 0 ≤ j → j ≤ l.length → s1 j = s2 j) :=
    strcmp_go h.nul (fun j hj => h.ne_zero hj) (Nat.zero_le _) (by omega)
  exact ⟨r, hr, hiff.trans ⟨fun H j => H j (Nat.zero_le j), fun H j _ => H j⟩⟩

theorem strcmp_text {l l' : List Byte} (h1 : IsText s1 l) (h2 : IsText s2 l')
    (hl : l'.length < 2 ^ W) : ∃ r, strcmp W s1 s2 = some r ∧ (r = 0 ↔ l = l') := by
  obtain ⟨r, hr, hiff⟩ : ∃ r, strcmp W s1 s2 = some r ∧
      (r = 0 ↔ ∀ j, j ≤ l'.length → s1 j = s2 j) := strcmp_returns h2 hl
  refine ⟨r, hr, hiff.trans ⟨fun H => h1.unique (h2.congr H), ?_⟩⟩
  rintro rfl j hj
  rw [h1.reads j hj, h2.reads j hj]

end Strcmp

/-! ## `strtok` -/

/-- A line under `strtok`, split at `olds`. -/
structure Line where
  past : List Byte
  rest : List Byte

namespace Line

def bytes (l : Line) : List Byte := l.past ++ l.rest

/-- The next token, empty when there is none. The delimiter after it becomes NUL. -/
def next (delim : List Byte) (l : Line) : List Byte × Line :=
  let i := l.rest.findIdx (!delim.contains ·)
  let r := l.rest.drop i
  let k := r.findIdx delim.contains
  (r.take k, if k < r.length then ⟨l.past ++ l.rest.take (i + k) ++ [0], r.drop (k + 1)⟩
    else ⟨l.past ++ l.rest, []⟩)

/-- The line is what memory holds from `p` on, then a NUL. -/
structure At (m : Mem) (p : Nat) (l : Line) : Prop where
  reads : ∀ i, i ≤ l.bytes.length → m (p + i) = l.bytes.getD i 0
  noNul : ∀ c ∈ l.rest, c ≠ 0

theorem next_length (delim : List Byte) (l : Line) :
    (l.next delim).2.bytes.length = l.bytes.length := by
  simp only [next, bytes]
  split
  · rename_i h
    simp only [List.length_append, List.length_take, List.length_drop, List.length_cons,
      List.length_nil] at h ⊢
    omega
  · simp

/-- A call only writes NULs. -/
theorem mem_next_bytes {delim : List Byte} {l : Line} {b : Byte} (h : b ∈ (l.next delim).2.bytes) :
    b = 0 ∨ b ∈ l.bytes := by
  simp only [next, bytes] at h ⊢
  split at h
  · simp only [List.mem_append, List.mem_singleton] at h
    rcases h with ((h | h) | h) | h
    · exact Or.inr (List.mem_append_left _ h)
    · exact Or.inr (List.mem_append_right _ (List.mem_of_mem_take h))
    · exact Or.inl h
    · exact Or.inr (List.mem_append_right _ (List.mem_of_mem_drop (List.mem_of_mem_drop h)))
  · rw [List.append_nil] at h
    exact Or.inr h

theorem next_token_length (delim : List Byte) (l : Line) :
    (l.next delim).1.length ≤ l.bytes.length := by
  simp only [next, bytes, List.length_take, List.length_drop, List.length_append]
  omega

variable {W : Nat} {m : Mem} {p : Nat} {l : Line}

theorem At.text (h : l.At m p) (hp : p + l.bytes.length < 2 ^ W) :
    IsText (m.at W (p + l.past.length)) l.rest := by
  refine ⟨fun i hi => ?_, h.noNul⟩
  have hb : l.bytes.length = l.past.length + l.rest.length := List.length_append
  have hr := h.reads (l.past.length + i) (by omega)
  rw [Mem.at_eq (by omega), Nat.add_assoc, hr, bytes,
    List.getD_append_right _ _ _ _ (by omega), Nat.add_sub_cancel_left]

/-- The two outcomes of a call: no token, or one of length `k` after `i` delimiters. -/
theorem next_cases (delim : List Byte) (l : Line) :
    l.rest.findIdx (!delim.contains ·) = l.rest.length ∧ l.next delim = ([], ⟨l.bytes, []⟩) ∨
    ∃ i k, l.rest.findIdx (!delim.contains ·) = i ∧ i < l.rest.length ∧
      (l.rest.drop i).findIdx delim.contains = k ∧ 0 < k ∧ i + k ≤ l.rest.length ∧
      l.next delim = ((l.rest.drop i).take k,
        if i + k < l.rest.length then ⟨l.past ++ l.rest.take (i + k) ++ [0], l.rest.drop (i + k + 1)⟩
        else ⟨l.bytes, []⟩) := by
  have hile : l.rest.findIdx (!delim.contains ·) ≤ l.rest.length := List.findIdx_le_length
  rcases Nat.eq_or_lt_of_le hile with hi | hi
  · refine Or.inl ⟨hi, ?_⟩
    rw [next, hi, List.drop_length]
    rfl
  · have hnd : (!delim.contains (l.rest.get ⟨l.rest.findIdx (!delim.contains ·), hi⟩)) = true :=
      List.findIdx_getElem (p := (!delim.contains ·))
    refine Or.inr ⟨_, _, rfl, hi, rfl, Nat.pos_of_ne_zero fun hz => ?_, ?_, ?_⟩
    · have h0 : 0 < (l.rest.drop (l.rest.findIdx (!delim.contains ·))).length := by
        rw [List.length_drop]
        omega
      have hd := (List.findIdx_eq h0).mp hz
      simp only [List.getElem_drop, Nat.add_zero] at hd
      rw [List.get_eq_getElem, hd.1] at hnd
      cases hnd
    · have hk : (l.rest.drop (l.rest.findIdx (!delim.contains ·))).findIdx delim.contains ≤
          (l.rest.drop (l.rest.findIdx (!delim.contains ·))).length := List.findIdx_le_length
      rw [List.length_drop] at hk
      omega
    · simp only [next, List.length_drop, List.drop_drop, bytes, Nat.add_assoc,
        show ∀ a b c : Nat, a < b - c ↔ c + a < b by omega]

/-- Without a token the call runs to the end of the line, and so do the calls after it. -/
theorem next_exhausted {delim : List Byte} (h : (l.next delim).1 = []) :
    (l.next delim).2 = ⟨l.bytes, []⟩ ∧ (l.next delim).2.next delim = ([], ⟨l.bytes, []⟩) := by
  have hend : Line.next delim ⟨l.bytes, []⟩ = ([], ⟨l.bytes, []⟩) := by
    simp [next, bytes]
  rcases next_cases delim l with ⟨-, hn⟩ | ⟨i, k, -, hil, -, hk, hkl, hn⟩
  · rw [hn]
    exact ⟨rfl, hend⟩
  · rw [hn, List.take_eq_nil_iff, List.drop_eq_nil_iff] at h
    omega

/-- A delimiter follows a byte that is none. -/
def Broken (delim : List Byte) (text : List Byte) : Prop :=
  ∃ (i j : Nat) (c c' : Byte), i < j ∧ text[i]? = some c ∧ c ∉ delim ∧ text[j]? = some c' ∧ c' ∈ delim

/-- A call cuts the line at a delimiter if the rest is broken, and else runs to its end. -/
theorem next_broken (delim : List Byte) (l : Line) :
    (Broken delim l.rest ∧ ∃ n, ∃ h : n < l.rest.length, l.rest[n] ∈ delim ∧
      (l.next delim).2 = ⟨l.past ++ l.rest.take n ++ [0], l.rest.drop (n + 1)⟩) ∨
    (¬Broken delim l.rest ∧ (l.next delim).2 = ⟨l.bytes, []⟩) := by
  rcases next_cases delim l with ⟨hi, hn⟩ | ⟨i, k, hi, hil, hk, hk0, -, hn⟩
  · refine Or.inr ⟨?_, by rw [hn]⟩
    rintro ⟨i, j, c, c', -, hc, hcd, -, -⟩
    have hmem := List.findIdx_eq_length.mp hi c (List.mem_of_getElem? hc)
    simp [hcd] at hmem
  · have hnd : (!delim.contains (l.rest.get ⟨l.rest.findIdx (!delim.contains ·), hi ▸ hil⟩)) = true :=
      List.findIdx_getElem (p := (!delim.contains ·))
    simp only [hi, List.get_eq_getElem] at hnd
    have hrl : (l.rest.drop i).length = l.rest.length - i := List.length_drop
    rcases Nat.lt_or_ge (i + k) l.rest.length with hcut | hend
    · have hd : delim.contains ((l.rest.drop i).get ⟨(l.rest.drop i).findIdx delim.contains, by omega⟩) =
          true := List.findIdx_getElem (p := delim.contains)
      simp only [hk, List.get_eq_getElem, List.getElem_drop] at hd
      have hdel : l.rest[i + k] ∈ delim := by simpa using hd
      refine Or.inl ⟨⟨i, i + k, _, _, by omega, List.getElem?_eq_getElem hil, by simpa using hnd,
        List.getElem?_eq_getElem hcut, hdel⟩, i + k, hcut, hdel, ?_⟩
      rw [hn, if_pos hcut]
    · refine Or.inr ⟨?_, by rw [hn, if_neg (by omega)]⟩
      rintro ⟨i', j, c, c', hij, hc, hcd, hc', hcd'⟩
      obtain ⟨hi', rfl⟩ := List.getElem?_eq_some_iff.mp hc
      obtain ⟨hj, rfl⟩ := List.getElem?_eq_some_iff.mp hc'
      -- `i` is the first byte that is no delimiter, so `j` lies in the token
      have hle : i ≤ i' := by
        by_contra hlt
        have hno : (!delim.contains l.rest[i']) = false :=
          List.not_of_lt_findIdx (p := (!delim.contains ·)) (by omega)
        simp [hcd] at hno
      have hno : delim.contains ((l.rest.drop i).get ⟨j - i, by rw [List.length_drop]; omega⟩) = false :=
        List.not_of_lt_findIdx (p := delim.contains) (by omega)
      simp only [List.get_eq_getElem, List.getElem_drop, show i + (j - i) = j by omega] at hno
      simp [hcd'] at hno

theorem past_prefix_next (delim : List Byte) (l : Line) : l.past <+: (l.next delim).2.past := by
  rcases next_broken delim l with ⟨-, n, -, -, hn⟩ | ⟨-, hn⟩ <;> rw [hn]
  · exact (List.prefix_append _ _).trans (List.prefix_append _ _)
  · exact List.prefix_append _ _

theorem cut_bytes {n : Nat} (hn : n < l.rest.length) (c : Byte) :
    l.past ++ l.rest.take n ++ [c] ++ l.rest.drop (n + 1) = l.bytes.set (l.past.length + n) c := by
  rw [bytes, List.set_append_right _ _ (by omega), Nat.add_sub_cancel_left,
    List.set_eq_take_append_cons_drop, if_pos hn]
  simp only [List.append_assoc, List.singleton_append]

theorem At.all (h : l.At m p) : At m p ⟨l.bytes, []⟩ :=
  ⟨by simpa [bytes] using h.reads, fun _ hc => absurd hc List.not_mem_nil⟩

theorem At.cut {n : Nat} (h : l.At m p) (hn : n < l.rest.length) :
    At (Function.update m (p + l.past.length + n) 0) p
      ⟨l.past ++ l.rest.take n ++ [0], l.rest.drop (n + 1)⟩ := by
  have hset : bytes ⟨l.past ++ l.rest.take n ++ [0], l.rest.drop (n + 1)⟩ =
      l.bytes.set (l.past.length + n) 0 := cut_bytes hn 0
  refine ⟨fun i hi => ?_, fun c hc => h.noNul c (List.mem_of_mem_drop hc)⟩
  rw [hset, List.length_set] at hi
  rw [hset, Function.update_apply, List.getD_eq_getElem?_getD, List.getElem?_set]
  have hb : l.bytes.length = l.past.length + l.rest.length := List.length_append
  by_cases hip : l.past.length + n = i
  · subst hip
    rw [if_pos (by omega), if_pos rfl, if_pos (by omega)]
    rfl
  · rw [if_neg (by omega), if_neg hip, ← List.getD_eq_getElem?_getD, h.reads i hi]

/-- What one call of `strtok` on the line leaves behind. -/
structure Called (W p : Nat) (delim : List Byte) (m : Mem) (l : Line) (t : Token) : Prop where
  olds : t.olds = p + (l.next delim).2.past.length
  line : (l.next delim).2.At t.mem p
  frame : ∀ a, ¬(p ≤ a ∧ a < p + l.bytes.length) → t.mem a = m a
  null : (l.next delim).1 = [] → t.token = 0
  token : (l.next delim).1 ≠ [] → t.token ≠ 0 ∧ IsText (t.mem.at W t.token) (l.next delim).1

end Line

theorem strchr_text {W : Nat} {s : CStr} {l : List Byte} (h : IsText s l) (hl : l.length < 2 ^ W) :
    strchr W s 0 = some (some l.length) := by
  have hscan : scan (fun b => b == 0 || b == 0) s (2 ^ W) 0 = some l.length :=
    scan_end h rfl (fun c hc => by rw [Bool.or_self, beq_false_of_ne hc]) hl
  rw [strchr, hscan]
  exact congrArg some (if_pos h.nul)

/-- What `strtok` leaves when `l` is the text from `q` on. -/
def firstToken (delim : List Byte) (q : Nat) (m : Mem) (l : List Byte) : Token :=
  let i := l.findIdx (!delim.contains ·)
  let k := (l.drop i).findIdx delim.contains
  if i = l.length then ⟨0, q + l.length, m⟩
  else if i + k = l.length then ⟨q + i, q + l.length, m⟩
  else ⟨q + i, q + i + k + 1, Function.update m (q + i + k) 0⟩

theorem strtok_eq {W s olds q : Nat} {delim : List Byte} {m : Mem} {l : List Byte}
    (h : IsText (m.at W q) l) (hq : q + l.length < 2 ^ W) (hs : (if s = 0 then olds else s) = q) :
    strtok W s delim olds m = some (firstToken delim q m l) := by
  have hspn : strspn W (m.at W q) delim = some (l.findIdx (!delim.contains ·)) :=
    scan_text_or h (by omega)
  have hile : l.findIdx (!delim.contains ·) ≤ l.length := List.findIdx_le_length
  obtain ⟨i, hi⟩ : ∃ i, i = l.findIdx (!delim.contains ·) := ⟨_, rfl⟩
  rw [← hi] at hspn hile
  have hread : m (q + i) = l.getD i 0 := h.byte hq hile
  rw [strtok, firstToken]
  simp only [hs, hspn, ← hi, Option.bind_eq_bind, Option.bind_some, Option.pure_def]
  rw [ptrAdd_of_lt (by omega), hread]
  rcases Nat.eq_or_lt_of_le hile with hend | hil
  · -- the scan runs to the end of the text: no token
    rw [if_pos hend, if_pos (by rw [hend, List.getD_eq_default _ _ (Nat.le_refl _)]), hend]
  · have hne : l.getD i 0 ≠ 0 := by
      rw [List.getD_eq_getElem _ _ hil]
      exact h.noNul _ (List.getElem_mem hil)
    have htok := h.drop hq hile
    have hrl : (l.drop i).length = l.length - i := List.length_drop
    have hkle : (l.drop i).findIdx delim.contains ≤ (l.drop i).length := List.findIdx_le_length
    have hbrk : scan (fun c => c == 0 || delim.contains c) (m.at W (q + i)) (2 ^ W) 0 =
        some ((l.drop i).findIdx delim.contains) :=
      scan_text_or htok (by omega)
    obtain ⟨k, hk⟩ : ∃ k, k = (l.drop i).findIdx delim.contains := ⟨_, rfl⟩
    rw [← hk] at hkle hbrk
    rw [if_neg hne, if_neg (Nat.ne_of_lt hil), strpbrk, hbrk, ← hk]
    simp only [Option.bind_eq_bind, Option.bind_some, Option.pure_def]
    rcases Nat.eq_or_lt_of_le hkle with hend | hkl
    · -- this token finishes the string
      have hchr : strchr W (m.at W (q + i)) 0 = some (some k) := hend ▸ strchr_text htok (by omega)
      have hnul : m.at W (q + i) k = 0 := hend ▸ htok.nul
      rw [if_pos hnul, if_pos (by omega)]
      simp only [hchr, Option.bind_some, Option.getD_some]
      rw [ptrAdd_of_lt (by omega), show q + i + k = q + l.length by omega]
    · -- the delimiter after it becomes NUL
      have hnz : m.at W (q + i) k ≠ 0 := htok.ne_zero hkl
      have hcut : ptrAdd W (q + i) k = q + i + k := ptrAdd_of_lt (by omega)
      rw [if_neg hnz, if_neg (by omega)]
      simp only [hcut]
      rw [ptrAdd_of_lt (by omega)]

open Line in
theorem strtok_line {W p s olds : Nat} {delim : List Byte} {m : Mem} {l : Line} (h : l.At m p)
    (hp : p + l.bytes.length < 2 ^ W) (hp0 : 0 < p)
    (hs : (if s = 0 then olds else s) = p + l.past.length) :
    ∃ t, strtok W s delim olds m = some t ∧ Called W p delim m l t := by
  have hb : l.bytes.length = l.past.length + l.rest.length := List.length_append
  have htext := h.text hp
  refine ⟨_, strtok_eq htext (by omega) hs, ?_⟩
  rw [firstToken]
  rcases next_cases delim l with ⟨hi, hnext⟩ | ⟨i, k, hi, hil, hk, hk0, hkl, hnext⟩
  · rw [if_pos hi]
    refine ⟨?_, ?_, fun _ _ => rfl, fun _ => rfl, fun hne => ?_⟩
    · rw [hnext, hb, Nat.add_assoc]
    · rw [hnext]
      exact h.all
    · rw [hnext] at hne
      exact absurd rfl hne
  · have htok := htext.drop (i := i) (by omega) (by omega)
    have hrl : (l.rest.drop i).length = l.rest.length - i := List.length_drop
    have htne : (l.rest.drop i).take k ≠ [] := by
      rw [ne_eq, ← List.length_eq_zero_iff, List.length_take]
      omega
    simp only [hi, hk]
    rw [if_neg (Nat.ne_of_lt hil)]
    rcases Nat.eq_or_lt_of_le hkl with hend | hcut
    · rw [if_pos hend]
      rw [if_neg (by omega), List.take_of_length_le (by omega)] at hnext
      refine ⟨?_, ?_, fun _ _ => rfl, fun h0 => ?_, fun _ => ?_⟩
      · rw [hnext]
        simp only [hb, Nat.add_assoc]
      · rw [hnext]
        exact h.all
      · rw [hnext] at h0
        have hlen := congrArg List.length h0
        rw [hrl, List.length_nil] at hlen
        omega
      · rw [hnext]
        exact ⟨by simp only; omega, htok⟩
    · rw [if_neg (by omega)]
      rw [if_pos hcut] at hnext
      refine ⟨?_, ?_, fun a ha => ?_, fun h0 => ?_, fun _ => ?_⟩
      · rw [hnext]
        simp only [List.length_append, List.length_take, List.length_cons, List.length_nil]
        omega
      · rw [hnext, Nat.add_assoc _ i k]
        exact h.cut hcut
      · exact Function.update_of_ne (by omega) _ _
      · rw [hnext] at h0
        exact absurd h0 htne
      · rw [hnext]
        exact ⟨by simp only; omega, htok.take (by omega) (by omega)⟩

end Osdev2.Libk
