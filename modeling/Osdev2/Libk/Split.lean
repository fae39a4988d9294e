import Osdev2.Libk.Reading
import Osdev2.Libk.Tokens
import Osdev2.Lib.Pieces

/-!
# Splitting a line with `strtok`

The tokeniser with the bounds of its strings checked: `Checked.strtok` fails at the
first access of the buffer behind its terminator, and of the delimiters behind
theirs. Its loops are the code's, the inner ones over `accept` too. On strings it is
`strtok` (`strtok_checked`).

`Checked.calls` is a call on the buffer and calls on NULL after it.
`strtok_tokens`: they return the pieces between the delimiters, in order, then NULL,
and write nothing but the NUL behind each.
-/

namespace Osdev2.Libk

open Osdev2.Lib

/-! ## The checked functions -/

/-- The bytes of a string and its terminator. -/
structure Buffer where
  start : Nat
  size : Nat

def Buffer.load (B : Buffer) (m : Mem) (a : Nat) : Reading Byte :=
  OptionT.mk (if B.start ≤ a ∧ a ≤ B.start + B.size then some (some (m a)) else none)

def Buffer.store (B : Buffer) (m : Mem) (a : Nat) (c : Byte) : Reading Mem :=
  OptionT.mk (if B.start ≤ a ∧ a ≤ B.start + B.size then some (some (Function.update m a c)) else none)

namespace Checked

/-- The inner loop of `strspn` and `strpbrk`: whether the character that `c` reads is in `accept`,
whose terminator is at `k`. -/
def accepts (accept : CStr) (k : Nat) (c : Reading Byte) : Nat → Nat → Reading Bool
  | 0, _ => Reading.of none
  | fuel + 1, a => do
    let d ← read accept k a
    if d = 0 then return false
    else
      let c' ← c
      if c' = d then return true else accepts accept k c fuel (a + 1)

section Functions

variable (W : Nat) (B : Buffer) (m : Mem)

def strspn (accept : CStr) (k s : Nat) : Nat → Nat → Reading Nat
  | 0, _ => Reading.of none
  | fuel + 1, count => do
    let p := B.load m (ptrAdd W s count)
    if (← p) = 0 then return count
    else if ← accepts accept k p (2 ^ W) 0 then strspn accept k s fuel (count + 1)
    else return count

def strpbrk (accept : CStr) (k s : Nat) : Nat → Nat → Reading (Option Nat)
  | 0, _ => Reading.of none
  | fuel + 1, i => do
    let p := B.load m (ptrAdd W s i)
    if (← p) = 0 then return none
    else if ← accepts accept k p (2 ^ W) 0 then return some i
    else strpbrk accept k s fuel (i + 1)

def strchr (c : Byte) (s : Nat) : Nat → Nat → Reading (Option Nat)
  | 0, _ => Reading.of none
  | fuel + 1, i => do
    let b ← B.load m (ptrAdd W s i)
    if b = c then return some i
    else if b = 0 then return none
    else strchr c s fuel (i + 1)

def strtok (delim : CStr) (k s olds : Nat) : Reading Token := do
  let s := if s = 0 then olds else s
  let s := ptrAdd W s (← strspn W B m delim k s (2 ^ W) 0)
  if (← B.load m s) = 0 then return ⟨0, s, m⟩
  else
    let token := s
    match ← strpbrk W B m delim k token (2 ^ W) 0 with
    | none =>
      let e ← strchr W B m 0 token (2 ^ W) 0
      return ⟨token, ptrAdd W token (e.getD 0), m⟩
    | some j =>
      let s := ptrAdd W token j
      let m ← B.store m s 0
      return ⟨token, ptrAdd W s 1, m⟩

end Functions

/-- `n` calls, the first on `s` and the others on NULL: what they return, and the `olds` and the
memory they leave. -/
def calls (W : Nat) (B : Buffer) (delim : CStr) (k : Nat) : Nat → Nat → Nat → Mem →
    Reading (List Nat × Nat × Mem)
  | 0, _, olds, m => return ([], olds, m)
  | n + 1, s, olds, m => do
    let t ← strtok W B m delim k s olds
    let r ← calls W B delim k n 0 t.olds t.mem
    return (t.token :: r.1, r.2)

end Checked

/-! ## No access fails -/

section Checks

variable {W s : Nat} {B : Buffer} {m : Mem} {l dl : List Byte} {delim : CStr}

theorem load_text (hB : B.start ≤ s) (hend : s + l.length = B.start + B.size) (hW : s + l.length < 2 ^ W)
    {i : Nat} (hi : i ≤ l.length) : B.load m (ptrAdd W s i) = Reading.of (some (m.at W s i)) := by
  rw [Mem.at, ptrAdd_of_lt (by omega)]
  unfold Buffer.load
  rw [if_pos (by omega)]
  rfl

theorem accepts_eq (hd : IsText delim dl) (c : Byte) : ∀ {fuel a : Nat}, a ≤ dl.length →
    dl.length < a + fuel → Checked.accepts delim dl.length (Reading.of (some c)) fuel a =
      Reading.of (some ((dl.drop a).contains c))
  | 0, a, h1, h2 => absurd h2 (by omega)
  | fuel + 1, a, h1, h2 => by
    rw [Checked.accepts, read_eq h1, of_bind]
    rcases drop_cases hd h1 with ⟨h0, -, hdrop⟩ | ⟨hne, hlt, hdrop⟩
    · rw [hdrop]
      simp only [if_pos h0]
      rfl
    · simp only [if_neg hne, of_bind, hdrop, List.contains_cons]
      by_cases hc : c = delim a
      · rw [if_pos hc, hc, beq_self_eq_true, Bool.true_or]
        rfl
      · rw [if_neg hc, accepts_eq hd c hlt (by omega), beq_false_of_ne hc, Bool.false_or]

variable (h : IsText (m.at W s) l) (hd : IsText delim dl) (hdl : dl.length < 2 ^ W)
  (hB : B.start ≤ s) (hend : s + l.length = B.start + B.size) (hW : s + l.length < 2 ^ W)

include h hd hdl hB hend hW

theorem strspn_checked : ∀ {fuel i : Nat}, i ≤ l.length →
    Checked.strspn W B m delim dl.length s fuel i =
      Reading.of (scan (fun c => c == 0 || !dl.contains c) (m.at W s) fuel i)
  | 0, _, _ => rfl
  | fuel + 1, i, hi => by
    rw [Checked.strspn, scan]
    simp only [load_text hB hend hW hi, of_bind, accepts_eq hd _ (Nat.zero_le _) (by omega : _ < 0 + 2 ^ W),
      List.drop_zero]
    by_cases h0 : m.at W s i = 0
    · rw [if_pos h0, h0]
      rfl
    · have hlt := (drop_of_ne h hi h0).1
      rw [if_neg h0, beq_false_of_ne h0, Bool.false_or]
      cases dl.contains (m.at W s i) with
      | true => exact strspn_checked hlt
      | false => rfl

theorem strpbrk_checked : ∀ {fuel i : Nat}, i ≤ l.length →
    Checked.strpbrk W B m delim dl.length s fuel i =
      Reading.of ((scan (fun c => c == 0 || dl.contains c) (m.at W s) fuel i).map fun j =>
        if m.at W s j = 0 then none else some j)
  | 0, _, _ => rfl
  | fuel + 1, i, hi => by
    rw [Checked.strpbrk, scan]
    simp only [load_text hB hend hW hi, of_bind, accepts_eq hd _ (Nat.zero_le _) (by omega : _ < 0 + 2 ^ W),
      List.drop_zero]
    by_cases h0 : m.at W s i = 0
    · rw [if_pos h0, h0, beq_self_eq_true, Bool.true_or, if_pos rfl, Option.map_some, if_pos h0]
      rfl
    · have hlt := (drop_of_ne h hi h0).1
      rw [if_neg h0, beq_false_of_ne h0, Bool.false_or]
      cases dl.contains (m.at W s i) with
      | true =>
        rw [if_pos rfl, if_pos rfl, Option.map_some, if_neg h0]
        rfl
      | false => exact strpbrk_checked hlt

omit hd hdl

theorem strchr_checked {c : Byte} : ∀ {fuel i : Nat}, i ≤ l.length →
    Checked.strchr W B m c s fuel i =
      Reading.of ((scan (fun b => b == c || b == 0) (m.at W s) fuel i).map fun j =>
        if m.at W s j = c then some j else none)
  | 0, _, _ => rfl
  | fuel + 1, i, hi => by
    rw [Checked.strchr, scan]
    simp only [load_text hB hend hW hi, of_bind]
    by_cases hc : m.at W s i = c
    · rw [if_pos hc, hc, beq_self_eq_true, Bool.true_or, if_pos rfl, Option.map_some, if_pos hc]
      rfl
    · by_cases h0 : m.at W s i = 0
      · rw [if_neg hc, if_pos h0, h0, beq_self_eq_true, Bool.or_true, if_pos rfl, Option.map_some,
          if_neg hc]
        rfl
      · have hlt := (drop_of_ne h hi h0).1
        rw [if_neg hc, if_neg h0, beq_false_of_ne hc, beq_false_of_ne h0, Bool.or_false,
          if_neg Bool.false_ne_true]
        exact strchr_checked hlt

end Checks

theorem strtok_checked {W s olds q : Nat} {B : Buffer} {m : Mem} {l dl : List Byte} {delim : CStr}
    (h : IsText (m.at W q) l) (hd : IsText delim dl) (hdl : dl.length < 2 ^ W) (hB : B.start ≤ q)
    (hend : q + l.length = B.start + B.size) (hW : q + l.length < 2 ^ W)
    (hs : (if s = 0 then olds else s) = q) :
    Checked.strtok W B m delim dl.length s olds = Reading.of (strtok W s dl olds m) := by
  obtain ⟨i, hi⟩ : ∃ i, i = l.findIdx (!dl.contains ·) := ⟨_, rfl⟩
  have hspn : strspn W (m.at W q) dl = some i :=
    hi ▸ scan_text_or h (by omega)
  have hile : i ≤ l.length := hi ▸ List.findIdx_le_length
  have hspn' : Checked.strspn W B m delim dl.length q (2 ^ W) 0 = Reading.of (some i) :=
    (strspn_checked h hd hdl hB hend hW (Nat.zero_le _)).trans (congrArg Reading.of hspn)
  have htok : IsText (m.at W (ptrAdd W q i)) (l.drop i) := by
    rw [ptrAdd_of_lt (by omega)]
    exact h.drop hW hile
  have hlen : (l.drop i).length = l.length - i := List.length_drop
  have hadd : ptrAdd W q i = q + i := ptrAdd_of_lt (by omega)
  have hbrk : Checked.strpbrk W B m delim dl.length (ptrAdd W q i) (2 ^ W) 0 =
      Reading.of (strpbrk W (m.at W (ptrAdd W q i)) dl) := by
    rw [strpbrk_checked htok hd hdl (by omega) (by omega) (by omega) (Nat.zero_le _), strpbrk]
    cases scan (fun c => c == 0 || dl.contains c) (m.at W (ptrAdd W q i)) (2 ^ W) 0 <;> rfl
  have hchr : Checked.strchr W B m 0 (ptrAdd W q i) (2 ^ W) 0 =
      Reading.of (strchr W (m.at W (ptrAdd W q i)) 0) := by
    rw [strchr_checked htok (by omega) (by omega) (by omega) (Nat.zero_le _), strchr]
    cases scan (fun b => b == 0 || b == 0) (m.at W (ptrAdd W q i)) (2 ^ W) 0 <;> rfl
  unfold Checked.strtok strtok
  simp only [hs, hspn, hspn', of_bind, Option.bind_eq_bind, Option.bind_some,
    load_text hB hend hW hile, hbrk, hchr]
  have hread : m.at W q i = m (ptrAdd W q i) := rfl
  rw [hread]
  by_cases h0 : m (ptrAdd W q i) = 0
  · rw [if_pos h0, if_pos h0]
    rfl
  · rw [if_neg h0, if_neg h0]
    obtain ⟨r, hr, hlt⟩ : ∃ r, strpbrk W (m.at W (ptrAdd W q i)) dl = some r ∧
        ∀ j, r = some j → j < (l.drop i).length ∧ m.at W (ptrAdd W q i) j ≠ 0 :=
      strpbrk_returns (by omega) htok.nul
    rw [hr]
    cases r with
    | none => cases strchr W (m.at W (ptrAdd W q i)) 0 <;> rfl
    | some j =>
      have hj := (hlt j rfl).1
      have hcut : ptrAdd W (ptrAdd W q i) j = q + i + j := by rw [hadd, ptrAdd_of_lt (by omega)]
      have hstore : B.store m (ptrAdd W (ptrAdd W q i) j) 0 =
          Reading.of (some (Function.update m (ptrAdd W (ptrAdd W q i) j) 0)) := by
        unfold Buffer.store
        rw [if_pos (by omega)]
        rfl
      simp only [hstore, of_bind]
      rfl

/-! ## All the calls -/

/-- Position `j` of the text holds a delimiter. -/
def Delimits (dl text : List Byte) (j : Nat) : Prop := text.getD j 0 ∈ dl

section Calls

variable {W p : Nat} {m : Mem} {text dl : List Byte}

/-- What is left of the text is as it was. -/
def Left (m : Mem) (p i : Nat) (text : List Byte) : Prop :=
  ∀ j, i ≤ j → j ≤ text.length → m (p + j) = text.getD j 0

theorem Left.isText {i : Nat} (h : Left m p i text) (hn : ∀ c ∈ text, c ≠ 0) (hi : i ≤ text.length)
    (hend : p + text.length < 2 ^ W) : IsText (m.at W (p + i)) (text.drop i) := by
  refine ⟨fun j hj => ?_, fun c hc => hn c (List.mem_of_mem_drop hc)⟩
  rw [List.length_drop] at hj
  rw [Mem.at_eq (by omega), Nat.add_assoc, h (i + j) (by omega) (by omega), getD_drop]

theorem firstToken_done {i : Nat} (hi : i ≤ text.length)
    (hsep : ∀ j, i ≤ j → j < text.length → Delimits dl text j) :
    firstToken dl (p + i) m (text.drop i) = ⟨0, p + text.length, m⟩ := by
  have hidx : (text.drop i).findIdx (!dl.contains ·) = (text.drop i).length := by
    refine List.findIdx_eq_length_of_false fun c hc => ?_
    obtain ⟨j, hj, rfl⟩ := List.getElem_of_mem hc
    rw [List.length_drop] at hj
    have hd := hsep (i + j) (by omega) (by omega)
    unfold Delimits at hd
    rw [List.getD_eq_getElem _ _ (by omega)] at hd
    rw [List.getElem_drop]
    simpa using hd
  rw [firstToken]
  simp only [hidx, List.length_drop]
  rw [if_pos trivial, show p + i + (text.length - i) = p + text.length by omega]

theorem firstToken_piece {i a k : Nat} (hi : i ≤ a)
    (skip : ∀ j, i ≤ j → j < a → Delimits dl text j) (hk : 0 < k) (hle : a + k ≤ text.length)
    (inside : ∀ j, a ≤ j → j < a + k → ¬Delimits dl text j)
    (right : a + k = text.length ∨ Delimits dl text (a + k)) :
    firstToken dl (p + i) m (text.drop i) =
      if a + k = text.length then ⟨p + a, p + text.length, m⟩
      else ⟨p + a, p + a + k + 1, Function.update m (p + a + k) 0⟩ := by
  have hget : ∀ j (hj : j < text.length), Delimits dl text j ↔ dl.contains text[j] = true := by
    intro j hj
    unfold Delimits
    rw [List.getD_eq_getElem _ _ hj]
    simp
  have hfirst : (text.drop i).findIdx (!dl.contains ·) = a - i := by
    refine (List.findIdx_eq (by rw [List.length_drop]; omega)).mpr ⟨?_, fun j hj => ?_⟩
    · rw [List.getElem_drop]
      have hno := inside a (Nat.le_refl a) (by omega)
      rw [hget a (by omega)] at hno
      simpa [show i + (a - i) = a by omega] using hno
    · rw [List.getElem_drop]
      have hyes := (hget (i + j) (by omega)).mp (skip (i + j) (by omega) (by omega))
      rw [hyes]
      rfl
  have hdrop : (text.drop i).drop (a - i) = text.drop a := by
    rw [List.drop_drop, show i + (a - i) = a by omega]
  have hlen : (text.drop a).findIdx dl.contains = k := by
    have hno : ∀ j, a ≤ j → j < a + k → ∀ hj : j < text.length, dl.contains text[j] = false :=
      fun j h1 h2 hj => Bool.eq_false_iff.mpr fun hc => inside j h1 h2 ((hget j hj).mpr hc)
    rcases Nat.eq_or_lt_of_le hle with hend | hlt
    · have hall : (text.drop a).findIdx dl.contains = (text.drop a).length := by
        refine List.findIdx_eq_length_of_false fun c hc => ?_
        obtain ⟨j, hj, rfl⟩ := List.getElem_of_mem hc
        rw [List.length_drop] at hj
        rw [List.getElem_drop, hno (a + j) (by omega) (by omega)]
      rw [hall, List.length_drop]
      omega
    · have hsep := right.resolve_left (by omega)
      refine (List.findIdx_eq (by rw [List.length_drop]; omega)).mpr ⟨?_, fun j hj => ?_⟩
      · rw [List.getElem_drop]
        exact (hget (a + k) hlt).mp hsep
      · rw [List.getElem_drop]
        exact hno (a + j) (by omega) (by omega) _
  rw [firstToken]
  simp only [hfirst, hdrop, hlen, List.length_drop]
  rw [if_neg (by omega), show p + i + (a - i) = p + a by omega,
    show p + i + (text.length - i) = p + text.length by omega]
  split
  · rw [if_pos (by omega)]
  · rw [if_neg (by omega)]

/-- What `c` calls return that have the pieces `R` before them: where these begin, then NULL. -/
def returned (p : Nat) : List (Nat × Nat) → Nat → List Nat
  | _, 0 => []
  | [], c + 1 => 0 :: returned p [] c
  | r :: R, c + 1 => (p + r.1) :: returned p R c

/-- `m'` is `m` with a NUL behind each piece that does not end the text of `n` bytes at `p`. -/
structure Cuts (R : List (Nat × Nat)) (p n : Nat) (m m' : Mem) : Prop where
  nul : ∀ r ∈ R, r.1 + r.2 < n → m' (p + r.1 + r.2) = 0
  frame : ∀ x, (∀ r ∈ R, r.1 + r.2 < n → x ≠ p + r.1 + r.2) → m' x = m x

theorem Cuts.refl (p n : Nat) (m : Mem) : Cuts [] p n m m :=
  ⟨fun _ hr => absurd hr List.not_mem_nil, fun _ _ => rfl⟩

theorem Cuts.cons {m' : Mem} {a k n : Nat} {R : List (Nat × Nat)}
    (h : Cuts R p n (Function.update m (p + a + k) 0) m') (hR : ∀ r ∈ R, a + k < r.1)
    (hn : a + k < n) : Cuts ((a, k) :: R) p n m m' := by
  refine ⟨List.forall_mem_cons.mpr ⟨fun _ => ?_, h.nul⟩, fun x hx => ?_⟩
  · rw [h.frame _ fun r hr _ => ?_]
    · exact Function.update_self _ _ _
    · have hlt := hR r hr
      simp only
      omega
  · rw [h.frame x fun r hr => hx r (List.mem_cons_of_mem _ hr)]
    exact Function.update_of_ne (hx (a, k) List.mem_cons_self hn) _ _

theorem Cuts.cons_last {m' : Mem} {a k n : Nat} {R : List (Nat × Nat)} (h : Cuts R p n m m')
    (hn : n ≤ a + k) : Cuts ((a, k) :: R) p n m m' := by
  refine ⟨List.forall_mem_cons.mpr ⟨fun hlt => ?_, h.nul⟩, fun x hx => ?_⟩
  · exact absurd hlt (Nat.not_lt.mpr hn)
  · exact h.frame x fun r hr => hx r (List.mem_cons_of_mem _ hr)

variable {delim : CStr} (hn : ∀ c ∈ text, c ≠ 0) (hd : IsText delim dl) (hdl : dl.length < 2 ^ W)
  (hend : p + text.length < 2 ^ W)

include hn hd hdl hend

/-- One call, from position `i` of the text on. -/
theorem call_eq {i s olds : Nat} (h : Left m p i text) (hi : i ≤ text.length)
    (hs : (if s = 0 then olds else s) = p + i) :
    Checked.strtok W ⟨p, text.length⟩ m delim dl.length s olds =
      Reading.of (some (firstToken dl (p + i) m (text.drop i))) := by
  have ht := h.isText hn hi hend
  have hlen : (text.drop i).length = text.length - i := List.length_drop
  rw [strtok_checked ht hd hdl (by simp only; omega) (by simp only; omega) (by omega) hs,
    strtok_eq ht (by omega) hs]

/-- The calls go through the pieces that are left, and return NULL after them. -/
theorem calls_pieces (c : Nat) : ∀ {i s olds : Nat} {m : Mem} {R : List (Nat × Nat)},
    Pieces (Delimits dl text) text.length i R → Left m p i text → i ≤ text.length →
    (if s = 0 then olds else s) = p + i → ∃ olds' m',
      Checked.calls W ⟨p, text.length⟩ delim dl.length c s olds m = 
          Reading.of (some (returned p R c, olds', m')) ∧ Cuts (R.take c) p text.length m m' := by
  have hdone : Pieces (Delimits dl text) text.length text.length [] :=
    .done fun j hj hjn => absurd hjn (by omega)
  induction c with
  | zero =>
    intro i s olds m R hR h hi hs
    refine ⟨olds, m, ?_, Cuts.refl p _ m⟩
    rw [Checked.calls, returned]
    rfl
  | succ c ih =>
    intro i s olds m R hR h hi hs
    have hcall := call_eq hn hd hdl hend h hi hs
    have hlast : Left m p text.length text := fun j hj => h j (by omega)
    -- the calls on NULL after this one, from `i'` on
    have hnext : ∀ {i' : Nat} {R' : List (Nat × Nat)} {t : Token},
        Checked.strtok W ⟨p, text.length⟩ m delim dl.length s olds = Reading.of (some t) →
        t.olds = p + i' → Pieces (Delimits dl text) text.length i' R' → Left t.mem p i' text →
        i' ≤ text.length → ∃ olds' m',
          Checked.calls W ⟨p, text.length⟩ delim dl.length (c + 1) s olds m = 
              Reading.of (some (t.token :: returned p R' c, olds', m')) ∧
            Cuts (R'.take c) p text.length t.mem m' := by
      intro i' R' t ht hold hR' hleft hi'
      obtain ⟨olds', m', hrest, hcuts⟩ := ih (s := 0) hR' hleft hi' hold
      refine ⟨olds', m', ?_, hcuts⟩
      rw [Checked.calls]
      simp only [ht, hrest, of_bind]
      rfl
    cases hR with
    | done hsep =>
      rw [firstToken_done hi hsep] at hcall
      obtain ⟨olds', m', hcalls, hcuts⟩ := hnext hcall rfl hdone hlast (Nat.le_refl _)
      rw [List.take_nil] at hcuts ⊢
      exact ⟨olds', m', hcalls, hcuts⟩
    | @piece _ a k R hia skip pos le inside right rest =>
      rw [firstToken_piece hia skip pos le inside right] at hcall
      rcases Nat.eq_or_lt_of_le le with hak | hak
      · -- the piece ends the text, and there is none after it
        rw [if_pos hak] at hcall
        obtain rfl : R = [] := by
          cases rest with
          | done => rfl
          | piece h1 _ _ h2 => omega
        obtain ⟨olds', m', hcalls, hcuts⟩ := hnext hcall rfl hdone hlast (Nat.le_refl _)
        refine ⟨olds', m', hcalls, ?_⟩
        rw [List.take_succ_cons]
        exact hcuts.cons_last (Nat.le_of_eq hak.symm)
      · rw [if_neg (Nat.ne_of_lt hak)] at hcall
        have hleft : Left (Function.update m (p + a + k) 0) p (a + k + 1) text := fun j hj hjn => by
          rw [Function.update_of_ne (by omega)]
          exact h j (by omega) hjn
        obtain ⟨olds', m', hcalls, hcuts⟩ := hnext hcall (by simp only; omega) rest hleft hak
        refine ⟨olds', m', hcalls, ?_⟩
        rw [List.take_succ_cons]
        exact hcuts.cons (fun r hr => rest.ge r (List.mem_of_mem_take hr)) hak

omit hd hdl in
/-- A token is a text of its own as long as nothing but cuts happens. -/
theorem Cuts.token {m' : Mem} {R : List (Nat × Nat)} (h : Cuts R p text.length m m')
    (ht : IsText (m.at W p) text) (hR : ∀ r ∈ R, IsPiece (Delimits dl text) text.length r.1 r.2)
    {r : Nat × Nat} (hr : r ∈ R) : IsText (m'.at W (p + r.1)) ((text.drop r.1).take r.2) := by
  obtain ⟨a, k⟩ := r
  have hpiece := hR _ hr
  have hle := hpiece.le
  simp only at hle
  have hread : ∀ j, j ≤ text.length → m (p + j) = text.getD j 0 := fun j hj => ht.byte hend hj
  have hlen : ((text.drop a).take k).length = k := by
    rw [List.length_take, List.length_drop]
    omega
  refine ⟨fun j hj => ?_, fun c hc => hn c (List.mem_of_mem_drop (List.mem_of_mem_take hc))⟩
  rw [hlen] at hj
  rw [Mem.at_eq (by simp only; omega)]
  simp only
  rcases Nat.eq_or_lt_of_le hj with rfl | hlt
  · -- behind the piece stands the NUL of its cut, or the one that ends the text
    rw [List.getD_eq_default _ _ (by omega)]
    rcases Nat.eq_or_lt_of_le hle with hend' | hcut
    · rw [h.frame _ fun r' _ hlt' => by omega, Nat.add_assoc, hend', hread _ (Nat.le_refl _),
        List.getD_eq_default _ _ (Nat.le_refl _)]
    · exact h.nul _ hr hcut
  · -- no cut is inside it
    have hkeep : m' (p + a + j) = m (p + a + j) := by
      refine h.frame _ fun r' hr' hlt' heq => ?_
      have hsep := (hR r' hr').right.resolve_left (by omega)
      rw [show r'.1 + r'.2 = a + j by omega] at hsep
      exact hpiece.inside (a + j) (by simp only; omega) (by simp only; omega) hsep
    rw [hkeep, Nat.add_assoc, hread _ (by omega), getD_take _ 0 hlt, getD_drop]

end Calls

/-- **The tokens.** For every string and every string of delimiters, any number of calls returns the
pieces between the delimiters in order, then NULL; each token returned is a string in place, only
the delimiter behind it has been overwritten, and no access is behind a terminator. -/
theorem strtok_tokens {W p : Nat} {m : Mem} {text dl : List Byte} {delim : CStr} (hp : 0 < p)
    (ht : IsText (m.at W p) text) (hend : p + text.length < 2 ^ W) (hd : IsText delim dl)
    (hdl : dl.length < 2 ^ W) (olds : Nat) :
    ∃ R, (∀ a k, (a, k) ∈ R ↔ IsPiece (Delimits dl text) text.length a k) ∧
      (R.Pairwise fun r r' => r.1 < r'.1) ∧
      ∀ c, ∃ olds' m',
        Checked.calls W ⟨p, text.length⟩ delim dl.length c p olds m =
            Reading.of (some (returned p R c, olds', m')) ∧
          (∀ r ∈ R.take c, IsText (m'.at W (p + r.1)) ((text.drop r.1).take r.2)) ∧
          Cuts (R.take c) p text.length m m' := by
  obtain ⟨R, hR⟩ := exists_pieces (Delimits dl text) text.length 0
  have hmem : ∀ a k, (a, k) ∈ R ↔ IsPiece (Delimits dl text) text.length a k := fun a k =>
    (hR.mem_iff (Or.inl rfl)).trans (and_iff_left (Nat.zero_le a))
  have hleft : Left m p 0 text := fun j _ hj => ht.byte hend hj
  refine ⟨R, hmem, hR.sorted, fun c => ?_⟩
  obtain ⟨olds', m', hcalls, hcuts⟩ := calls_pieces ht.noNul hd hdl hend c hR hleft (Nat.zero_le _)
    (if_neg (Nat.ne_of_gt hp) : (if p = 0 then olds else p) = p + 0)
  exact ⟨olds', m', hcalls, fun r hr => hcuts.token ht.noNul hend ht
    (fun r hr => (hmem r.1 r.2).mp (List.mem_of_mem_take hr)) hr, hcuts⟩

theorem strtok_tokens_pair : ∃ R, (0, 1) ∈ R ∧ (2, 1) ∈ R ∧ ∀ c, ∃ olds' m',
    Checked.calls 32 ⟨0x1000, 3⟩ (lit [' ']) 1 c 0x1000 0 (fun a => lit ['a', ' ', 'b'] (a - 0x1000)) =
      Reading.of (some (returned 0x1000 R c, olds', m')) := by
  have ht : IsText (Mem.at 32 (fun a => lit ['a', ' ', 'b'] (a - 0x1000)) 0x1000)
      [ch 'a', ch ' ', ch 'b'] :=
    (isText_strOf (by decide)).congr fun i hi => by
      simp only [List.length_cons, List.length_nil] at hi
      rw [Mem.at_eq (by omega), Nat.add_sub_cancel_left]
      rfl
  obtain ⟨R, hR, -, hcalls⟩ := strtok_tokens (by decide) ht (by decide)
    (isText_strOf (by decide) : IsText (lit [' ']) [ch ' ']) (by decide) 0
  have hpiece : ∀ a, a = 0 ∨ a = 2 → IsPiece (Delimits [ch ' '] [ch 'a', ch ' ', ch 'b']) 3 a 1 := by
    rintro a (rfl | rfl)
    · refine ⟨by decide, by decide, fun j _ hj => ?_, Or.inl rfl, Or.inr (by unfold Delimits; decide)⟩
      obtain rfl : j = 0 := by omega
      unfold Delimits
      decide
    · refine ⟨by decide, by decide, fun j hj2 hj => ?_, Or.inr (by unfold Delimits; decide), Or.inl rfl⟩
      obtain rfl : j = 2 := by omega
      unfold Delimits
      decide
  refine ⟨R, (hR 0 1).mpr (hpiece 0 (Or.inl rfl)), (hR 2 1).mpr (hpiece 2 (Or.inr rfl)), fun c => ?_⟩
  obtain ⟨olds', m', h, -⟩ := hcalls c
  exact ⟨olds', m', h⟩

end Osdev2.Libk
