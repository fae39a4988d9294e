import Osdev2.Lib.Run
import Osdev2.Kernel.Editor
import Osdev2.I386.Platform

/-!
# The pending line

The reference editor keeps the pending line as a list: a character goes to its
end, a backspace drops the last, a newline clears it. `Pending v l`: the shell's
variables hold the line `l`, `shellptr` counting its characters and zeros
filling the rest of `shellbuf`. That tail is what makes the invariant inductive:
it is the NUL every console loop of the next event runs into.

* `kcallback_refines_line`: along any allowed run the shell follows the
  reference.
* `shellbuf_bounded_iff`: without a newline, `shellbuf` stays terminated exactly
  as long as the line has at most 255 characters.
-/

namespace Osdev2.Kernel

open Osdev2.Lib Osdev2.Libk

/-- An event: the character and `kstate`. -/
abbrev Event := Byte × Byte

/-- The shell's handler of events. -/
def onEvent {P : Platform} (L : Layout P) (e : Event) (s : Machine P) : Option (Machine P) :=
  kcallback L e.1 e.2 s

/-- The reference line after a key. The arrow keys are outside the reference. -/
def editLine (l : List Byte) : Key → List Byte
  | .char c => l ++ [c]
  | .bcksp => l.dropLast
  | .newline => []
  | .up | .down => l

structure Pending (v : View) (l : List Byte) : Prop where
  ptr : (v .shellptr).toNat = l.length
  buf : ∀ i, v (.shellbuf i) = l.getD i.toNat 0
  noNul : ∀ c ∈ l, c ≠ 0

namespace Pending

variable {v : View} {l : List Byte}

theorem length_le (h : Pending v l) : l.length ≤ 255 := by
  have := h.ptr ▸ (v .shellptr).isLt
  omega

theorem tail_zero (h : Pending v l) {i : Byte} (hi : l.length ≤ i.toNat) : v (.shellbuf i) = 0 := by
  rw [h.buf, List.getD_eq_default _ _ hi]

theorem terminated (h : Pending v l) : v.Terminated :=
  ⟨v .shellptr, h.tail_zero (Nat.le_of_eq h.ptr.symm)⟩

theorem text (h : Pending v l) : v.text = l := by
  have hle := h.length_le
  refine (View.isText_text h.terminated).1.unique ⟨fun i hi => ?_, h.noNul⟩
  rw [View.str, h.buf, BitVec.toNat_ofNat, show i % 2 ^ 8 = i by omega]

theorem nil (hp : v .shellptr = 0#8) (hb : ∀ i, v (.shellbuf i) = 0) : Pending v [] :=
  ⟨by rw [hp]; rfl, hb, fun _ hc => absurd hc List.not_mem_nil⟩

theorem append (h : Pending v l) {c : Byte} (hc : c ≠ 0) (hl : l.length < 255) :
    Pending (v.append c) (l ++ [c]) := by
  have hp := h.ptr
  refine ⟨?_, fun i => ?_, fun b hb => ?_⟩
  · rw [View.append, Function.update_of_ne (by simp), Function.update_self, BitVec.toNat_add,
      List.length_append, List.length_singleton, hp, BitVec.toNat_ofNat]
    omega
  · simp only [View.append, Function.update_apply, Static.shellbuf.injEq, reduceCtorEq, if_false]
    by_cases hi : i = v .shellptr
    · rw [if_pos hi, hi, hp, getD_concat, if_pos rfl]
    · have hne : i.toNat ≠ l.length := fun he => hi (BitVec.eq_of_toNat_eq (he.trans hp.symm))
      rw [if_neg hi, h.buf, getD_concat, if_neg hne]
  · rcases List.mem_append.mp hb with hb | hb
    · exact h.noNul b hb
    · rw [List.mem_singleton.mp hb]
      exact hc

theorem backspace (h : Pending v l) : Pending v.backspace l.dropLast := by
  have hp := h.ptr
  -- the new index is the length of the shorter line
  have hq : (if 0 < (v .shellptr).toNat then v .shellptr - 1#8 else v .shellptr).toNat =
      l.length - 1 := by
    rw [View.toNat_backspace, hp]
  simp only [View.backspace]
  generalize (if 0 < (v .shellptr).toNat then v .shellptr - 1#8 else v .shellptr) = q at hq
  refine ⟨?_, fun i => ?_, fun b hb => h.noNul b (List.mem_of_mem_dropLast hb)⟩
  · rw [Function.update_of_ne (by simp), Function.update_self, hq, List.length_dropLast]
  · simp only [Function.update_apply, Static.shellbuf.injEq, reduceCtorEq, if_false]
    by_cases hi : i = q
    · rw [if_pos hi, List.getD_eq_default]
      rw [hi, hq, List.length_dropLast]
    · have hne : i.toNat ≠ l.length - 1 := fun he => hi (BitVec.eq_of_toNat_eq (he.trans hq.symm))
      rw [if_neg hi, h.buf, getD_dropLast l 0 hne]

end Pending

section Refinement

variable {P : Platform} (L : Layout P)

/-- The events of the reference: a character that fits, a backspace, and a newline on
a line with a word that does not poke the shell's own variables. -/
def LineOk (l : List Byte) (e : Event) : Prop :=
  match P.key e.1 e.2 with
  | .char c => c ≠ 0 ∧ l.length < 255
  | .bcksp => True
  | .newline => (∃ c ∈ l, c ≠ ch ' ') ∧ View.Harmless L l
  | .up | .down => False

/-- The reference editor on events. -/
def editEvent (P : Platform) (l : List Byte) (e : Event) : List Byte := editLine l (P.key e.1 e.2)

variable {L}

theorem onEvent_pending {l : List Byte} {e : Event} {s : Machine P} (h : Pending (s.read L) l)
    (hok : LineOk L l e) :
    ∃ s', onEvent L e s = some s' ∧ s'.read L = (s.read L).step (P.key e.1 e.2) ∧
      Pending (s'.read L) (editEvent P l e) := by
  have hstep : Pending ((s.read L).step (P.key e.1 e.2)) (editEvent P l e) := by
    unfold editEvent
    unfold LineOk at hok
    cases hkey : P.key e.1 e.2 <;> rw [hkey] at hok
    case newline => exact Pending.nil rfl fun _ => rfl
    case bcksp => exact h.backspace
    case char c => exact h.append hok.1 hok.2
    all_goals exact hok.elim
  have hguard : View.Guard L (P.key e.1 e.2) (s.read L) := by
    unfold LineOk at hok
    cases hkey : P.key e.1 e.2 <;> rw [hkey] at hok
    case newline => exact ⟨h.terminated, h.text ▸ hok.2⟩
    case up | down => exact hok.elim
    all_goals trivial
  obtain ⟨s', hs', hread⟩ := kcallback_step hguard hstep.terminated
  exact ⟨s', hs', hread, hread ▸ hstep⟩

theorem shell_init_pending {s : Machine P} (h0 : s.read L .shellptr = 0#8) :
    ∃ s', shell_init L s = some s' ∧ Pending (s'.read L) [] := by
  obtain ⟨s', hs', hq⟩ := Machine.putsLit_returns (l := ['>']) (by decide) (s.clearbuf L)
  refine ⟨s', hs', Pending.nil ?_ fun i => ?_⟩ <;> rw [hq.read, Machine.read_clearbuf]
  · exact h0
  · rfl

/-- **The line editor.** From `shell_init` with `shellptr` 0, along every sequence of
allowed events each event returns, and leaves the line of the reference editor in
`shellbuf[0..shellptr)` and zeros in the rest. -/
theorem kcallback_refines_line {s : Machine P} (h0 : s.read L .shellptr = 0#8) {es : List Event}
    (hok : Along (editEvent P) (LineOk L) [] es) :
    ∃ s₀, shell_init L s = some s₀ ∧ ∀ pre, pre <+: es →
      ∃ s', runs (onEvent L) pre s₀ = some s' ∧
        Pending (s'.read L) (pre.foldl (editEvent P) []) := by
  obtain ⟨s₀, hs₀, hp⟩ := shell_init_pending h0
  refine ⟨s₀, hs₀, fun pre ⟨post, hpost⟩ => ?_⟩
  have hpre : Along (editEvent P) (LineOk L) [] pre :=
    (hpost ▸ hok).append.1
  refine runs_simulates (R := fun l (s : Machine P) => Pending (s.read L) l)
    (fun l e s h hok => ?_) hp hpre
  obtain ⟨s', hs', -, hpend⟩ := onEvent_pending h hok
  exact ⟨s', hs', hpend⟩

end Refinement

theorem kcallback_refines_line_i386 :
    ∃ s₀, shell_init I386.lowLayout I386.cleared = some s₀ ∧
      ∀ pre, pre <+: [(ch 'a', 0), (ch 'b', 0), (0, I386.KBD_BCKSP), (ch '\n', 0)] →
        ∃ s', runs (onEvent I386.lowLayout) pre s₀ = some s' ∧
          Pending (s'.read I386.lowLayout) (pre.foldl (editEvent (I386.i386 I386.lowDrivers)) []) :=
  kcallback_refines_line rfl
    ⟨⟨by decide, by decide⟩, ⟨by decide, by decide⟩, trivial,
      ⟨⟨ch 'a', by decide, by decide⟩, fun x h => by cases h⟩, trivial⟩

/-! ## The bound of the buffer -/

section Bound

variable {P : Platform} {L : Layout P} {s : Machine P} {l₀ : List Byte} {es : List Event}

/-- A character other than NUL, or a backspace. -/
def Typing (P : Platform) (e : Event) : Prop :=
  match P.key e.1 e.2 with
  | .char c => c ≠ 0
  | .bcksp => True
  | .newline | .up | .down => False

/-- The event returns, leaves a NUL in `shellbuf`, and if it types a character leaves
every other character of the line. -/
def KeepsLine (L : Layout P) (e : Event) (s : Machine P) : Prop :=
  ∃ s', onEvent L e s = some s' ∧ (s'.read L).Terminated ∧ ∀ c, P.key e.1 e.2 = .char c →
    ∀ i, s.read L (.shellbuf i) ≠ 0 → s'.read L (.shellbuf i) = s.read L (.shellbuf i)

theorem typing_lineOk {l : List Byte} {e : Event} (he : Typing P e)
    (hlen : (editEvent P l e).length ≤ 255) : LineOk L l e := by
  unfold Typing at he
  unfold LineOk
  unfold editEvent at hlen
  cases hkey : P.key e.1 e.2 <;> rw [hkey] at he hlen
  case char c =>
    refine ⟨he, ?_⟩
    rw [editLine, List.length_append, List.length_singleton] at hlen
    omega
  case bcksp => trivial
  all_goals exact he.elim

theorem typing_histptr {e : Event} (he : Typing P e) {v : View} :
    v.step (P.key e.1 e.2) .histptr = v .histptr := by
  unfold Typing at he
  cases hkey : P.key e.1 e.2 <;> rw [hkey] at he
  case char c => simp [View.step, View.append]
  case bcksp => simp [View.step, View.backspace]
  all_goals exact he.elim

theorem typing_run (h : Pending (s.read L) l₀) (hes : ∀ e ∈ es, Typing P e)
    (hlen : ∀ pre, pre <+: es → (pre.foldl (editEvent P) l₀).length ≤ 255) :
    ∃ s', runs (onEvent L) es s = some s' ∧ Pending (s'.read L) (es.foldl (editEvent P) l₀) ∧
      s'.read L .histptr = s.read L .histptr := by
  induction es using List.reverseRecOn with
  | nil => exact ⟨s, rfl, h, rfl⟩
  | append_singleton es e ih =>
    obtain ⟨t, ht, hpend, hhist⟩ := ih (fun e he => hes e (List.mem_append_left _ he))
      fun pre hp => hlen pre (hp.trans (List.prefix_append _ _))
    have hlast := hlen _ (List.prefix_refl _)
    rw [List.foldl_append, List.foldl_cons, List.foldl_nil] at hlast ⊢
    have he := hes e (by simp)
    obtain ⟨s', hs', hread, hpend'⟩ := onEvent_pending hpend (typing_lineOk he hlast)
    refine ⟨s', runs_snoc.mpr ⟨t, ht, hs'⟩, hpend', ?_⟩
    rw [hread, typing_histptr he, hhist]

/-- A full buffer has no NUL left. -/
theorem Pending.append_full {v : View} {l : List Byte} (h : Pending v l) (hl : l.length = 255)
    {c : Byte} (hc : c ≠ 0) : ¬(v.append c).Terminated := by
  rintro ⟨i, hi⟩
  rw [View.append, Function.update_apply] at hi
  split at hi
  · exact hc hi
  · rename_i hne
    rw [Function.update_of_ne (by simp), h.buf] at hi
    have hlt := i.isLt
    have hi255 : i.toNat ≠ 255 := fun he =>
      hne (congrArg _ (BitVec.eq_of_toNat_eq (he.trans (hl.symm.trans h.ptr.symm))))
    rw [List.getD_eq_getElem _ _ (by omega)] at hi
    exact h.noNul _ (List.getElem_mem _) hi

theorem keepsLine_of_fits {l : List Byte} {e : Event} (h : Pending (s.read L) l)
    (he : Typing P e) (hlen : (editEvent P l e).length ≤ 255) : KeepsLine L e s := by
  obtain ⟨s', hs', -, hpend⟩ := onEvent_pending h (typing_lineOk he hlen)
  refine ⟨s', hs', hpend.terminated, fun c hkey i hi => ?_⟩
  have hlt : i.toNat < l.length := by
    by_contra hge
    exact hi (h.tail_zero (Nat.le_of_not_lt hge))
  rw [hpend.buf, h.buf, editEvent, hkey, editLine, List.getD_append _ _ _ _ hlt]

theorem fits_of_keepsLine {l : List Byte} {e : Event} (h : Pending (s.read L) l)
    (he : Typing P e) (hk : KeepsLine L e s) : (editEvent P l e).length ≤ 255 := by
  have hle := h.length_le
  unfold Typing at he
  unfold editEvent
  obtain ⟨s', hs', hterm, -⟩ := hk
  rw [onEvent, kcallback_eq] at hs'
  cases hkey : P.key e.1 e.2 <;> rw [hkey] at he hs'
  case char c =>
    rw [editLine, List.length_append, List.length_singleton]
    by_contra hgt
    have hread : s'.read L = (s.read L).append c :=
      (Machine.puts_quiet hs').read.trans (read_kbd_char c)
    exact h.append_full (by omega) he (hread ▸ hterm)
  case bcksp =>
    rw [editLine, List.length_dropLast]
    omega
  all_goals exact he.elim

theorem line_bounded (h : Pending (s.read L) l₀) (hes : ∀ e ∈ es, Typing P e)
    (hk : ∀ pre e, pre ++ [e] <+: es → ∃ t, runs (onEvent L) pre s = some t ∧ KeepsLine L e t) :
    ∀ pre, pre <+: es → (pre.foldl (editEvent P) l₀).length ≤ 255 := by
  induction es using List.reverseRecOn with
  | nil =>
    intro pre hp
    rw [List.prefix_nil.mp hp]
    exact h.length_le
  | append_singleton es e ih =>
    have hlen := ih (fun e he => hes e (List.mem_append_left _ he))
      fun pre e hp => hk pre e (hp.trans (List.prefix_append _ _))
    intro pre hp
    rcases List.prefix_concat_iff.mp hp with rfl | hp
    · obtain ⟨t, ht, hkeep⟩ := hk es e (List.prefix_refl _)
      obtain ⟨t', ht', hpend, -⟩ := typing_run h (fun e he => hes e (List.mem_append_left _ he)) hlen
      obtain rfl : t = t' := Option.some.inj (ht.symm.trans ht')
      rw [List.foldl_append, List.foldl_cons, List.foldl_nil]
      exact fits_of_keepsLine hpend (hes e (by simp)) hkeep
    · exact hlen pre hp

/-- **The buffer bound.** From a pending line, every typing event of a run keeps a NUL
in `shellbuf` and the characters typed before exactly if the line never has more
than 255 characters. -/
theorem shellbuf_bounded_iff (h : Pending (s.read L) l₀) (hes : ∀ e ∈ es, Typing P e) :
    (∀ pre e, pre ++ [e] <+: es → ∃ t, runs (onEvent L) pre s = some t ∧ KeepsLine L e t) ↔
      ∀ pre, pre <+: es → (pre.foldl (editEvent P) l₀).length ≤ 255 := by
  refine ⟨line_bounded h hes, fun hlen pre e hp => ?_⟩
  have hpre := (List.prefix_append pre [e]).trans hp
  obtain ⟨t, ht, hpend, -⟩ := typing_run h (fun e he => hes e (hpre.subset he))
    fun p hpp => hlen p (hpp.trans hpre)
  refine ⟨t, ht, keepsLine_of_fits hpend (hes e (hp.subset (by simp))) ?_⟩
  have hlast := hlen _ hp
  rwa [List.foldl_append, List.foldl_cons, List.foldl_nil] at hlast

theorem editEvent_length_le (P : Platform) (es : List Event) (l : List Byte) :
    (es.foldl (editEvent P) l).length ≤ l.length + es.length := by
  induction es generalizing l with
  | nil => exact Nat.le_refl _
  | cons e es ih =>
    have hstep : (editEvent P l e).length ≤ l.length + 1 := by
      unfold editEvent
      cases P.key e.1 e.2 <;> simp only [editLine, List.length_append, List.length_cons,
        List.length_nil, List.length_dropLast] <;> omega
    have := ih (editEvent P l e)
    rw [List.foldl_cons, List.length_cons]
    omega

theorem key_char (P : Platform) {c : Byte} (hc : c ≠ ch '\n') : P.key c 0 = .char c := by
  have hheld : ∀ bit, held 0 bit = false := fun bit => by simp [held]
  simp only [Platform.key, if_neg hc, hheld, Bool.false_eq_true, if_false]

theorem typed_pending (h : Pending (s.read L) []) {text : List Byte}
    (hn : ∀ c ∈ text, c ≠ 0 ∧ c ≠ ch '\n') (hl : text.length ≤ 255) :
    ∃ s', runs (onEvent L) (text.map fun c => (c, 0)) s = some s' ∧ Pending (s'.read L) text ∧
      s'.read L .histptr = s.read L .histptr := by
  have hfold : ∀ l, (text.map fun c => (c, (0 : Byte))).foldl (editEvent P) l = l ++ text := by
    clear hl
    induction text with
    | nil => exact fun l => (List.append_nil l).symm
    | cons c text ih =>
      intro l
      rw [List.map_cons, List.foldl_cons, ih fun c hc => hn c (List.mem_cons_of_mem _ hc), editEvent,
        key_char P (hn c List.mem_cons_self).2, editLine, List.append_assoc, List.singleton_append]
  have htyping : ∀ e ∈ text.map fun c => (c, 0), Typing P e := fun e he => by
    obtain ⟨c, hc, rfl⟩ := List.mem_map.mp he
    unfold Typing
    rw [key_char P (hn c hc).2]
    exact (hn c hc).1
  obtain ⟨s', hs', hp, hhist⟩ := typing_run h htyping fun pre hp => by
      have h1 := editEvent_length_le P pre []
      have h2 := hp.length_le
      rw [List.length_map] at h2
      rw [List.length_nil] at h1
      omega
  rw [hfold, List.nil_append] at hp
  exact ⟨s', hs', hp, hhist⟩

end Bound

theorem cleared_pending : Pending (I386.cleared.read I386.lowLayout) [] :=
  Pending.nil rfl fun _ => rfl

theorem shellbuf_bounded_iff_typed :
    (∀ pre e, pre ++ [e] <+: [(ch 'l', 0), (ch 's', 0)] → ∃ t,
        runs (onEvent I386.lowLayout) pre I386.cleared = some t ∧ KeepsLine I386.lowLayout e t) ↔
      ∀ pre, pre <+: [(ch 'l', 0), (ch 's', 0)] →
        (pre.foldl (editEvent (I386.i386 I386.lowDrivers)) []).length ≤ 255 :=
  shellbuf_bounded_iff cleared_pending (by
    intro e he
    rcases List.mem_pair.mp he with rfl | rfl
    · exact (by decide : ch 'l' ≠ 0)
    · exact (by decide : ch 's' ≠ 0))

theorem editEvent_replicate {P : Platform} {e : Event} {c : Byte} (h : P.key e.1 e.2 = .char c)
    (n : Nat) (l : List Byte) :
    ((List.replicate n e).foldl (editEvent P) l).length = l.length + n := by
  induction n generalizing l with
  | zero => rfl
  | succ n ih =>
    rw [List.replicate_succ, List.foldl_cons, ih, editEvent, h, editLine, List.length_append,
      List.length_singleton]
    omega

/-- The 256th character typed leaves no NUL. -/
theorem shellbuf_overflows :
    ¬∀ pre e, pre ++ [e] <+: List.replicate 256 (ch 'a', 0) → ∃ t,
      runs (onEvent I386.lowLayout) pre I386.cleared = some t ∧ KeepsLine I386.lowLayout e t := by
  intro H
  have hlen := line_bounded cleared_pending
    (fun e he => by
      rw [List.eq_of_mem_replicate he]
      exact (by decide : ch 'a' ≠ 0)) H _ (List.prefix_refl _)
  rw [editEvent_replicate (c := ch 'a') (by decide)] at hlen
  exact absurd hlen (by decide)

end Osdev2.Kernel
