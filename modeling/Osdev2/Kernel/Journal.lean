import Osdev2.Kernel.History

/-!
# The history as a journal

`histptr` is both where the next line goes and where the arrows stand. `Journal`
is what the history is for: the lines submitted so far, in order, and how far
back from their end the arrows have gone. A submission appends; nothing else
changes the list. `onEvent_simulates`: the shell follows the journal as
long as no line is submitted while browsing (`Journal.Ok`), and row `k` of the
history is then the `k`-th submission for good.
-/

namespace Osdev2.Kernel

open Osdev2.Lib Osdev2.Libk

/-- `submitted` has the variables as they were at each submission. -/
structure Journal where
  view : View
  submitted : List View
  back : Nat

namespace Journal

def step (j : Journal) (k : Key) : Journal :=
  match k with
  | .newline => ⟨j.view.step k, j.submitted ++ [j.view], 0⟩
  | .up => ⟨j.view.step k, j.submitted, j.back + 1⟩
  | .down => ⟨j.view.step k, j.submitted, j.back - 1⟩
  | .bcksp | .char _ => ⟨j.view.step k, j.submitted, j.back⟩

def onEvent (P : Platform) (j : Journal) (e : Event) : Journal := j.step (P.key e.1 e.2)

/-- Enter with as many Downs as Ups since the last one, on a line that does not poke
the shell's own variables; Up and Down within the entries; no 256th character. -/
def Ok {P : Platform} (L : Layout P) (j : Journal) (e : Event) : Prop :=
  match P.key e.1 e.2 with
  | .newline => j.back = 0 ∧ j.submitted.length < 255 ∧ View.Harmless L j.view.text
  | .up => j.back < j.submitted.length
  | .down => 0 < j.back
  | .bcksp => True
  | .char c => (j.view.append c).Terminated

/-- All variables zero. -/
def blank : View := fun _ => 0

/-- The submission of a row. -/
def entry (j : Journal) (row : Nat) : View := j.submitted.getD row blank

theorem blank_saved (i : Byte) : blank.saved i = 0 := by
  have hp : Pending blank [] := Pending.nil rfl fun _ => rfl
  have hlen := commandLine_length []
  rw [hp.saved, List.getD_eq_default]
  rw [hlen]
  exact Nat.zero_le _

/-- The variables are those of the journal: row `k` holds submission `k`. -/
structure Wf (j : Journal) : Prop where
  count : j.submitted.length ≤ 255
  back : j.back ≤ j.submitted.length
  histptr : (j.view .histptr).toNat = j.submitted.length - j.back
  text : ∀ row i, j.view (.shellhist row i) = (j.entry row.toNat).saved i
  cursor : ∀ row, j.view (.shellptr_hist row) = j.entry row.toNat .shellptr
  terminated : j.view.Terminated
  ended : ∀ v ∈ j.submitted, v.Terminated

theorem saved_ended {v : View} (h : v.Terminated) : ∃ i, v.saved i = 0 := by
  obtain ⟨ht, hlen⟩ := View.isText_text h
  refine ⟨BitVec.ofNat 8 v.text.length, ?_⟩
  have hi : (BitVec.ofNat 8 v.text.length).toNat = v.text.length := by
    rw [BitVec.toNat_ofNat]
    omega
  rw [View.saved, hi, List.getD_eq_default _ _ (Nat.le_of_eq (commandLine_length _))]
  exact ht.nul

theorem Wf.entry_ended {j : Journal} (h : j.Wf) (row : Nat) : ∃ i, (j.entry row).saved i = 0 := by
  unfold entry
  rcases Nat.lt_or_ge row j.submitted.length with hr | hr
  · rw [List.getD_eq_getElem _ _ hr]
    exact saved_ended (h.ended _ (List.getElem_mem hr))
  · rw [List.getD_eq_default _ _ hr]
    exact ⟨0, blank_saved 0⟩

theorem wf_blank : Wf ⟨blank, [], 0⟩ where
  count := Nat.zero_le _
  back := Nat.zero_le _
  histptr := rfl
  text _ i := (blank_saved i).symm
  cursor _ := rfl
  terminated := ⟨0, rfl⟩
  ended _ hv := absurd hv List.not_mem_nil

theorem Wf.edit {j : Journal} (h : j.Wf) {v : View} (hh : v .histptr = j.view .histptr)
    (ht : ∀ row i, v (.shellhist row i) = j.view (.shellhist row i))
    (hc : ∀ row, v (.shellptr_hist row) = j.view (.shellptr_hist row)) (hv : v.Terminated) :
    Wf ⟨v, j.submitted, j.back⟩ where
  count := h.count
  back := h.back
  histptr := (congrArg BitVec.toNat hh).trans h.histptr
  text row i := (ht row i).trans (h.text row i)
  cursor row := (hc row).trans (h.cursor row)
  terminated := hv
  ended := h.ended

theorem Wf.browse {j : Journal} (h : j.Wf) {b : Nat} {row : Byte} (hb : b ≤ j.submitted.length)
    (hrow : row.toNat = j.submitted.length - b) : Wf ⟨j.view.browse row, j.submitted, b⟩ where
  count := h.count
  back := hb
  histptr := (congrArg BitVec.toNat (View.browse_histptr row j.view)).trans hrow
  text r i := (View.browse_shellhist row j.view r i).trans (h.text r i)
  cursor r := (View.browse_shellptr_hist row j.view r).trans (h.cursor r)
  terminated := by
    obtain ⟨i, hi⟩ := h.entry_ended row.toNat
    exact ⟨i, (View.browse_shellbuf row j.view i).trans ((h.text row i).trans hi)⟩
  ended := h.ended

/-- A submission at the end of the list. -/
theorem Wf.submit {j : Journal} (h : j.Wf) (h0 : j.back = 0) (hn : j.submitted.length < 255) :
    Wf ⟨j.view.record j.view.saved, j.submitted ++ [j.view], 0⟩ := by
  have hhist := h.histptr
  have hcount := h.count
  rw [h0, Nat.sub_zero] at hhist
  have hentry : ∀ row : Byte, entry ⟨j.view.record j.view.saved, j.submitted ++ [j.view], 0⟩ row.toNat =
      if row = j.view .histptr then j.view else j.entry row.toNat := by
    intro row
    have hrow : row = j.view .histptr ↔ row.toNat = j.submitted.length :=
      ⟨fun e => e ▸ hhist, fun e => BitVec.eq_of_toNat_eq (e.trans hhist.symm)⟩
    unfold entry
    by_cases hr : row = j.view .histptr
    · rw [if_pos hr, hrow.mp hr, getD_concat, if_pos rfl]
    · rw [if_neg hr, getD_concat, if_neg (mt hrow.mpr hr)]
  refine ⟨?_, Nat.zero_le _, ?_, fun row i => ?_, fun row => ?_, ⟨0, rfl⟩, fun v hv => ?_⟩
  · rw [List.length_append, List.length_singleton]
    omega
  · simp only [View.record_histptr, BitVec.toNat_add, BitVec.toNat_ofNat, List.length_append,
      List.length_singleton]
    omega
  · rw [hentry]
    simp only [View.record_shellhist]
    split
    · rfl
    · exact h.text row i
  · rw [hentry]
    simp only [View.record_shellptr_hist]
    split
    · rfl
    · exact h.cursor row
  · rcases List.mem_append.mp hv with hv | hv
    · exact h.ended v hv
    · rw [List.mem_singleton.mp hv]
      exact h.terminated

/-! ## The shell follows the journal -/

section Steps

variable {P : Platform} {L : Layout P} {j : Journal} {e : Event}

theorem Wf.step (h : j.Wf) (hok : Ok L j e) :
    (j.onEvent P e).Wf ∧ View.Guard L (P.key e.1 e.2) j.view := by
  have hh := h.histptr
  have hback := h.back
  have hcount := h.count
  unfold Ok at hok
  unfold onEvent
  cases hkey : P.key e.1 e.2 <;> rw [hkey] at hok
  case newline => exact ⟨h.submit hok.1 hok.2.1, h.terminated, hok.2.2⟩
  case bcksp =>
    refine ⟨h.edit ?_ (fun row i => ?_) (fun row => ?_) ⟨_, Function.update_self ..⟩, trivial⟩ <;>
      simp [View.step, View.backspace]
  case char c =>
    refine ⟨h.edit ?_ (fun row i => ?_) (fun row => ?_) hok, trivial⟩ <;>
      simp [View.step, View.append]
  case up =>
    have hok : j.back < j.submitted.length := hok
    refine ⟨h.browse hok ?_, fun h0 => ?_⟩
    · rw [BitVec.toNat_sub, BitVec.toNat_ofNat]
      omega
    · rw [h0, BitVec.toNat_ofNat] at hh
      omega
  case down =>
    have hok : 0 < j.back := hok
    refine ⟨h.browse (Nat.le_trans (Nat.sub_le _ _) hback) ?_, fun h0 => ?_⟩
    · rw [BitVec.toNat_add, BitVec.toNat_ofNat]
      omega
    · rw [h0, BitVec.toNat_ofNat] at hh
      omega

theorem onEvent_view (j : Journal) : (j.onEvent P e).view = j.view.step (P.key e.1 e.2) := by
  unfold onEvent
  cases P.key e.1 e.2 <;> rfl

theorem onEvent_simulates {s : Machine P} (h : j.Wf) (hv : s.read L = j.view) (hok : Ok L j e) :
    ∃ s', Kernel.onEvent L e s = some s' ∧ (j.onEvent P e).Wf ∧
      s'.read L = (j.onEvent P e).view := by
  obtain ⟨hwf, hguard⟩ := h.step hok
  have hview := onEvent_view (P := P) (e := e) j
  rw [← hv] at hguard hview
  obtain ⟨s', hs', hread⟩ := kcallback_step hguard (hview ▸ hwf.terminated)
  exact ⟨s', hs', hwf, hread.trans hview.symm⟩

/-- Submissions are only ever appended. -/
theorem submitted_prefix (P : Platform) (es : List Event) (j : Journal) :
    j.submitted <+: (es.foldl (Journal.onEvent P) j).submitted := by
  induction es generalizing j with
  | nil => exact List.prefix_refl _
  | cons e es ih =>
    refine List.IsPrefix.trans ?_ (ih (j.onEvent P e))
    unfold onEvent
    cases P.key e.1 e.2
    case newline => exact List.prefix_append _ _
    all_goals exact List.prefix_refl _

end Steps

end Journal

/-! ## Every submission stays, in order -/

section AppendOnly

variable {P : Platform} {L : Layout P} {s : Machine P}

/-- The line is saved as it was submitted if no space follows a word in it. -/
theorem saved_eq {v : View} (h : v.Terminated) (hb : ¬Line.Broken [ch ' '] v.text) (i : Byte) :
    v.saved i = v (.shellbuf i) := by
  rw [View.saved, (commandLine_bytes_iff _).mpr hb]
  rcases Nat.lt_or_ge i.toNat v.text.length with hi | hi
  · have hr := (View.isText_text h).1.reads_lt hi
    rw [List.getD_eq_getElem _ _ hi, ← hr, View.str, BitVec.ofNat_toNat, BitVec.setWidth_eq]
  · rw [List.getD_eq_default _ _ hi]

/-- Row `k` of the history is the `k`-th of the submitted lines, for each of them. -/
structure Holds (v : View) (lines : List View) : Prop where
  text : ∀ k (h : k < lines.length) i, v (.shellhist (BitVec.ofNat 8 k) i) = lines[k].saved i
  cursor : ∀ k (h : k < lines.length), v (.shellptr_hist (BitVec.ofNat 8 k)) = lines[k] .shellptr
  whole : ∀ u ∈ lines, ¬Line.Broken [ch ' '] u.text → ∀ i, u.saved i = u (.shellbuf i)

theorem Journal.Wf.holds {j : Journal} (h : j.Wf) : Holds j.view j.submitted := by
  have hk : ∀ k, k < j.submitted.length → (BitVec.ofNat 8 k).toNat = k := by
    intro k hk
    have := h.count
    rw [BitVec.toNat_ofNat]
    omega
  refine ⟨fun k hlt i => ?_, fun k hlt => ?_, fun u hu hb => saved_eq (h.ended u hu) hb⟩
  · rw [h.text, hk k hlt, Journal.entry, List.getD_eq_getElem _ _ hlt]
  · rw [h.cursor, hk k hlt, Journal.entry, List.getD_eq_getElem _ _ hlt]

/-- `k` Ups from the end of the history show the `k`-th line from the end. -/
def WalksBack (L : Layout P) (s : Machine P) (j : Journal) : Prop :=
  ∀ u, P.key u.1 u.2 = .up → ∀ k, 0 < k → (h : k + j.back ≤ j.submitted.length) →
    ∃ s', runs (onEvent L) (List.replicate k u) s = some s' ∧
      (∀ i, s'.read L (.shellbuf i) = (j.entry (j.submitted.length - (k + j.back))).saved i) ∧
      s'.read L .shellptr = j.entry (j.submitted.length - (k + j.back)) .shellptr

theorem Journal.Wf.up {j : Journal} (h : j.Wf) (hb : j.back < j.submitted.length) :
    (∀ i, (j.step .up).view (.shellbuf i) =
      (j.entry (j.submitted.length - (j.back + 1))).saved i) ∧
    (j.step .up).view .shellptr = j.entry (j.submitted.length - (j.back + 1)) .shellptr := by
  have hh := h.histptr
  have hrow : (j.view .histptr - 1#8).toNat = j.submitted.length - (j.back + 1) := by
    have := h.count
    rw [BitVec.toNat_sub, BitVec.toNat_ofNat]
    omega
  rw [← hrow]
  exact ⟨fun i => (View.browse_shellbuf _ j.view i).trans (h.text _ i),
    (View.browse_shellptr _ j.view).trans (h.cursor _)⟩

theorem ups_run {j : Journal} (h : j.Wf) (hv : s.read L = j.view) {u : Event}
    (hu : P.key u.1 u.2 = .up) : ∀ k, k + j.back ≤ j.submitted.length →
      ∃ s' v, runs (onEvent L) (List.replicate k u) s = some s' ∧ s'.read L = v ∧
        Journal.Wf ⟨v, j.submitted, k + j.back⟩ := by
  intro k
  induction k with
  | zero => exact fun _ => ⟨s, j.view, rfl, hv, by rw [Nat.zero_add]; exact h⟩
  | succ k ih =>
    intro hk
    obtain ⟨t, v, ht, hread, hwf⟩ := ih (by omega)
    have hok : Journal.Ok L ⟨v, j.submitted, k + j.back⟩ u := by
      unfold Journal.Ok
      rw [hu]
      simp only
      omega
    obtain ⟨s', hs', hwf', hread'⟩ := Journal.onEvent_simulates hwf hread hok
    rw [Journal.onEvent, hu] at hwf' hread'
    refine ⟨s', _, ?_, hread', ?_⟩
    · rw [List.replicate_succ']
      exact runs_snoc.mpr ⟨t, ht, hs'⟩
    · rw [Nat.add_right_comm]
      exact hwf'

theorem walksBack {j : Journal} (h : j.Wf) (hv : s.read L = j.view) : WalksBack L s j := by
  intro u hu k h0 hk
  obtain ⟨k, rfl⟩ : ∃ i, k = i + 1 := ⟨k - 1, by omega⟩
  obtain ⟨t, v, ht, hread, hwf⟩ := ups_run h hv hu k (by omega)
  have hb : k + j.back < j.submitted.length := by omega
  obtain ⟨htext, hcursor⟩ := hwf.up hb
  have hok : Journal.Ok L ⟨v, j.submitted, k + j.back⟩ u := by
    unfold Journal.Ok
    rw [hu]
    exact hb
  obtain ⟨s', hs', -, hread'⟩ := Journal.onEvent_simulates hwf hread hok
  rw [Journal.onEvent, hu] at hread'
  rw [Nat.add_right_comm k 1]
  refine ⟨s', ?_, fun i => ?_, ?_⟩
  · rw [List.replicate_succ']
    exact runs_snoc.mpr ⟨t, ht, hs'⟩
  · rw [hread']
    exact htext i
  · rw [hread']
    exact hcursor

/-- **The history is append-only.** From variables all zero, along every run in which
no line is submitted while browsing: each event returns, each submission goes to the
row after all earlier ones, every row recorded before keeps its line, and Ups walk
back through the submissions, last first. -/
theorem history_append_only (h0 : ∀ x, s.read L x = 0) {es : List Event}
    (hok : Along (Journal.onEvent P) (Journal.Ok L) ⟨Journal.blank, [], 0⟩ es) :
    ∃ s₀, shell_init L s = some s₀ ∧ ∀ pre, pre <+: es → ∃ s' j,
      j = pre.foldl (Journal.onEvent P) ⟨Journal.blank, [], 0⟩ ∧
      j.submitted <+: (es.foldl (Journal.onEvent P) ⟨Journal.blank, [], 0⟩).submitted ∧
      runs (onEvent L) pre s₀ = some s' ∧ s'.read L = j.view ∧
      Holds (s'.read L) j.submitted ∧ WalksBack L s' j := by
  obtain ⟨s₀, hs₀, hq⟩ := Machine.putsLit_returns (l := ['>']) (by decide) (s.clearbuf L)
  have hblank : s₀.read L = Journal.blank := by
    rw [hq.read, Machine.read_clearbuf]
    funext x
    cases x <;> first | rfl | exact h0 _
  refine ⟨s₀, hs₀, fun pre ⟨post, hpost⟩ => ?_⟩
  subst hpost
  obtain ⟨s', hs', hwf, hread⟩ := runs_simulates
    (R := fun j (s : Machine P) => j.Wf ∧ s.read L = j.view)
    (fun j e s h hok => Journal.onEvent_simulates h.1 h.2 hok) ⟨Journal.wf_blank, hblank⟩
    hok.append.1
  refine ⟨s', _, rfl, ?_, hs', hread, hread ▸ hwf.holds, walksBack hwf hread⟩
  rw [List.foldl_append]
  exact Journal.submitted_prefix P post _

end AppendOnly

/-! ## Two runs -/

theorem runs_view {P : Platform} {L : Layout P} {s : Machine P} {v : View} {es : List Event}
    (hv : s.read L = v) (h : Along (fun v e => v.step (P.key e.1 e.2))
      (fun v e => View.Guard L (P.key e.1 e.2) v ∧ (v.step (P.key e.1 e.2)).Terminated) v es) :
    ∃ s', runs (onEvent L) es s = some s' ∧
      s'.read L = es.foldl (fun v e => v.step (P.key e.1 e.2)) v := by
  refine runs_simulates (R := fun v (s : Machine P) => s.read L = v) (fun v e s hv hok => ?_) hv h
  subst hv
  exact kcallback_step hok.1 hok.2

theorem harmless_of_none {P : Platform} {L : Layout P} {text : List Byte}
    (h : pokeTarget P.W text = none) : View.Harmless L text :=
  fun x hx => by rw [h] at hx; cases hx

theorem blank_pending : Pending Journal.blank [] := Pending.nil rfl fun _ => rfl

theorem history_append_only_a : ∃ s₀, shell_init I386.lowLayout I386.cleared = some s₀ ∧
    ∀ pre, pre <+: [(ch 'a', 0), (ch '\n', 0), (0, I386.KBD_UP)] → ∃ s' j,
      j = pre.foldl (Journal.onEvent (I386.i386 I386.lowDrivers)) ⟨Journal.blank, [], 0⟩ ∧
      j.submitted <+: ([(ch 'a', 0), (ch '\n', 0), (0, I386.KBD_UP)].foldl
        (Journal.onEvent (I386.i386 I386.lowDrivers)) ⟨Journal.blank, [], 0⟩).submitted ∧
      runs (onEvent I386.lowLayout) pre s₀ = some s' ∧ s'.read I386.lowLayout = j.view ∧
      Holds (s'.read I386.lowLayout) j.submitted ∧ WalksBack I386.lowLayout s' j := by
  have hp : Pending (Journal.blank.append (ch 'a')) [ch 'a'] :=
    blank_pending.append (by decide) (by decide)
  exact history_append_only (fun _ => rfl)
    ⟨hp.terminated, ⟨rfl, by decide, harmless_of_none (hp.text.symm ▸ by decide)⟩,
      (by decide : 0 < 1), trivial⟩

/-- Going up to `a` and submitting `ab` there overwrites the row of `a`. -/
theorem history_overwritten : ∃ s₀ s₁ s₂, shell_init I386.lowLayout I386.cleared = some s₀ ∧
    runs (onEvent I386.lowLayout) [(ch 'a', 0), (ch '\n', 0)] s₀ = some s₁ ∧
    runs (onEvent I386.lowLayout) [(0, I386.KBD_UP), (ch 'b', 0), (ch '\n', 0)] s₁ = some s₂ ∧
    s₁.read I386.lowLayout .histptr = 1 ∧
    ¬∀ i, s₂.read I386.lowLayout (.shellhist 0 i) = s₁.read I386.lowLayout (.shellhist 0 i) := by
  obtain ⟨s₀, hs₀, hp₀⟩ : ∃ s₀, shell_init I386.lowLayout I386.cleared = some s₀ ∧
      s₀.read I386.lowLayout = Journal.blank := by
    obtain ⟨s₀, hs₀, hq⟩ := Machine.putsLit_returns (l := ['>']) (by decide)
      (I386.cleared.clearbuf I386.lowLayout)
    refine ⟨s₀, hs₀, ?_⟩
    rw [hq.read, Machine.read_clearbuf]
    funext x
    cases x <;> rfl
  -- the view after each key, with the line it holds
  have p₁ : Pending (Journal.blank.append (ch 'a')) [ch 'a'] :=
    blank_pending.append (by decide) (by decide)
  have p₃ := p₁.recalled_iff.mpr (by decide)
  have p₄ : Pending (View.append (ch 'b') _) [ch 'a', ch 'b'] := p₃.append (by decide) (by decide)
  obtain ⟨s₁, hs₁, h₁⟩ := @runs_view _ _ _ _ [(ch 'a', 0), (ch '\n', 0)] hp₀
    ⟨⟨trivial, p₁.terminated⟩,
      ⟨⟨p₁.terminated, harmless_of_none (p₁.text.symm ▸ by decide)⟩, 0, rfl⟩, trivial⟩
  obtain ⟨s₂, hs₂, h₂⟩ := @runs_view _ _ _ _ [(0, I386.KBD_UP), (ch 'b', 0), (ch '\n', 0)] h₁
    ⟨⟨(by decide : (0 + 1 : Byte) ≠ 0), p₃.terminated⟩, ⟨trivial, p₄.terminated⟩,
      ⟨⟨p₄.terminated, harmless_of_none (p₄.text.symm ▸ by decide)⟩, 0, rfl⟩, trivial⟩
  refine ⟨s₀, s₁, s₂, hs₀, hs₁, hs₂, by rw [h₁]; rfl, fun H => ?_⟩
  have h1 : s₁.read I386.lowLayout (.shellhist 0 1) = 0 := by
    rw [h₁]
    exact (p₁.saved 1).trans (by decide)
  have h2 : s₂.read I386.lowLayout (.shellhist 0 1) = ch 'b' := by
    rw [h₂]
    exact (p₄.saved 1).trans (by decide)
  exact absurd (h2.symm.trans ((H 1).trans h1)) (by decide)

end Osdev2.Kernel
