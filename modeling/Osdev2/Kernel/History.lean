import Osdev2.Kernel.LineEdit

/-!
# The history rows

A submission saves `shellbuf` and `shellptr` in the row `histptr`, and the arrow
keys load a row back.

* `recall_iff`: the text saved is what `strtok` has left of the line, so Up gives
  a submitted line back exactly if no space follows a word in it.
* `history_indices_iff`: the row of the text is computed in `int`, that of the
  cursor in a byte. They agree except at the two ends of the history.
-/

namespace Osdev2.Kernel

open Osdev2.Lib Osdev2.Libk

/-! ## Submit and recall -/

section Recall

variable {P : Platform} {L : Layout P} {s : Machine P} {l : List Byte}

theorem Pending.saved {v : View} (h : Pending v l) (i : Byte) :
    v.saved i = (commandLine l).bytes.getD i.toNat 0 := by
  rw [View.saved, h.text]
  rcases Nat.lt_or_ge i.toNat l.length with hi | hi
  · rw [List.getD_eq_getElem _ _ (by rw [commandLine_length]; exact hi),
      List.getD_eq_getElem _ _ (by rw [commandLine_length]; exact hi)]
  · rw [h.tail_zero hi]

/-- The entry just recorded, loaded back. -/
theorem browse_record (v : View) (b : Byte → Byte) :
    (∀ i, (v.record b).step .up (.shellbuf i) = b i) ∧ (v.record b).step .up .shellptr = v .shellptr := by
  have hrow : v .histptr + 1#8 - 1#8 = v .histptr := BitVec.add_sub_cancel _ _
  simp [View.step, hrow]

theorem Pending.recalled_iff {v : View} (h : Pending v l) :
    Pending ((v.step .newline).step .up) l ↔ (commandLine l).bytes = l := by
  obtain ⟨hbuf, hptr⟩ := browse_record v v.saved
  have hlen := commandLine_length l
  constructor
  · intro hp
    refine List.ext_getElem hlen fun i hi hi' => ?_
    have hib : (BitVec.ofNat 8 i).toNat = i := by
      have := h.length_le
      rw [BitVec.toNat_ofNat]
      omega
    have hi2 := (hbuf _).symm.trans (hp.buf (BitVec.ofNat 8 i))
    rw [h.saved, hib, List.getD_eq_getElem _ _ hi, List.getD_eq_getElem _ _ hi'] at hi2
    exact hi2
  · intro heq
    refine ⟨(congrArg BitVec.toNat hptr).trans h.ptr, fun i => (hbuf i).trans ?_, h.noNul⟩
    rw [h.saved, heq]

theorem recall_iff_bytes (h : Pending (s.read L) l) (hh : s.read L .histptr ≠ 255#8)
    (hl : View.Harmless L l) {e : Event} (he : P.key e.1 e.2 = .up) (kstate : Byte) :
    (∃ s₁ s₂, onEvent L (ch '\n', kstate) s = some s₁ ∧ onEvent L e s₁ = some s₂ ∧
      Pending (s₂.read L) l) ↔ (commandLine l).bytes = l := by
  have hkey : P.key (ch '\n') kstate = .newline := if_pos rfl
  have hg : View.Guard L (P.key (ch '\n') kstate) (s.read L) := by
    rw [hkey]; exact ⟨h.terminated, h.text ▸ hl⟩
  obtain ⟨s₁, hs₁, h₁⟩ := kcallback_step hg (by rw [hkey]; exact ⟨0, rfl⟩)
  rw [hkey] at h₁
  have hg₁ : View.Guard L (P.key e.1 e.2) (s₁.read L) := by
    rw [he, h₁]
    intro h0
    have h0 : s.read L .histptr + 1#8 = 0#8 := h0
    exact hh (by rw [show (255#8 : Byte) = 0#8 - 1#8 by decide, ← h0, BitVec.add_sub_cancel])
  obtain ⟨s₂, hs₂, h₂⟩ := kcallback_step hg₁
    (by
      rw [he, h₁]
      refine ⟨s.read L .shellptr, ((browse_record _ _).1 _).trans ?_⟩
      rw [h.saved, List.getD_eq_default]
      rw [commandLine_length, h.ptr])
  rw [he, h₁] at h₂
  rw [← h.recalled_iff, ← h₂]
  constructor
  · rintro ⟨t₁, t₂, ht₁, ht₂, hp⟩
    obtain rfl : s₁ = t₁ := Option.some.inj (hs₁.symm.trans ht₁)
    obtain rfl : s₂ = t₂ := Option.some.inj (hs₂.symm.trans ht₂)
    exact hp
  · exact fun hp => ⟨s₁, s₂, hs₁, hs₂, hp⟩

/-- **Submit, then Up.** The line comes back exactly if no space follows a word in it. -/
theorem recall_iff (h : Pending (s.read L) l) (hh : s.read L .histptr ≠ 255#8)
    (hl : View.Harmless L l) {e : Event} (he : P.key e.1 e.2 = .up) (kstate : Byte) :
    (∃ s₁ s₂, onEvent L (ch '\n', kstate) s = some s₁ ∧ onEvent L e s₁ = some s₂ ∧
      Pending (s₂.read L) l) ↔ ¬Line.Broken [ch ' '] l :=
  (recall_iff_bytes h hh hl he kstate).trans (commandLine_bytes_iff l)

end Recall

theorem recall_iff_ls : ∃ s, runs (onEvent I386.lowLayout) ([ch 'l', ch 's'].map fun c => (c, 0))
      I386.cleared = some s ∧
    ((∃ s₁ s₂, onEvent I386.lowLayout (ch '\n', 0) s = some s₁ ∧
      onEvent I386.lowLayout (0, I386.KBD_UP) s₁ = some s₂ ∧
      Pending (s₂.read I386.lowLayout) [ch 'l', ch 's']) ↔
        ¬Line.Broken [ch ' '] [ch 'l', ch 's']) := by
  obtain ⟨s, hs, hp, hh⟩ := typed_pending cleared_pending
    (show ∀ c ∈ [ch 'l', ch 's'], c ≠ 0 ∧ c ≠ ch '\n' by decide) (by decide)
  exact ⟨s, hs, recall_iff hp (by rw [hh]; decide) (fun x h => by cases h) (by decide) 0⟩

/-- Of `a b`, Up brings back `a` and a NUL. -/
theorem recall_broken : ∃ s, runs (onEvent I386.lowLayout)
      ([ch 'a', ch ' ', ch 'b'].map fun c => (c, 0)) I386.cleared = some s ∧
    Pending (s.read I386.lowLayout) [ch 'a', ch ' ', ch 'b'] ∧ s.read I386.lowLayout .histptr = 0 ∧
    ¬∃ s₁ s₂, onEvent I386.lowLayout (ch '\n', 0) s = some s₁ ∧
      onEvent I386.lowLayout (0, I386.KBD_UP) s₁ = some s₂ ∧
      Pending (s₂.read I386.lowLayout) [ch 'a', ch ' ', ch 'b'] := by
  obtain ⟨s, hs, hp, hh⟩ := typed_pending cleared_pending
    (show ∀ c ∈ [ch 'a', ch ' ', ch 'b'], c ≠ 0 ∧ c ≠ ch '\n' by decide) (by decide)
  refine ⟨s, hs, hp, hh, fun H => ?_⟩
  have hbytes := (recall_iff_bytes hp (by rw [hh]; decide) (fun x h => by cases h) (by decide) 0).mp H
  exact absurd hbytes (by decide)

/-! ## The indices -/

section Indices

variable {P : Platform} {L : Layout P} {s s' : Machine P}

/-- The accesses to the history arrays between two machines. -/
def newAccesses (s s' : Machine P) : List Access := s'.trace.drop s.trace.length

/-- The accesses of one event stay in the arrays, and in one slot. -/
structure OneSlot (s s' : Machine P) : Prop where
  inRange : ∀ a ∈ newAccesses s s', 0 ≤ a.row ∧ a.row ≤ 255
  same : ∀ a ∈ newAccesses s s', ∀ b ∈ newAccesses s s', a.row = b.row

/-- No Up from the first row, and no Down from the last. -/
def InHistory (L : Layout P) (e : Event) (s : Machine P) : Prop :=
  ¬(P.key e.1 e.2 = .up ∧ s.read L .histptr = 0#8) ∧
    ¬(P.key e.1 e.2 = .down ∧ s.read L .histptr = 255#8)

theorem newAccesses_append {t : List Access} (h : s'.trace = s.trace ++ t) : newAccesses s s' = t := by
  rw [newAccesses, h, List.drop_left]

theorem strtok_trace {p tok : Nat} (h : s.strtok p = some (tok, s')) : s'.trace = s.trace := by
  obtain ⟨t, -, ht⟩ := Option.map_eq_some_iff.mp h
  obtain ⟨-, rfl⟩ := Prod.mk.inj ht
  rfl

theorem printf_trace {format : List Char} {args : List Nat} (h : s.printf format args = some s') :
    s'.trace = s.trace := by
  obtain ⟨t, -, rfl⟩ := Option.map_eq_some_iff.mp h
  rfl

theorem cmd_peek_trace (h : cmd_peek s = some s') : s'.trace = s.trace := by
  obtain ⟨⟨arg, s1⟩, h1, h⟩ := Option.bind_eq_some_iff.mp h
  simp only at h
  split at h
  · exact (printf_trace h).trans (strtok_trace h1)
  · obtain ⟨n, -, h⟩ := Option.bind_eq_some_iff.mp h
    exact (printf_trace h).trans (strtok_trace h1)

theorem cmd_poke_trace (h : cmd_poke s = some s') : s'.trace = s.trace := by
  obtain ⟨⟨arg, s1⟩, h1, h⟩ := Option.bind_eq_some_iff.mp h
  simp only at h
  split at h
  · exact (printf_trace h).trans (strtok_trace h1)
  · obtain ⟨n, -, h⟩ := Option.bind_eq_some_iff.mp h
    obtain ⟨⟨val, s2⟩, h2, h⟩ := Option.bind_eq_some_iff.mp h
    simp only at h
    split at h
    · exact (printf_trace h).trans ((strtok_trace h2).trans (strtok_trace h1))
    · obtain ⟨v, -, h⟩ := Option.bind_eq_some_iff.mp h
      obtain ⟨s3, h3, h⟩ := Option.bind_eq_some_iff.mp h
      cases h
      exact (printf_trace h3).trans ((strtok_trace h2).trans (strtok_trace h1))

theorem shell_command_trace (h : shell_command L s = some s') : s'.trace = s.trace := by
  obtain ⟨⟨word, s1⟩, h1, h⟩ := Option.bind_eq_some_iff.mp h
  obtain ⟨cmd, -, h⟩ := Option.bind_eq_some_iff.mp h
  split at h
  · exact (cmd_peek_trace h).trans (strtok_trace h1)
  · split at h
    · exact (cmd_poke_trace h).trans (strtok_trace h1)
    · exact (printf_trace h).trans (strtok_trace h1)

theorem shell_record_trace (s : Machine P) : (shell_record L s).trace = s.trace ++
    [⟨.shellhist, (s.read L .histptr).toNat⟩, ⟨.shellptr_hist, (s.read L .histptr).toNat⟩] := by
  have hrow : (s.saveRow L (s.read L .histptr).toNat).read L .histptr = s.read L .histptr := by
    rw [Machine.read_saveRow]
    rfl
  have htrace : (shell_record L s).trace = (s.saveRow L (s.read L .histptr).toNat).trace ++
      [⟨.shellptr_hist, ((s.saveRow L (s.read L .histptr).toNat).read L .histptr).toNat⟩] := rfl
  rw [htrace, hrow]
  exact List.append_assoc s.trace [_] [_]

theorem shell_proc_trace (h : shell_proc L s = some s') : ∃ row : Byte, s'.trace = s.trace ++
    [⟨.shellhist, row.toNat⟩, ⟨.shellptr_hist, row.toNat⟩] := by
  obtain ⟨s1, h1, h⟩ := Option.bind_eq_some_iff.mp h
  obtain ⟨s2, h2, h⟩ := Option.bind_eq_some_iff.mp h
  cases h
  refine ⟨s2.read L .histptr, (shell_record_trace s2).trans ?_⟩
  rw [printf_trace h2, shell_command_trace h1]

/-- The accesses of each key. -/
theorem onEvent_accesses {e : Event} (h : onEvent L e s = some s') :
    match P.key e.1 e.2 with
    | .up => newAccesses s s' = [⟨.shellhist, (s.read L .histptr).toNat - 1⟩,
        ⟨.shellptr_hist, (s.read L .histptr - 1#8).toNat⟩]
    | .down => newAccesses s s' = [⟨.shellhist, (s.read L .histptr).toNat + 1⟩,
        ⟨.shellptr_hist, (s.read L .histptr + 1#8).toNat⟩]
    | .newline => ∃ row : Byte, newAccesses s s' =
        [⟨.shellhist, row.toNat⟩, ⟨.shellptr_hist, row.toNat⟩]
    | .bcksp | .char _ => newAccesses s s' = [] := by
  have hkeep : ∀ row, (s.loadRow L row).read L .histptr = s.read L .histptr := fun row =>
    Machine.read_loadRow_other _ _ (by rintro i ⟨⟩)
  rw [onEvent, kcallback_eq] at h
  cases hkey : P.key e.1 e.2 <;> rw [hkey] at h
  case newline =>
    obtain ⟨s1, h1, h⟩ := Option.bind_eq_some_iff.mp h
    obtain ⟨row, hrow⟩ := shell_proc_trace h1
    exact ⟨row, newAccesses_append ((Machine.putsLit_quiet h).trace.trans hrow)⟩
  case bcksp =>
    obtain ⟨s1, h1, h⟩ := Option.bind_eq_some_iff.mp h
    obtain ⟨s1', h1', -, htrace⟩ := kbd_bcksp_returns L s
    obtain rfl : s1 = s1' := Option.some.inj (h1.symm.trans h1')
    exact newAccesses_append (((Machine.puts_quiet h).trace.trans htrace).trans
      (List.append_nil _).symm)
  case char c =>
    exact newAccesses_append ((Machine.puts_quiet h).trace.trans (List.append_nil _).symm)
  case up =>
    refine newAccesses_append ((Machine.puts_quiet h).trace.trans ?_)
    simp only [kbd_up, hkeep, Machine.read_write, Function.update_self]
    exact List.append_assoc s.trace [_] [_]
  case down =>
    refine newAccesses_append ((Machine.puts_quiet h).trace.trans ?_)
    simp only [kbd_down, hkeep, Machine.read_write, Function.update_self]
    exact List.append_assoc s.trace [_] [_]

theorem oneSlot_pair {a b : Access} (h : newAccesses s s' = [a, b]) :
    OneSlot s s' ↔ (0 ≤ a.row ∧ a.row ≤ 255) ∧ a.row = b.row := by
  constructor
  · rintro ⟨h1, h2⟩
    rw [h] at h1 h2
    exact ⟨h1 a (by simp), h2 a (by simp) b (by simp)⟩
  · rintro ⟨h1, h2⟩
    refine ⟨fun c hc => ?_, fun c hc d hd => ?_⟩
    · rw [h] at hc
      rcases List.mem_pair.mp hc with rfl | rfl
      · exact h1
      · exact h2 ▸ h1
    · rw [h] at hc hd
      rcases List.mem_pair.mp hc with rfl | rfl <;> rcases List.mem_pair.mp hd with rfl | rfl <;>
        first | rfl | exact h2 | exact h2.symm

theorem oneSlot_step {e : Event} (h : onEvent L e s = some s') :
    OneSlot s s' ↔ InHistory L e s := by
  have hacc := onEvent_accesses h
  unfold InHistory
  have hzero : s.read L .histptr = 0#8 ↔ (s.read L .histptr).toNat = 0 :=
    ⟨fun h => by rw [h]; rfl, fun h => BitVec.eq_of_toNat_eq h⟩
  have hlast : s.read L .histptr = 255#8 ↔ (s.read L .histptr).toNat = 255 :=
    ⟨fun h => by rw [h]; rfl, fun h => BitVec.eq_of_toNat_eq h⟩
  have hlt := (s.read L .histptr).isLt
  cases hkey : P.key e.1 e.2 <;> rw [hkey] at hacc
  case newline =>
    obtain ⟨row, hrow⟩ := hacc
    have := row.isLt
    simp only [oneSlot_pair hrow, reduceCtorEq, false_and, not_false_eq_true, and_true, iff_true]
    omega
  case up =>
    rw [oneSlot_pair hacc, BitVec.toNat_sub, BitVec.toNat_ofNat, hzero]
    simp only [true_and, reduceCtorEq, false_and, not_false_eq_true, and_true]
    omega
  case down =>
    rw [oneSlot_pair hacc, BitVec.toNat_add, BitVec.toNat_ofNat, hlast]
    simp only [true_and, reduceCtorEq, false_and, not_false_eq_true]
    omega
  all_goals
    simp only [reduceCtorEq, false_and, not_false_eq_true, and_true, iff_true]
    exact ⟨by rw [hacc]; simp, by rw [hacc]; simp⟩

/-- **History indices.** In every run of events, each event that returns keeps to one
slot of the history, inside both arrays, exactly if no Up is pressed with `histptr` 0
and no Down with `histptr` 255. -/
theorem history_indices_iff (L : Layout P) (es : List Event) (s : Machine P) :
    EveryStep (onEvent L) (fun _ t t' => OneSlot t t') es s ↔
      EveryStep (onEvent L) (fun e t _ => InHistory L e t) es s := by
  have hstep : ∀ e t t', onEvent L e t = some t' → (OneSlot t t' ↔ InHistory L e t) :=
    fun _ _ _ h => oneSlot_step h
  exact everyStep_iff hstep es s

theorem kbd_up_mem {a : Nat} (hw : ¬P.window a) (ha : ∀ x, a ≠ L.addr x) :
    (kbd_up L s).mem a = s.mem a := by
  have hbuf : ¬(L.shellbuf ≤ a ∧ a < L.shellbuf + 256) := by
    rintro ⟨h1, h2⟩
    refine ha (.shellbuf (BitVec.ofNat 8 (a - L.shellbuf))) ?_
    rw [Addresses.addr, BitVec.toNat_ofNat]
    omega
  refine ((Machine.setpos_x_quiet _ _).mem a hw).trans ?_
  refine (Function.update_of_ne (ha _) _ _).trans ((Function.update_of_ne (ha _) _ _).trans ?_)
  exact memcpy_outside _ hbuf

end Indices

/-- Up as the first key reads the row before the history. -/
theorem history_row_before :
    ¬EveryStep (onEvent I386.lowLayout) (fun _ t t' => OneSlot t t') [(0, I386.KBD_UP)]
      I386.cleared := by
  intro H
  have hw : ¬(I386.i386 I386.lowDrivers).window 0 := by
    simp [I386.i386, I386.window, I386.VGA_MEM]
  have ha : ∀ x, 0 ≠ I386.lowLayout.addr x := by
    intro x
    cases x <;> simp only [Addresses.addr, I386.lowLayout, I386.lowAddresses] <;> omega
  obtain ⟨s', hs', -⟩ := Machine.puts_returns (s := kbd_up I386.lowLayout I386.cleared)
    (Nat.two_pow_pos _) hw (kbd_up_mem hw ha) I386.lowLayout.shellbuf
  have hstep : onEvent I386.lowLayout (0, I386.KBD_UP) I386.cleared = some s' := by
    rw [onEvent, kcallback_eq]
    exact hs'
  have hin := (oneSlot_step hstep).mp (H [] (0, I386.KBD_UP) _ s' (List.prefix_refl _) rfl hstep)
  exact hin.1 ⟨by decide, rfl⟩

end Osdev2.Kernel
