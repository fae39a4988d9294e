import Osdev2.I386.Keyboard

/-!
# The screen and the line (`kernel/shell.c` over `vga.c`)

`Shows`: the row of the cursor is the prompt, the text of `shellbuf` and then
blank cells, and the hardware cursor is on the cell after the text. Every event
prints the text again from column 1; what the row holds behind it stays. Only
Backspace clears the row first, and `clrline` clears 80 bytes, which are 40
cells. `screen_agrees_iff`: the row stays right exactly if no Up or Down recalls
a text shorter than the one shown, and no Backspace shortens a text of 40
characters or more.
-/

namespace Osdev2.I386

open Osdev2.Lib Osdev2.Libk Osdev2.Kernel

/-! ## Printing in a row -/

section Row

variable {v w : Vga} {c : Byte} {l : List Byte}

def Printable (c : Byte) : Prop := ch ' ' ≤ c ∧ c ≤ ch '~'

instance : DecidablePred Printable := fun _ => inferInstanceAs (Decidable (_ ∧ _))

/-- A cell of the cursor's row. -/
def rowCell (v : Vga) (x : Nat) : BitVec 16 := cell v.mem (v.ty.toNat * WIDTH + x)

/-- The row is `text` and blank cells after it, and the hardware cursor is on the first of them. -/
structure Displays (v : Vga) (text : List Byte) : Prop where
  row : ∀ x, x < WIDTH →
    rowCell v x = if x < text.length then vga_entry 0x07#8 (text.getD x 0) else 0
  cursor : v.crtc = BitVec.ofNat 16 (v.ty.toNat * WIDTH + text.length)

/-- `l` has been printed at the cursor, within the row. -/
structure Printed (l : List Byte) (v w : Vga) : Prop where
  ty : w.ty = v.ty
  tx : w.tx.toNat = v.tx.toNat + l.length
  row : ∀ x, rowCell w x = if v.tx.toNat ≤ x ∧ x < v.tx.toNat + l.length then
    vga_entry 0x07#8 (l.getD (x - v.tx.toNat) 0) else rowCell v x
  cursor : w.crtc = if l = [] then v.crtc else
    BitVec.ofNat 16 (v.ty.toNat * WIDTH + (v.tx.toNat + l.length))

theorem vga_entry_ne_zero (c : Byte) : vga_entry 0x07#8 c ≠ 0 := by
  have hall : ∀ c, vga_entry 0x07#8 c ≠ 0 := by decide +kernel
  exact hall c

theorem Printable.ne (h : Printable c) : c ≠ 0 ∧ c ≠ ch '\n' ∧ c ≠ ch '\r' := by
  have hall : ∀ c, Printable c → c ≠ 0 ∧ c ≠ ch '\n' ∧ c ≠ ch '\r' := by decide +kernel
  exact hall c h

theorem Printed.nil (v : Vga) : Printed [] v v :=
  ⟨rfl, rfl, fun x => (if_neg (by simp)).symm, (if_pos rfl).symm⟩

theorem Printed.append {u : Vga} {l' : List Byte} (h : Printed l u v) (h' : Printed l' v w) :
    Printed (l ++ l') u w := by
  refine ⟨h'.ty.trans h.ty, ?_, fun x => ?_, ?_⟩
  · rw [h'.tx, h.tx, List.length_append, Nat.add_assoc]
  · rw [h'.row, h.row, h.tx, List.length_append]
    by_cases h2 : u.tx.toNat + l.length ≤ x ∧ x < u.tx.toNat + l.length + l'.length
    · rw [if_pos h2, if_pos (by omega), List.getD_append_right _ _ _ _ (by omega), Nat.sub_sub]
    · rw [if_neg h2]
      by_cases h1 : u.tx.toNat ≤ x ∧ x < u.tx.toNat + l.length
      · rw [if_pos h1, if_pos (by omega), List.getD_append _ _ _ _ (by omega)]
      · rw [if_neg h1, if_neg (by omega)]
  · rw [h'.cursor, h.cursor, h.tx, h.ty, List.length_append, Nat.add_assoc]
    by_cases hl' : l' = []
    · subst hl'
      rw [if_pos rfl, List.append_nil]
      rfl
    · rw [if_neg hl', if_neg (by simp [hl'])]

/-- `putc` of a printable character before the right edge. -/
theorem putc_printed (hc : Printable c) (hx : v.tx.toNat < WIDTH) : Printed [c] v (putc c v) := by
  obtain ⟨h0, hn, hr⟩ := hc.ne
  have hty := v.ty.isLt
  have htx : (v.tx + 1#8).toNat = v.tx.toNat + 1 := by
    rw [BitVec.toNat_add, BitVec.toNat_ofNat]
    simp only [WIDTH] at hx
    omega
  have hoff : (v.ty.toNat * WIDTH + v.tx.toNat) % 2 ^ 16 = v.ty.toNat * WIDTH + v.tx.toNat := by
    apply Nat.mod_eq_of_lt
    simp only [WIDTH] at hx ⊢
    omega
  unfold putc
  rw [if_neg h0, if_neg (Nat.not_le_of_lt hx), if_neg (by simp only [hn, hr, or_self, not_false_eq_true])]
  refine ⟨rfl, htx, fun x => ?_, ?_⟩
  · simp only [rowCell, cursor, cell_setCell, hoff, List.length_singleton]
    by_cases h : x = v.tx.toNat
    · rw [if_pos (congrArg _ h), if_pos (by omega), h, Nat.sub_self]
      rfl
    · rw [if_neg (by omega), if_neg (by omega)]
  · simp only [cursor, htx]
    rfl

theorem printed {l : List Byte} (hl : ∀ c ∈ l, Printable c) {v : Vga}
    (hx : v.tx.toNat + l.length ≤ WIDTH) : Printed l v (l.foldl (fun v c => putc c v) v) := by
  induction l generalizing v with
  | nil => exact Printed.nil v
  | cons c l ih =>
    rw [List.length_cons] at hx
    have hc := putc_printed (v := v) (hl c List.mem_cons_self) (by omega)
    refine hc.append (l := [c]) (ih (fun d hd => hl d (List.mem_cons_of_mem c hd)) ?_)
    rw [hc.tx, List.length_singleton]
    omega

/-- Before the text is printed: the position is column 1, and the row beyond it is blank up to column
`keep` and as it was from there. -/
structure Ready (keep : Nat) (v w : Vga) : Prop where
  ty : w.ty = v.ty
  tx : w.tx = 1#8
  prompt : rowCell w 0 = rowCell v 0
  blank : ∀ x, 1 ≤ x → x < keep → rowCell w x = 0
  kept : ∀ x, 1 ≤ x → keep ≤ x → x < WIDTH → rowCell w x = rowCell v x
  cursor : w.crtc = BitVec.ofNat 16 (v.ty.toNat * WIDTH + 1) ∨ keep = 1 ∧ w.crtc = v.crtc

/-- Printing `new` over `old` is right exactly if nothing of `old` is left behind it. -/
theorem reprint_iff {keep : Nat} {p : Byte} {old new : List Byte} (hold : Displays v (p :: old))
    (hfit : 1 + old.length < WIDTH) (h : Ready keep v w) (hkeep : 1 ≤ keep)
    (hnew : ∀ c ∈ new, Printable c) (hlen : 1 + new.length < WIDTH) :
    Displays (new.foldl (fun v c => putc c v) w) (p :: new) ↔
      old.length < keep ∨ old.length ≤ new.length := by
  have htx : w.tx.toNat = 1 := by
    rw [h.tx]
    rfl
  have hp := printed hnew (v := w) (by omega)
  generalize new.foldl (fun v c => putc c v) w = u at hp ⊢
  -- the cells of the row afterwards
  have hrow : ∀ x, x < WIDTH → rowCell u x =
      if x < 1 + new.length then vga_entry 0x07#8 ((p :: new).getD x 0)
      else if x < keep then 0
      else if x < 1 + old.length then vga_entry 0x07#8 ((p :: old).getD x 0) else 0 := fun x hx => by
    rw [hp.row, htx]
    have holdx := hold.row x hx
    rw [List.length_cons] at holdx
    rcases Nat.eq_zero_or_pos x with rfl | hpos
    · rw [if_neg (by omega), if_pos (by omega), h.prompt, holdx, if_pos (by omega)]
      rfl
    · by_cases hin : x < 1 + new.length
      · rw [if_pos ⟨hpos, hin⟩, if_pos hin, show x = x - 1 + 1 by omega, List.getD_cons_succ,
          Nat.add_sub_cancel]
      · rw [if_neg (by omega), if_neg hin]
        by_cases hk : x < keep
        · rw [if_pos hk, h.blank x hpos hk]
        · rw [if_neg hk, h.kept x hpos (Nat.le_of_not_lt hk) hx, holdx, Nat.add_comm 1]
  constructor
  · intro hd
    by_contra hneg
    rw [not_or, Nat.not_lt, Nat.not_le] at hneg
    -- the last character of `old` is still there
    have hstale := hrow old.length (by omega)
    rw [if_neg (by omega), if_neg (by omega), if_pos (by omega), hd.row _ (by omega),
      List.length_cons, if_neg (by omega)] at hstale
    exact vga_entry_ne_zero _ hstale.symm
  · intro hclean
    refine ⟨fun x hx => ?_, ?_⟩
    · rw [hrow x hx, List.length_cons, Nat.add_comm 1]
      by_cases hin : x < new.length + 1
      · rw [if_pos hin, if_pos hin]
      · rw [if_neg hin, if_neg hin]
        by_cases hk : x < keep
        · rw [if_pos hk]
        · rw [if_neg hk, if_neg (by omega)]
    · rw [hp.cursor, hp.ty, h.ty, htx, List.length_cons, Nat.add_comm 1]
      split
      · rename_i hnil
        subst hnil
        rcases h.cursor with hcur | ⟨rfl, hcur⟩
        · exact hcur
        · -- nothing printed over nothing shown
          rw [hcur, hold.cursor, List.length_cons]
          have : old.length = 0 := by
            rw [List.length_nil] at hclean
            omega
          rw [this]
          rfl
      · rfl

end Row

/-! ## The console under the editor -/

section Console

variable {A : DriverAddresses} {L : Layout (i386 A)} {s s' : Machine (i386 A)} {c : Byte}

/-- The console of the machine. -/
def screenOf (s : Machine (i386 A)) : Vga := vgaOf (s.mem, drivers s)

/-- The prompt and the text of `shellbuf` are what the cursor's row displays. -/
def Shows (L : Layout (i386 A)) (s : Machine (i386 A)) : Prop :=
  Displays (screenOf s) (ch '>' :: (s.read L).text)

/-- The text fits beside the prompt in 79 columns. -/
structure Fits (v : View) : Prop where
  terminated : v.Terminated
  length : 1 + v.text.length ≤ 79

/-- What the shell holds has been typed. -/
structure Typed (v : View) : Prop where
  shellbuf : ∀ i, v (.shellbuf i) = 0 ∨ Printable (v (.shellbuf i))
  shellhist : ∀ row i, v (.shellhist row i) = 0 ∨ Printable (v (.shellhist row i))

/-- The console is the same, only other memory has changed. -/
structure SameScreen (s s' : Machine (i386 A)) : Prop where
  mem : ∀ a, window a → s'.mem a = s.mem a
  dev : drivers s' = drivers s

theorem SameScreen.trans {s'' : Machine (i386 A)} (h : SameScreen s s') (h' : SameScreen s' s'') :
    SameScreen s s'' :=
  ⟨fun a ha => (h'.mem a ha).trans (h.mem a ha), h'.dev.trans h.dev⟩

theorem sameScreen_write (x : Static) (b : Byte) : SameScreen s (s.write L x b) :=
  ⟨fun a ha => Function.update_of_ne (fun he : a = L.addr x =>
    L.outside x (he ▸ ha : window (L.addr x))) _ _, rfl⟩

theorem sameScreen_loadCursor (row : Byte) : SameScreen s (s.loadCursor L row) :=
  ⟨(sameScreen_write (L := L) (s := s) .shellptr (s.read L (.shellptr_hist row))).mem, rfl⟩

theorem sameScreen_loadRow (row : Int) : SameScreen s (s.loadRow L row) := by
  refine ⟨fun a ha => memcpy_outside _ fun hin => ?_, rfl⟩
  have haddr : L.addr (.shellbuf (BitVec.ofNat 8 (a - L.shellbuf))) = a := by
    rw [Addresses.addr, BitVec.toNat_ofNat]
    omega
  exact L.outside _ (haddr ▸ ha)

theorem SameScreen.rowCell (h : SameScreen s s') {x : Nat} (hx : x < WIDTH) :
    rowCell (screenOf s') x = rowCell (screenOf s) x := by
  have hty : (screenOf s').ty = (screenOf s).ty := congrArg Drivers.ty h.dev
  have hlt := (screenOf s).ty.isLt
  have hin : ∀ b, b ≤ 1 →
      window (VGA_MEM + 2 * ((screenOf s).ty.toNat * WIDTH + x) + b) := fun b hb => by
    unfold window
    simp only [WIDTH] at hx ⊢
    omega
  unfold I386.rowCell cell
  rw [hty]
  exact congrArg₂ _ (h.mem _ (hin 1 (Nat.le_refl 1))) (h.mem _ (hin 0 (Nat.zero_le 1)))

theorem SameScreen.ready (h : SameScreen s s') :
    Ready 1 (screenOf s) (screenOf (s'.setpos_x PROMPT_LEN)) where
  ty := (congrArg Drivers.ty h.dev : (drivers s').ty = (drivers s).ty)
  tx := rfl
  prompt := h.rowCell (by decide)
  blank x h1 h2 := absurd h1 (Nat.not_le_of_lt h2)
  kept x _ _ hx := h.rowCell hx
  cursor := Or.inr ⟨rfl, (congrArg Drivers.crtc h.dev : (drivers s').crtc = (drivers s).crtc)⟩

theorem ready_char (c : Byte) : Ready 1 (screenOf s) (screenOf (kbd_char L c s)) :=
  SameScreen.ready ((sameScreen_write _ _).trans (sameScreen_write _ _))

theorem ready_up : Ready 1 (screenOf s) (screenOf (kbd_up L s)) :=
  SameScreen.ready (((sameScreen_loadRow _).trans (sameScreen_write _ _)).trans
    (sameScreen_loadCursor _))

theorem ready_down : Ready 1 (screenOf s) (screenOf (kbd_down L s)) :=
  SameScreen.ready (((sameScreen_loadRow _).trans (sameScreen_write _ _)).trans
    (sameScreen_loadCursor _))

theorem screenOf_print (l : List Byte) (s : Machine (i386 A)) :
    screenOf (s.console fun t => l.foldl (fun t c => (i386 A).putc c t) t) =
      l.foldl (fun v c => putc c v) (screenOf s) := by
  have hall : ∀ t : Mem × Drivers, vgaOf (l.foldl (fun t c => (i386 A).putc c t) t) =
      l.foldl (fun v c => putc c v) (vgaOf t) := by
    induction l with
    | nil => exact fun _ => rfl
    | cons c l ih => exact fun t => ih _
  exact hall (s.mem, drivers s)

/-- `clrline`, then the prompt: 40 cells are blank, 80 bytes. -/
theorem ready_clrline (h : SameScreen s s') (hs : rowCell (screenOf s) 0 = vga_entry 0x07#8 (ch '>')) :
    ∃ t, ((s'.clrline).setpos_x 0).putsLit ['>'] = some t ∧ Ready 40 (screenOf s) (screenOf t) := by
  refine ⟨_, Machine.putsLit_eq (by decide) (by decide) _, ?_⟩
  rw [screenOf_print]
  have hp := printed (l := ['>'].map ch) (by decide)
    (v := screenOf ((s'.clrline).setpos_x 0)) (show 0 + 1 ≤ WIDTH by decide)
  generalize (['>'].map ch).foldl (fun v c => putc c v) (screenOf ((s'.clrline).setpos_x 0)) = w at hp
  have hty : (screenOf s').ty = (screenOf s).ty := congrArg Drivers.ty h.dev
  have hclear : ∀ x, rowCell (screenOf ((s'.clrline).setpos_x 0)) x =
      if x < 40 then 0 else rowCell (screenOf s') x := fun x => by
    have hmem : (screenOf ((s'.clrline).setpos_x 0)).mem =
      memset (VGA_MEM + 2 * ((screenOf s').ty.toNat * WIDTH)) 0 (screenOf s').mem WIDTH := rfl
    have hty' : (screenOf ((s'.clrline).setpos_x 0)).ty = (screenOf s').ty := rfl
    have hbyte : ∀ y b, b ≤ 1 → memset (VGA_MEM + 2 * (y * WIDTH)) 0 (screenOf s').mem WIDTH
        (VGA_MEM + 2 * (y * WIDTH + x) + b) =
          if x < 40 then 0 else (screenOf s').mem (VGA_MEM + 2 * (y * WIDTH + x) + b) := fun y b hb => by
      rw [memset_apply, show WIDTH = 80 from rfl]
      by_cases hx : x < 40
      · rw [if_pos hx, if_pos (by omega)]
      · rw [if_neg hx, if_neg (by omega)]
    have h0 := hbyte (screenOf s').ty.toNat 0 (Nat.zero_le 1)
    have h1 := hbyte (screenOf s').ty.toNat 1 (Nat.le_refl 1)
    rw [Nat.add_zero] at h0
    unfold I386.rowCell cell
    rw [hmem, hty', h0, h1]
    split <;> rfl
  have htx : (screenOf ((s'.clrline).setpos_x 0)).tx.toNat = 0 := rfl
  have hrow : ∀ x, rowCell w x = if x = 0 then vga_entry 0x07#8 (ch '>') else
      if x < 40 then 0 else rowCell (screenOf s') x := fun x => by
    rw [hp.row, hclear, htx, List.length_map, List.length_singleton]
    by_cases hx : x = 0
    · rw [if_pos (by omega), if_pos hx, hx]
      rfl
    · rw [if_neg (by omega), if_neg hx]
  refine ⟨hp.ty.trans hty, BitVec.eq_of_toNat_eq ?_, ?_, fun x h1 h2 => ?_, fun x h1 h2 hx => ?_,
    Or.inl ?_⟩
  · rw [hp.tx, htx]
    rfl
  · rw [hrow, if_pos rfl, hs]
  · rw [hrow, if_neg (by omega), if_pos h2]
  · rw [hrow, if_neg (by omega), if_neg (by omega), h.rowCell hx]
  · rw [hp.cursor, if_neg (by decide), htx, ← hty]
    rfl

theorem ready_bcksp (hs : rowCell (screenOf s) 0 = vga_entry 0x07#8 (ch '>')) :
    ∃ t, kbd_bcksp L s = some t ∧ t.read L = (s.read L).backspace ∧
      Ready 40 (screenOf s) (screenOf t) := by
  have hptr : SameScreen s (if 0 < (s.read L .shellptr).toNat then
      s.write L .shellptr (s.read L .shellptr - 1#8) else s) := by
    split
    · exact sameScreen_write _ _
    · exact ⟨fun _ _ => rfl, rfl⟩
  obtain ⟨t, ht, hready⟩ := ready_clrline (hptr.trans (sameScreen_write (L := L) _ 0)) hs
  obtain ⟨t', ht', hread, -⟩ := kbd_bcksp_returns L s
  obtain rfl : t' = t := Option.some.inj (ht'.symm.trans ht)
  exact ⟨t', ht', hread, hready⟩

/-- The text is printed again. -/
theorem reprint_shows {keep : Nat} (hs : Shows L s) (hf : Fits (s.read L))
    (hr : Ready keep (screenOf s) (screenOf s')) (hk : 1 ≤ keep) (hf' : Fits (s'.read L))
    (ht : ∀ c ∈ (s'.read L).text, Printable c) :
    ∃ t, s'.puts L.shellbuf = some t ∧ t.read L = s'.read L ∧
      (Shows L t ↔ (s.read L).text.length < keep ∨
        (s.read L).text.length ≤ (s'.read L).text.length) := by
  have hputs := puts_shellbuf_eq hf'.terminated
  have hread := (Machine.puts_quiet hputs).read (L := L)
  refine ⟨_, hputs, hread, ?_⟩
  unfold Shows
  rw [hread, screenOf_print]
  have h1 := hf.length
  have h2 := hf'.length
  exact reprint_iff hs (by simp only [WIDTH]; omega) hr hk ht (by simp only [WIDTH]; omega)

end Console

/-! ## One event -/

section Events

variable {A : DriverAddresses} {L : Layout (i386 A)} {s : Machine (i386 A)} {v : View} {e : Event}

/-- The text of an entry of the history. -/
def rowText (row : Byte) (v : View) : List Byte := (v.browse row).text

/-- A printable character, a Backspace, an Up or Down inside the history; and the line that it
leaves fits. -/
def InLine (L : Layout (i386 A)) (e : Event) (s : Machine (i386 A)) : Prop :=
  (match (i386 A).key e.1 e.2 with
  | .char c => Printable c
  | .bcksp => True
  | .up => s.read L .histptr ≠ 0
  | .down => s.read L .histptr ≠ 255
  | .newline => False) ∧ Fits ((s.read L).step ((i386 A).key e.1 e.2))

/-- Nothing of the text shown is left behind the next one: the recalled text is as long, the
Backspace finds no text beyond the 40 cells it clears, or shortens none. -/
def Clean (L : Layout (i386 A)) (e : Event) (s : Machine (i386 A)) : Prop :=
  let v := s.read L
  match (i386 A).key e.1 e.2 with
  | .bcksp => v.text.length < 40 ∨ v.text.length < (v .shellptr).toNat
  | .up => v.text.length ≤ (rowText (v .histptr - 1#8) v).length
  | .down => v.text.length ≤ (rowText (v .histptr + 1#8) v).length
  | .char _ | .newline => True

theorem Typed.text (h : Typed v) (ht : v.Terminated) : ∀ c ∈ v.text, Printable c := by
  obtain ⟨htext, -⟩ := View.isText_text ht
  intro c hc
  obtain ⟨i, hi, rfl⟩ := List.getElem_of_mem hc
  rw [← htext.reads_lt hi]
  exact (h.shellbuf (BitVec.ofNat 8 i)).resolve_left (htext.ne_zero hi)

theorem Typed.append (h : Typed v) {c : Byte} (hc : Printable c) : Typed (v.append c) := by
  refine ⟨fun i => ?_, fun row i => ?_⟩
  · simp only [View.append, Function.update_apply, Static.shellbuf.injEq, reduceCtorEq, if_false]
    split
    · exact Or.inr hc
    · exact h.shellbuf i
  · simp only [View.append, Function.update_apply, reduceCtorEq, if_false]
    exact h.shellhist row i

theorem Typed.backspace (h : Typed v) : Typed v.backspace := by
  obtain ⟨p, hp⟩ : ∃ p, v.backspace =
    Function.update (Function.update v .shellptr p) (.shellbuf p) 0 := ⟨_, rfl⟩
  rw [hp]
  refine ⟨fun i => ?_, fun row i => ?_⟩
  · simp only [Function.update_apply, Static.shellbuf.injEq, reduceCtorEq, if_false]
    split
    · exact Or.inl rfl
    · exact h.shellbuf i
  · simp only [Function.update_apply, reduceCtorEq, if_false]
    exact h.shellhist row i

theorem Typed.browse (h : Typed v) (row : Byte) : Typed (v.browse row) := by
  refine ⟨fun i => ?_, fun r i => ?_⟩
  · rw [View.browse_shellbuf]
    exact h.shellhist row i
  · rw [View.browse_shellhist]
    exact h.shellhist r i

theorem Typed.newline (h : Typed v) (ht : v.Terminated) : Typed (v.step .newline) := by
  refine ⟨fun _ => Or.inl rfl, fun row i => ?_⟩
  rw [View.step, View.record_shellhist]
  split
  · unfold View.saved
    rcases Nat.lt_or_ge i.toNat (commandLine v.text).bytes.length with hi | hi
    · rw [List.getD_eq_getElem _ _ hi]
      exact (mem_commandLine (List.getElem_mem hi)).imp_right (h.text ht _)
    · rw [List.getD_eq_default _ _ hi]
      exact h.shellbuf i
  · exact h.shellhist row i

theorem Typed.step (h : Typed v) (ht : v.Terminated) {key : Key}
    (hc : ∀ c, key = .char c → Printable c) : Typed (v.step key) := by
  cases key with
  | newline => exact h.newline ht
  | bcksp => exact h.backspace
  | up => exact h.browse _
  | down => exact h.browse _
  | char c => exact h.append (hc c rfl)

/-- A character never shortens the text. -/
theorem length_append {c : Byte} (hc : c ≠ 0) (ht : v.Terminated) (ht' : (v.append c).Terminated) :
    v.text.length ≤ (v.append c).text.length := by
  refine View.le_length_text ht' fun i hi => ?_
  have hne := (View.isText_text ht).1.ne_zero hi
  unfold View.str View.append
  rw [Function.update_apply]
  split
  · exact hc
  · rw [Function.update_of_ne (by simp)]
    exact hne

/-- A Backspace on a text of 40 characters shortens it unless it hits behind it. -/
theorem length_backspace (h40 : 40 ≤ v.text.length) (ht : v.Terminated)
    (ht' : v.backspace.Terminated) :
    v.text.length ≤ v.backspace.text.length ↔ v.text.length < (v .shellptr).toNat := by
  have hlt := (v .shellptr).isLt
  have hstr : ∀ p : Byte, v.backspace = Function.update (Function.update v .shellptr p) (.shellbuf p) 0 →
      v.backspace.str p.toNat = 0 ∧ ∀ i, i < p.toNat → v.backspace.str i = v.str i := fun p hp => by
    have hpl := p.isLt
    refine ⟨?_, fun i hi => ?_⟩
    · rw [hp, View.str, BitVec.ofNat_toNat, BitVec.setWidth_eq, Function.update_self]
    · rw [hp, View.str, Function.update_of_ne, Function.update_of_ne (by simp)]
      · rfl
      · rw [ne_eq, Static.shellbuf.injEq]
        intro he
        have := congrArg BitVec.toNat he
        rw [BitVec.toNat_ofNat] at this
        omega
  obtain ⟨hz, hsame⟩ := hstr _ rfl
  have hq : (if 0 < (v .shellptr).toNat then v .shellptr - 1#8 else v .shellptr).toNat =
      (v .shellptr).toNat - 1 := View.toNat_backspace _
  rw [hq] at hz hsame
  constructor
  · intro hle
    have := View.length_text_le ht' hz
    omega
  · intro hptr
    refine View.le_length_text ht' fun i hi => ?_
    rw [hsame i (by omega)]
    exact (View.isText_text ht).1.ne_zero hi

/-- **One event.** -/
theorem event_shows (hf : Fits (s.read L)) (ht : Typed (s.read L)) (hs : Shows L s)
    (hd : InLine L e s) : ∃ t, onEvent L e s = some t ∧ (Fits (t.read L) ∧ Typed (t.read L)) ∧
      (Shows L t ↔ Clean L e s) := by
  obtain ⟨hkey, hfit⟩ := hd
  have htyped : Typed ((s.read L).step ((i386 A).key e.1 e.2)) :=
    ht.step hf.terminated fun c hc => by
      rw [hc] at hkey
      exact hkey
  unfold onEvent Clean
  rw [kcallback_eq]
  cases h : (i386 A).key e.1 e.2 <;> simp only [h] at hkey hfit htyped ⊢
  case char c =>
    have hread := read_kbd_char (L := L) (s := s) c
    have htyped : Typed ((kbd_char L c s).read L) := hread ▸ htyped
    have hfit : Fits ((kbd_char L c s).read L) := hread ▸ hfit
    obtain ⟨t, hputs, hsame, hiff⟩ := reprint_shows hs hf (ready_char c) (Nat.le_refl 1) hfit
      (htyped.text hfit.terminated)
    refine ⟨t, hputs, hsame ▸ ⟨hfit, htyped⟩, iff_of_true (hiff.mpr (Or.inr ?_)) trivial⟩
    rw [hread]
    exact length_append hkey.ne.1 hf.terminated (hread ▸ hfit.terminated)
  case bcksp =>
    obtain ⟨u, hu, hread, hready⟩ := ready_bcksp (L := L) (s := s) (hs.row 0 (by decide))
    have htyped : Typed (u.read L) := hread ▸ htyped
    have hfit : Fits (u.read L) := hread ▸ hfit
    obtain ⟨t, hputs, hsame, hiff⟩ := reprint_shows hs hf hready (by decide) hfit
      (htyped.text hfit.terminated)
    refine ⟨t, by rw [hu]; exact hputs, hsame ▸ ⟨hfit, htyped⟩, hiff.trans ?_⟩
    rw [hread]
    rcases Nat.lt_or_ge (s.read L).text.length 40 with h40 | h40
    · simp only [h40, true_or]
    · rw [length_backspace h40 hf.terminated (hread ▸ hfit.terminated)]
  case up =>
    have hread := read_kbd_up hkey
    have htyped : Typed ((kbd_up L s).read L) := hread ▸ htyped
    have hfit : Fits ((kbd_up L s).read L) := hread ▸ hfit
    obtain ⟨t, hputs, hsame, hiff⟩ := reprint_shows hs hf ready_up (Nat.le_refl 1) hfit
      (htyped.text hfit.terminated)
    refine ⟨t, hputs, hsame ▸ ⟨hfit, htyped⟩, hiff.trans ?_⟩
    rw [hread, rowText]
    omega
  case down =>
    have hread := read_kbd_down hkey
    have htyped : Typed ((kbd_down L s).read L) := hread ▸ htyped
    have hfit : Fits ((kbd_down L s).read L) := hread ▸ hfit
    obtain ⟨t, hputs, hsame, hiff⟩ := reprint_shows hs hf ready_down (Nat.le_refl 1) hfit
      (htyped.text hfit.terminated)
    refine ⟨t, hputs, hsame ▸ ⟨hfit, htyped⟩, hiff.trans ?_⟩
    rw [hread, rowText]
    omega

theorem agrees_iff {es : List Event} (hf : Fits (s.read L)) (ht : Typed (s.read L)) (hs : Shows L s)
    (hes : AtEvery (onEvent L) (InLine L) es s) :
    AfterEvery (onEvent L) (Shows L) es s ↔ AtEvery (onEvent L) (Clean L) es s := by
  refine afterEvery_iff (I := fun t => Fits (t.read L) ∧ Typed (t.read L)) ?_ ⟨hf, ht⟩ hs hes
  exact fun e t hI hQ hd => event_shows hI.1 hI.2 hQ hd

/-- The cursor is at the start of a blank row. -/
structure BlankRow (v : Vga) : Prop where
  tx : v.tx = 0#8
  row : ∀ x, x < WIDTH → rowCell v x = 0

theorem prompt_shows {s₀ : Machine (i386 A)} (hline : Pending (s.read L) [])
    (hhist : ∀ row i, s.read L (.shellhist row i) = 0 ∨ Printable (s.read L (.shellhist row i)))
    (hrow : BlankRow (screenOf s)) (hs₀ : s.putsLit ['>'] = some s₀) :
    s₀.read L = s.read L ∧ Fits (s₀.read L) ∧ Typed (s₀.read L) ∧ Shows L s₀ := by
  have hread := (Machine.putsLit_quiet hs₀).read (L := L)
  rw [Machine.putsLit_eq (by decide) (by decide), Option.some.injEq] at hs₀
  refine ⟨hread, ?_, ⟨fun i => Or.inl ?_, fun row i => ?_⟩, ?_⟩
  · rw [hread]
    exact ⟨hline.terminated, by rw [hline.text]; decide⟩
  · rw [hread, hline.buf]
    rfl
  · rw [hread]
    exact hhist row i
  · unfold Shows
    rw [hread, hline.text, ← hs₀, screenOf_print]
    have htx : (screenOf s).tx.toNat = 0 := by
      rw [hrow.tx]
      rfl
    have hp := printed (l := ['>'].map ch) (by decide) (v := screenOf s)
      (by rw [htx]; decide)
    generalize (['>'].map ch).foldl (fun v c => putc c v) (screenOf s) = w at hp
    refine ⟨fun x hx => ?_, ?_⟩
    · rw [hp.row, htx, hrow.row x hx]
      simp only [Nat.zero_le, true_and, Nat.zero_add, Nat.sub_zero]
      rfl
    · rw [hp.cursor, if_neg (by decide), hp.ty, htx]
      rfl

/-- **The screen.** After the prompt on a blank row, along every sequence of events in the line,
the cursor's row shows the prompt and the text of `shellbuf`, with the hardware cursor behind it,
after every event exactly if every event is clean. -/
theorem screen_agrees_iff {s₀ : Machine (i386 A)} {es : List Event} (hline : Pending (s.read L) [])
    (hhist : ∀ row i, s.read L (.shellhist row i) = 0 ∨ Printable (s.read L (.shellhist row i)))
    (hrow : BlankRow (screenOf s)) (hs₀ : s.putsLit ['>'] = some s₀)
    (hes : AtEvery (onEvent L) (InLine L) es s₀) :
    AfterEvery (onEvent L) (Shows L) es s₀ ↔ AtEvery (onEvent L) (Clean L) es s₀ := by
  obtain ⟨-, hfit, htyped, hshows⟩ := prompt_shows hline hhist hrow hs₀
  exact agrees_iff hfit htyped hshows hes

theorem inLine_char {l : List Byte} {c : Byte} (hp : Pending (s.read L) l) (hl : 2 + l.length ≤ 79)
    (hc : Printable c) : InLine L (c, 0) s := by
  have happ := hp.append hc.ne.1 (by omega)
  unfold InLine
  simp only [key_char _ hc.ne.2.1]
  refine ⟨hc, happ.terminated, ?_⟩
  rw [View.step, happ.text, List.length_append, List.length_singleton]
  omega

theorem key_bcksp (A : DriverAddresses) : (i386 A).key 0 KBD_BCKSP = .bcksp := by
  have hheld : held KBD_BCKSP (i386 A).KBD_BCKSP = true := by
    show held KBD_BCKSP KBD_BCKSP = true
    decide
  unfold Platform.key
  rw [if_neg (by decide), if_pos hheld]

theorem inLine_bcksp {l : List Byte} (hp : Pending (s.read L) l) (hl : 1 + l.length ≤ 79) :
    InLine L (0, KBD_BCKSP) s := by
  unfold InLine
  simp only [key_bcksp]
  refine ⟨trivial, hp.backspace.terminated, ?_⟩
  rw [View.step, hp.backspace.text, List.length_dropLast]
  omega

end Events

theorem blankRow_cleared : BlankRow (screenOf cleared) := by
  refine ⟨rfl, fun x _ => ?_⟩
  show (0#8 ++ 0#8 : BitVec 16) = 0
  decide

theorem screen_agrees_iff_typed : ∃ s₀, cleared.putsLit ['>'] = some s₀ ∧
    (AfterEvery (onEvent lowLayout) (Shows lowLayout) [(ch 'a', 0), (0, KBD_BCKSP)] s₀ ↔
      AtEvery (onEvent lowLayout) (Clean lowLayout) [(ch 'a', 0), (0, KBD_BCKSP)] s₀) := by
  obtain ⟨s₀, hs₀, hq⟩ := Machine.putsLit_returns (l := ['>']) (by decide) cleared
  have hp : Pending (s₀.read lowLayout) [] := hq.read ▸ cleared_pending
  refine ⟨s₀, hs₀, screen_agrees_iff cleared_pending (fun _ _ => Or.inl rfl) blankRow_cleared hs₀ ?_⟩
  refine AtEvery.cons (inLine_char hp (by decide) (by decide)) fun t ht => ?_
  obtain ⟨t', ht', -, hp'⟩ := onEvent_pending hp (show LineOk lowLayout [] (ch 'a', 0) from
    ⟨by decide, by decide⟩)
  obtain rfl : t' = t := Option.some.inj (ht'.symm.trans ht)
  exact AtEvery.cons (inLine_bcksp hp' (by decide)) fun _ _ => atEvery_nil _ _

/-- An empty line has been entered. -/
def enteredEmpty : Machine (i386 lowDrivers) := cleared.write lowLayout .histptr 1

theorem read_enteredEmpty :
    enteredEmpty.read lowLayout = Function.update (fun _ => 0) .histptr 1 := cleared.read_write _ _

theorem blankRow_enteredEmpty : BlankRow (screenOf enteredEmpty) := by
  refine ⟨rfl, fun x hx => ?_⟩
  have hsame : SameScreen cleared enteredEmpty := sameScreen_write (L := lowLayout) _ _
  rw [hsame.rowCell hx]
  exact blankRow_cleared.row x hx

/-- A character, then Up to the empty line: the character stays on the screen. -/
theorem recall_leaves_stale : ∃ s₀, enteredEmpty.putsLit ['>'] = some s₀ ∧
    AtEvery (onEvent lowLayout) (InLine lowLayout) [(ch 'a', 0), (0, KBD_UP)] s₀ ∧
    ¬AfterEvery (onEvent lowLayout) (Shows lowLayout) [(ch 'a', 0), (0, KBD_UP)] s₀ := by
  have hline : Pending (enteredEmpty.read lowLayout) [] := by
    rw [read_enteredEmpty]
    exact Pending.nil rfl fun _ => rfl
  have hhist : ∀ row i, enteredEmpty.read lowLayout (.shellhist row i) = 0 ∨
      Printable (enteredEmpty.read lowLayout (.shellhist row i)) := fun row i => by
    rw [read_enteredEmpty]
    exact Or.inl rfl
  obtain ⟨s₀, hs₀, -⟩ := Machine.putsLit_returns (l := ['>']) (by decide) enteredEmpty
  obtain ⟨hs, hfit, htyped, hshows⟩ := prompt_shows hline hhist blankRow_enteredEmpty hs₀
  have hp : Pending (s₀.read lowLayout) [] := hs ▸ hline
  obtain ⟨t, ht, hread, hp'⟩ := onEvent_pending hp (show LineOk lowLayout [] (ch 'a', 0) from
    ⟨by decide, by decide⟩)
  rw [hs, read_enteredEmpty] at hread
  -- the entry above is empty
  have hkey : (i386 lowDrivers).key 0 KBD_UP = .up := by decide
  have hup : t.read lowLayout .histptr - 1#8 = 0 := by
    rw [hread]
    rfl
  have hrow : ∀ i, (t.read lowLayout).browse 0 (.shellbuf i) = 0 := fun i => by
    rw [View.browse_shellbuf, hread]
    rfl
  have hterm : ((t.read lowLayout).browse 0).Terminated := ⟨0, hrow 0⟩
  have hempty : ((t.read lowLayout).browse 0).text.length = 0 :=
    Nat.le_zero.mp (View.length_text_le hterm (hrow _))
  have hin : AtEvery (onEvent lowLayout) (InLine lowLayout) [(ch 'a', 0), (0, KBD_UP)] s₀ := by
    refine AtEvery.cons (inLine_char hp (by decide) (by decide)) fun t' ht' => ?_
    obtain rfl : t = t' := Option.some.inj (ht.symm.trans ht')
    refine AtEvery.cons ?_ fun _ _ => atEvery_nil _ _
    unfold InLine
    simp only [hkey, View.step, hup]
    refine ⟨fun h0 => ?_, hterm, by rw [hempty]; decide⟩
    rw [h0] at hup
    exact absurd hup (by decide)
  refine ⟨s₀, hs₀, hin, fun hall => ?_⟩
  have hclean := (agrees_iff hfit htyped hshows hin).mp hall [(ch 'a', 0)] (0, KBD_UP) t
    (List.prefix_refl _) (by rw [runs_cons, ht]; rfl)
  unfold Clean at hclean
  simp only [hkey, hup, rowText, hempty, hp'.text] at hclean
  exact absurd hclean (by decide)

end Osdev2.I386
