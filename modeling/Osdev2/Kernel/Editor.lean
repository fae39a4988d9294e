import Osdev2.Kernel.Command

/-!
# The line editor, without addresses

`View.step` is the effect of a key on the shell's variables: five functions on
views, one per branch of `kcallback`. `kcallback_step` says that the code has
this effect, and returns, as long as `shellbuf` keeps a NUL (`Terminated`), no
row outside the history is read and the submitted line does not poke the shell's
own variables (`View.Guard`).
-/

namespace Osdev2.Kernel

open Osdev2.Lib Osdev2.Libk

/-- The branches of `kcallback`. -/
inductive Key where
  | newline
  | bcksp
  | up
  | down
  | char (c : Byte)
  deriving DecidableEq

/-- The branch an event takes. -/
def Platform.key (P : Platform) (c kstate : Byte) : Key :=
  if c = ch '\n' then .newline
  else if held kstate P.KBD_BCKSP then .bcksp
  else if held kstate P.KBD_UP then .up
  else if held kstate P.KBD_DOWN then .down
  else .char c

theorem key_newline {P : Platform} {c kstate : Byte} (h : P.key c kstate = .newline) : c = ch '\n' := by
  by_contra hc
  unfold Platform.key at h
  rw [if_neg hc] at h
  split at h
  · cases h
  · split at h
    · cases h
    · split at h <;> cases h

namespace View

/-- `shellbuf` as a string. -/
def str (v : View) : CStr := fun i => v (.shellbuf (BitVec.ofNat 8 i))

/-- The text of `shellbuf`: its bytes up to the first NUL. -/
def text (v : View) : List Byte :=
  ((List.range 256).map v.str).take (((List.range 256).map v.str).findIdx (· == 0))

def Terminated (v : View) : Prop := ∃ i, v (.shellbuf i) = 0

/-- What a submission saves: the buffer once the command has cut its words. -/
def saved (v : View) : Byte → Byte := fun i =>
  (commandLine v.text).bytes.getD i.toNat (v (.shellbuf i))

def append (c : Byte) (v : View) : View :=
  Function.update (Function.update v .shellptr (v .shellptr + 1#8)) (.shellbuf (v .shellptr)) c

def backspace (v : View) : View :=
  let p := if 0 < (v .shellptr).toNat then v .shellptr - 1#8 else v .shellptr
  Function.update (Function.update v .shellptr p) (.shellbuf p) 0

theorem toNat_backspace (p : Byte) : (if 0 < p.toNat then p - 1#8 else p).toNat = p.toNat - 1 := by
  have hlt := p.isLt
  split
  · rw [BitVec.toNat_sub, BitVec.toNat_ofNat]
    omega
  · omega

def browse (row : Byte) (v : View) : View :=
  Function.update (Function.update (v.withBuf fun i => v (.shellhist row i)) .histptr row) .shellptr
    (v (.shellptr_hist row))

/-- `b` and the cursor go into the current row, and the next line starts. -/
def record (b : Byte → Byte) (v : View) : View
  | .shellbuf _ => 0
  | .shellhist row i => if row = v .histptr then b i else v (.shellhist row i)
  | .shellptr_hist row => if row = v .histptr then v .shellptr else v (.shellptr_hist row)
  | .shellptr => 0
  | .histptr => v .histptr + 1#8

def step : Key → View → View
  | .newline, v => v.record v.saved
  | .bcksp, v => v.backspace
  | .up, v => v.browse (v .histptr - 1#8)
  | .down, v => v.browse (v .histptr + 1#8)
  | .char c, v => v.append c

@[simp] theorem browse_shellbuf (row : Byte) (v : View) (i : Byte) :
    v.browse row (.shellbuf i) = v (.shellhist row i) := by
  simp [browse]

@[simp] theorem browse_shellhist (row : Byte) (v : View) (r i : Byte) :
    v.browse row (.shellhist r i) = v (.shellhist r i) := by
  simp [browse, withBuf]

@[simp] theorem browse_shellptr_hist (row : Byte) (v : View) (r : Byte) :
    v.browse row (.shellptr_hist r) = v (.shellptr_hist r) := by
  simp [browse, withBuf]

@[simp] theorem browse_shellptr (row : Byte) (v : View) :
    v.browse row .shellptr = v (.shellptr_hist row) := by
  simp [browse]

@[simp] theorem browse_histptr (row : Byte) (v : View) : v.browse row .histptr = row := by
  simp [browse]

@[simp] theorem record_shellhist (b : Byte → Byte) (v : View) (row i : Byte) :
    v.record b (.shellhist row i) = if row = v .histptr then b i else v (.shellhist row i) := rfl

@[simp] theorem record_shellptr_hist (b : Byte → Byte) (v : View) (row : Byte) :
    v.record b (.shellptr_hist row) =
      if row = v .histptr then v .shellptr else v (.shellptr_hist row) := rfl

@[simp] theorem record_histptr (b : Byte → Byte) (v : View) :
    v.record b .histptr = v .histptr + 1#8 := rfl

/-- The submitted line does not poke the shell's own variables. -/
def Harmless {P : Platform} (L : Layout P) (text : List Byte) : Prop :=
  ∀ x, pokeTarget P.W text ≠ some (L.addr x)

def Guard {P : Platform} (L : Layout P) : Key → View → Prop
  | .newline, v => v.Terminated ∧ Harmless L v.text
  | .up, v => v .histptr ≠ 0#8
  | .down, v => v .histptr ≠ 255#8
  | _, _ => True

/-! ## The text of the buffer -/

theorem isText_text {v : View} (h : v.Terminated) : IsText v.str v.text ∧ v.text.length ≤ 255 := by
  obtain ⟨z, hz⟩ := h
  have hlen : ((List.range 256).map v.str).length = 256 := by
    rw [List.length_map, List.length_range]
  have hget : ∀ i (hi : i < ((List.range 256).map v.str).length),
      ((List.range 256).map v.str)[i] = v.str i := fun i hi => by
    rw [List.getElem_map, List.getElem_range]
  have htext : v.text = ((List.range 256).map v.str).take
    (((List.range 256).map v.str).findIdx (· == 0)) := rfl
  generalize (List.range 256).map v.str = b at hlen hget htext
  have hlt : b.findIdx (· == 0) < b.length := by
    have hz256 : z.toNat < b.length := hlen ▸ z.isLt
    refine List.findIdx_lt_length.mpr ⟨b[z.toNat], List.getElem_mem _, ?_⟩
    rw [hget, str, BitVec.ofNat_toNat, BitVec.setWidth_eq, hz]
    rfl
  have hn : v.text.length = b.findIdx (· == 0) := by
    rw [htext, List.length_take, Nat.min_eq_left (Nat.le_of_lt hlt)]
  refine ⟨⟨fun i hi => ?_, fun c hc => ?_⟩, by omega⟩
  · rcases Nat.eq_or_lt_of_le hi with rfl | hi
    · have h0 : (b[b.findIdx (· == 0)] == 0) = true := List.findIdx_getElem (p := (· == 0))
      rw [List.getD_eq_default _ _ (Nat.le_refl _), hn, ← hget _ hlt]
      exact beq_iff_eq.mp h0
    · rw [List.getD_eq_getElem _ _ hi]
      simp only [htext, List.getElem_take]
      exact (hget i (by omega)).symm
  · rw [htext] at hc
    obtain ⟨i, hi, rfl⟩ := List.getElem_of_mem hc
    rw [List.getElem_take]
    rw [List.length_take] at hi
    have hne : (b[i] == 0) = false := List.not_of_lt_findIdx (p := (· == 0)) (by omega)
    simpa using hne

theorem le_length_text {v : View} (h : v.Terminated) {n : Nat} (hn : ∀ i, i < n → v.str i ≠ 0) :
    n ≤ v.text.length := by
  by_contra hlt
  exact hn _ (Nat.lt_of_not_le hlt) (isText_text h).1.nul

theorem length_text_le {v : View} (h : v.Terminated) {n : Nat} (hn : v.str n = 0) :
    v.text.length ≤ n := by
  by_contra hlt
  exact (isText_text h).1.ne_zero (Nat.lt_of_not_le hlt) hn

end View

/-! ## The branches of `kcallback` -/

section Branches

variable {P : Platform} {L : Layout P} {s s' : Machine P}

theorem tokenised_refl (h : (s.read L).Terminated) : Tokenised L s ⟨[], (s.read L).text⟩ s := by
  obtain ⟨ht, hlen⟩ := View.isText_text h
  refine ⟨⟨fun i hi => ?_, ht.noNul⟩, hlen, fun _ _ _ => rfl, rfl, fun _ _ hs => hs⟩
  have hi : i ≤ (s.read L).text.length := hi
  have hr := ht.reads i hi
  rw [View.str, Machine.read, Addresses.addr, BitVec.toNat_ofNat] at hr
  rwa [show i % 2 ^ 8 = i by omega] at hr

theorem puts_shellbuf_returns (h : (s.read L).Terminated) :
    ∃ s', s.puts L.shellbuf = some s' ∧ s.Quiet s' := by
  obtain ⟨i, hi⟩ := h
  exact Machine.puts_returns (L.mapped (.shellbuf i)) (L.outside _) hi _

/-- `puts(shellbuf)` prints the text. -/
theorem puts_shellbuf_eq (h : (s.read L).Terminated) : s.puts L.shellbuf =
    some (s.console fun t => (s.read L).text.foldl (fun t c => P.putc c t) t) := by
  obtain ⟨htext, hlen⟩ := View.isText_text h
  have hW : 2 ^ 32 ≤ 2 ^ P.W := Nat.pow_le_pow_right (by decide) P.wide
  -- printing leaves the bytes of `shellbuf` alone
  let I : Mem × P.Dev → Prop := fun t => ∀ x, t.1 (L.addr x) = s.read L x
  have hI : ∀ t, I t → IsText (t.1.at P.W L.shellbuf) (s.read L).text := fun t ht => by
    refine htext.congr fun i hi => ?_
    have hto : (BitVec.ofNat 8 i).toNat = i := by
      rw [BitVec.toNat_ofNat]
      omega
    have haddr : L.addr (.shellbuf (BitVec.ofNat 8 i)) = L.shellbuf + i := by
      rw [Addresses.addr, hto]
    have hlt := L.mapped (.shellbuf (BitVec.ofNat 8 i))
    rw [haddr] at hlt
    rw [Mem.at_eq hlt, ← haddr, ht]
    rfl
  have hrun : forEachChar (fun t => t.1.at P.W L.shellbuf) P.putc (2 ^ P.W) 0 (s.mem, s.dev) =
      some ((s.read L).text.foldl (fun t c => P.putc c t) (s.mem, s.dev)) :=
    (forEachChar_text (I := I) (fun c t ht x => (P.putc_frame c t _ (L.outside x)).trans (ht x)) hI
      (fun _ => rfl) (Nat.zero_le _) (by omega)).1
  unfold Machine.puts
  rw [if_neg (Nat.ne_of_gt L.nonnull), hrun]
  rfl

theorem read_kbd_char (c : Byte) : (kbd_char L c s).read L = (s.read L).append c := by
  simp only [kbd_char, (Machine.setpos_x_quiet _ _).read, Machine.read_write, View.append]

theorem kbd_bcksp_returns (L : Layout P) (s : Machine P) :
    ∃ s', kbd_bcksp L s = some s' ∧ s'.read L = (s.read L).backspace ∧ s'.trace = s.trace := by
  obtain ⟨s1, hs1, hread⟩ : ∃ s1, (if 0 < (s.read L .shellptr).toNat then
      s.write L .shellptr (s.read L .shellptr - 1#8) else s) = s1 ∧
      s1.read L = Function.update (s.read L) .shellptr
        (if 0 < (s.read L .shellptr).toNat then s.read L .shellptr - 1#8 else s.read L .shellptr) ∧
      s1.trace = s.trace := by
    refine ⟨_, rfl, ?_⟩
    split
    · exact ⟨s.read_write _ _, rfl⟩
    · exact ⟨(Function.update_eq_self _ _).symm, rfl⟩
  obtain ⟨s2, hs2, hq⟩ := Machine.putsLit_returns (l := ['>']) (by decide)
    (((s1.write L (.shellbuf (s1.read L .shellptr)) 0).clrline).setpos_x 0)
  have hq := ((Machine.clrline_quiet _).trans (Machine.setpos_x_quiet _ _)).trans hq
  refine ⟨s2, ?_, ?_, hq.trace.trans hread.2⟩
  · simp only [kbd_bcksp, hs1]
    exact hs2
  · rw [hq.read, Machine.read_write, hread.1, Function.update_self]
    rfl

theorem read_browse {row : Int} {h : Byte} (hrow : row = h.toNat) :
    ((((s.loadRow L row).write L .histptr h).loadCursor L h).setpos_x PROMPT_LEN).read L =
      (s.read L).browse h := by
  subst hrow
  rw [(Machine.setpos_x_quiet _ _).read, Machine.read_loadCursor, Machine.read_write,
    Machine.read_loadRow, Function.update_of_ne (by simp)]
  rfl

theorem read_kbd_up (h : s.read L .histptr ≠ 0#8) :
    (kbd_up L s).read L = (s.read L).browse (s.read L .histptr - 1#8) := by
  have hh : (s.loadRow L ((s.read L .histptr).toNat - 1)).read L .histptr = s.read L .histptr :=
    Machine.read_loadRow_other _ _ (by rintro i ⟨⟩)
  simp only [kbd_up, hh, Machine.read_write, Function.update_self]
  apply read_browse
  have h0 : (s.read L .histptr).toNat ≠ 0 := fun h0 => h (BitVec.eq_of_toNat_eq h0)
  rw [BitVec.toNat_sub, BitVec.toNat_ofNat]
  omega

theorem read_kbd_down (h : s.read L .histptr ≠ 255#8) :
    (kbd_down L s).read L = (s.read L).browse (s.read L .histptr + 1#8) := by
  have hh : (s.loadRow L ((s.read L .histptr).toNat + 1)).read L .histptr = s.read L .histptr :=
    Machine.read_loadRow_other _ _ (by rintro i ⟨⟩)
  simp only [kbd_down, hh, Machine.read_write, Function.update_self]
  apply read_browse
  have h0 : (s.read L .histptr).toNat ≠ 255 := fun h0 => h (BitVec.eq_of_toNat_eq h0)
  rw [BitVec.toNat_add, BitVec.toNat_ofNat]
  omega

theorem read_shell_record :
    (shell_record L s).read L = (s.read L).record fun i => s.read L (.shellbuf i) := by
  have h1 : (s.saveRow L (s.read L .histptr).toNat).read L .histptr = s.read L .histptr := by
    rw [Machine.read_saveRow]
    rfl
  simp only [shell_record, h1, Machine.read_write, Machine.read_clearbuf, Machine.read_saveCursor,
    Machine.read_saveRow]
  funext x
  cases x with
  | shellbuf i => rfl
  | shellhist row i => simp [View.record, View.withBuf, View.withRow]
  | shellptr_hist row => simp [View.record, View.withBuf, View.withRow, Function.update_apply]
  | shellptr => simp [View.record]
  | histptr => simp [View.record, View.withBuf, View.withRow]

theorem read_poke {a : Nat} {v : Byte} (h : ∀ x, a ≠ L.addr x) : (s.poke a v).read L = s.read L :=
  funext fun x => Function.update_of_ne (h x).symm _ _

theorem shell_proc_returns (ht : (s.read L).Terminated)
    (hh : View.Harmless L (s.read L).text) :
    ∃ s', shell_proc L s = some s' ∧ s'.read L = (s.read L).record (s.read L).saved := by
  obtain ⟨s1, h1, hcmd⟩ := shell_command_spec (tokenised_refl ht)
  obtain ⟨s2, hs2, hread⟩ : ∃ s2, shell_command L s = some s2 ∧
      s2.read L = (s.read L).withBuf (s.read L).saved := by
    split at hcmd
    · exact ⟨s1, hcmd, h1.read⟩
    · rename_i a ha
      obtain ⟨v, -, hv⟩ := hcmd
      refine ⟨_, hv, ?_⟩
      rw [read_poke fun x hx => hh x (hx ▸ ha)]
      exact h1.read
  obtain ⟨s3, hs3, hq⟩ := Machine.printf_text_quiet (l := ['\n']) (by decide) (by decide) [] s2
  refine ⟨shell_record L s3, ?_, ?_⟩
  · simp only [shell_proc, hs2, hs3, Option.bind_eq_bind, Option.bind_some, Option.pure_def]
  · rw [read_shell_record, hq.read, hread]
    funext x
    cases x <;> rfl

end Branches

/-! ## The callback -/

section Callback

variable {P : Platform} {L : Layout P} {s : Machine P} {c kstate : Byte}

theorem kcallback_eq : kcallback L c kstate s = match P.key c kstate with
    | .newline => (shell_proc L ((s.setpos_x 0).putc (ch '\n'))).bind (·.putsLit ['>'])
    | .bcksp => (kbd_bcksp L s).bind (·.puts L.shellbuf)
    | .up => (kbd_up L s).puts L.shellbuf
    | .down => (kbd_down L s).puts L.shellbuf
    | .char c => (kbd_char L c s).puts L.shellbuf := by
  unfold kcallback Platform.key
  by_cases hc : c = ch '\n'
  · rw [if_pos hc, if_pos hc]
    rfl
  · rw [if_neg hc, if_neg hc]
    by_cases hb : held kstate P.KBD_BCKSP
    · rw [if_pos hb, if_pos hb]
      rfl
    · rw [if_neg hb, if_neg hb]
      by_cases hu : held kstate P.KBD_UP
      · rw [if_pos hu, if_pos hu]
        rfl
      · rw [if_neg hu, if_neg hu]
        by_cases hd : held kstate P.KBD_DOWN
        · rw [if_pos hd, if_pos hd]
          rfl
        · rw [if_neg hd, if_neg hd]
          rfl

theorem puts_shellbuf_read {v : View} (h : s.read L = v) (hv : v.Terminated) :
    ∃ s', s.puts L.shellbuf = some s' ∧ s'.read L = v := by
  obtain ⟨s', hs', hq⟩ := puts_shellbuf_returns (h ▸ hv)
  exact ⟨s', hs', hq.read.trans h⟩

/-- **The callback computes `View.step`.** -/
theorem kcallback_step (hg : View.Guard L (P.key c kstate) (s.read L))
    (ht : ((s.read L).step (P.key c kstate)).Terminated) :
    ∃ s', kcallback L c kstate s = some s' ∧ s'.read L = (s.read L).step (P.key c kstate) := by
  rw [kcallback_eq]
  cases hkey : P.key c kstate <;> rw [hkey] at hg ht
  case newline =>
    -- the console, the command, the history, the prompt
    have hq := s.newline_quiet
    rw [← hq.read] at hg
    obtain ⟨s1, hs1, hread⟩ := shell_proc_returns hg.1 hg.2
    obtain ⟨s2, hs2, hq2⟩ := Machine.putsLit_returns (l := ['>']) (by decide) s1
    refine ⟨s2, by simp only [hs1, Option.bind_some]; exact hs2, ?_⟩
    rw [hq2.read, hread, hq.read]
    rfl
  case bcksp =>
    obtain ⟨s1, hs1, hread, -⟩ := kbd_bcksp_returns L s
    rw [hs1]
    exact puts_shellbuf_read hread ht
  case up => exact puts_shellbuf_read (read_kbd_up hg) ht
  case down => exact puts_shellbuf_read (read_kbd_down hg) ht
  case char c => exact puts_shellbuf_read (read_kbd_char c) ht

end Callback

end Osdev2.Kernel
