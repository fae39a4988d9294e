import Osdev2.Kernel.LineEdit

/-!
# The keyboard (`kernel/arch/i386/kbd.c`)

`keyboard` decodes one scancode and calls the shell's `kcallback`. Its two
variables, `kstate` and `extended`, are among the drivers' (`Drivers`). The key
tables are constants; an index past them reads the byte of memory there.

A release calls back too when it is the release of an arrow after the 0xE0
prefix, with character 0. `break_frame_iff`: along every scancode stream such a
release is what changes the line, unless Backspace is held on an empty line.
-/

namespace Osdev2.I386

open Osdev2.Lib Osdev2.Libk Osdev2.Kernel

def keymap : List Byte :=
  [0, ch '1', ch '2', ch '3', ch '4', ch '5', ch '6', ch '7', ch '8', ch '9', ch '0', ch '-',
    ch '=', 0,
    0, ch 'q', ch 'w', ch 'e', ch 'r', ch 't', ch 'y', ch 'u', ch 'i', ch 'o', ch 'p', ch '[',
    ch ']', ch '\n',
    0, ch 'a', ch 's', ch 'd', ch 'f', ch 'g', ch 'h', ch 'j', ch 'k', ch 'l', ch ';', 0x27#8,
    0x60#8,
    0, 0x5C#8, ch 'z', ch 'x', ch 'c', ch 'v', ch 'b', ch 'n', ch 'm', ch ',', ch '.', ch '/', 0,
    ch '*', 0, ch ' ']

def keymap_shift : List Byte :=
  [0, ch '!', ch '@', ch '#', ch '$', ch '%', ch '^', ch '&', ch '*', ch '(', ch ')', ch '_',
    ch '+', 0,
    0, ch 'Q', ch 'W', ch 'E', ch 'R', ch 'T', ch 'Y', ch 'U', ch 'I', ch 'O', ch 'P', 0x7B#8,
    0x7D#8, ch '\n',
    0, ch 'A', ch 'S', ch 'D', ch 'F', ch 'G', ch 'H', ch 'J', ch 'K', ch 'L', ch ':', 0x22#8,
    ch '~',
    0, ch '|', ch 'Z', ch 'X', ch 'C', ch 'V', ch 'B', ch 'N', ch 'M', ch '<', ch '>', ch '?', 0,
    ch '*', 0, ch ' ']

example : keymap.length = 57 ∧ keymap_shift.length = 57 := by decide

def ISLOWER (c : Int) : Bool := 96 < c ∧ c < 123

/-- `table[i]`, the table at address `base`. -/
def lookup (table : List Byte) (base : Nat) (m : Mem) (i : Int) : Byte :=
  if 0 ≤ i ∧ i < table.length then table.getD i.toNat 0 else m (base + i).toNat

section Keyboard

variable {A : DriverAddresses} (L : Layout (i386 A))

/-- The drivers' variables of the machine. -/
def drivers (s : Machine (i386 A)) : Drivers := s.dev

def setKeys (kstate extended : Byte) (s : Machine (i386 A)) : Machine (i386 A) :=
  { s with dev := { drivers s with kstate := kstate, extended := extended } }

/-- The two cases of an arrow key, the bit set on a press and cleared on a release. -/
def arrow (bit : Byte) (pressed : Bool) (s : Machine (i386 A)) : Option (Machine (i386 A)) :=
  let d := drivers s
  if d.extended = 0 then some s
  else
    let kstate := if pressed then d.kstate ||| bit else d.kstate &&& ~~~bit
    kcallback L 0 kstate (setKeys kstate 0 s)

/-- The default case: a make code of the tables. -/
def character (sc : Byte) (s : Machine (i386 A)) : Option (Machine (i386 A)) :=
  let kstate := (drivers s).kstate
  let i : Int := sc.toNat - 1
  let ch :=
    if held kstate KBD_SHIFT then lookup keymap_shift A.keymap_shift s.mem i
    else lookup keymap A.keymap s.mem i
  let ch :=
    if ISALPHA ch.toInt ∧ held kstate KBD_CAPS then
      if ISLOWER ch.toInt then ch - 32#8 else ch + 32#8
    else ch
  if ch ≠ 0 then kcallback L ch kstate s else some s

/-- One interrupt, with `sc` on port 0x60. -/
def keyboard (sc : Byte) (s : Machine (i386 A)) : Option (Machine (i386 A)) :=
  let kstate := (drivers s).kstate
  let extended := (drivers s).extended
  if sc = 0xE0#8 then some (setKeys kstate 1 s)
  else if sc = 0x0E#8 then
    let kstate := kstate ||| KBD_BCKSP
    kcallback L 0 kstate (setKeys kstate extended s)
  else if sc = 0x8E#8 then some (setKeys (kstate &&& ~~~KBD_BCKSP) extended s)
  else if sc = 0x2A#8 ∨ sc = 0x36#8 then some (setKeys (kstate ||| KBD_SHIFT) extended s)
  else if sc = 0xAA#8 ∨ sc = 0xB6#8 then some (setKeys (kstate &&& ~~~KBD_SHIFT) extended s)
  else if sc = 0x3A#8 then some (setKeys (kstate ^^^ KBD_CAPS) extended s)
  else if sc = 0x48#8 then arrow L KBD_UP true s
  else if sc = 0xC8#8 then arrow L KBD_UP false s
  else if sc = 0x50#8 then arrow L KBD_DOWN true s
  else if sc = 0xD0#8 then arrow L KBD_DOWN false s
  else if sc = 0x4B#8 then arrow L KBD_LEFT true s
  else if sc = 0xCB#8 then arrow L KBD_LEFT false s
  else if sc = 0x4D#8 then arrow L KBD_RIGHT true s
  else if sc = 0xCD#8 then arrow L KBD_RIGHT false s
  else if sc &&& 0x80#8 = 0 then character L sc s
  else some s

end Keyboard

/-! ## Releases -/

section Releases

variable {A : DriverAddresses} {L : Layout (i386 A)} {s s' : Machine (i386 A)} {sc : Byte}

/-- The line editor's variables are the same. -/
structure SameLine (v v' : View) : Prop where
  shellbuf : ∀ i, v' (.shellbuf i) = v (.shellbuf i)
  shellptr : v' .shellptr = v .shellptr
  histptr : v' .histptr = v .histptr

theorem SameLine.refl (v : View) : SameLine v v := ⟨fun _ => rfl, rfl, rfl⟩

/-- A break code. -/
def IsBreak (sc : Byte) : Prop := sc &&& 0x80#8 ≠ 0 ∧ sc ≠ 0xE0#8

def arrowReleases : List Byte := [0xC8#8, 0xD0#8, 0xCB#8, 0xCD#8]

/-- The interrupt returns and leaves the line as it was. -/
def Frames (L : Layout (i386 A)) (sc : Byte) (s : Machine (i386 A)) : Prop :=
  IsBreak sc → ∃ s', keyboard L sc s = some s' ∧ SameLine (s.read L) (s'.read L)

/-- An arrow is not released after the prefix, or Backspace is held on an empty line. -/
def Calm (L : Layout (i386 A)) (sc : Byte) (s : Machine (i386 A)) : Prop :=
  sc ∈ arrowReleases → (drivers s).extended ≠ 0 →
    held (drivers s).kstate KBD_BCKSP ∧ s.read L .shellptr = 0 ∧ s.read L (.shellbuf 0) = 0

theorem read_setKeys (k x : Byte) : (setKeys k x s).read L = s.read L := rfl

theorem keyboard_break (h : IsBreak sc) (ha : sc ∉ arrowReleases) :
    ∃ k x, keyboard L sc s = some (setKeys k x s) := by
  obtain ⟨hbit, hE0⟩ := h
  have hmake : ∀ c : Byte, c &&& 0x80#8 = 0 → sc ≠ c := fun c hc he => hbit (he ▸ hc)
  simp only [arrowReleases, List.mem_cons, List.not_mem_nil, or_false, not_or] at ha
  obtain ⟨h1, h2, h3, h4⟩ := ha
  simp only [keyboard, if_neg hE0, if_neg h1, if_neg h2, if_neg h3, if_neg h4, if_neg hbit,
    if_neg (hmake 0x0E#8 (by decide)), if_neg (hmake 0x3A#8 (by decide)),
    if_neg (hmake 0x48#8 (by decide)), if_neg (hmake 0x50#8 (by decide)),
    if_neg (hmake 0x4B#8 (by decide)), if_neg (hmake 0x4D#8 (by decide))]
  split
  · exact ⟨_, _, rfl⟩
  · split
    · exact ⟨_, _, rfl⟩
    · split
      · exact ⟨_, _, rfl⟩
      · exact ⟨(drivers s).kstate, (drivers s).extended, rfl⟩

theorem keyboard_release {c : Byte} (h : c ∈ arrowReleases) : ∃ bit,
    (∀ k, held (k &&& ~~~bit) KBD_BCKSP = held k KBD_BCKSP) ∧
      keyboard L c s = arrow L bit false s := by
  simp only [arrowReleases, List.mem_cons, List.not_mem_nil, or_false] at h
  rcases h with rfl | rfl | rfl | rfl
  · exact ⟨KBD_UP, by decide, rfl⟩
  · exact ⟨KBD_DOWN, by decide, rfl⟩
  · exact ⟨KBD_LEFT, by decide, rfl⟩
  · exact ⟨KBD_RIGHT, by decide, rfl⟩

/-- Backspace on an empty line changes nothing, any other takes something away. -/
theorem backspace_same_iff {v : View} :
    SameLine v v.backspace ↔ v .shellptr = 0 ∧ v (.shellbuf 0) = 0 := by
  constructor
  · intro h
    have hp := h.shellptr
    rw [View.backspace, Function.update_of_ne (by simp), Function.update_self] at hp
    have hp0 : v .shellptr = 0 := by
      by_contra hne
      rw [if_pos (Nat.pos_of_ne_zero fun h0 => hne (BitVec.eq_of_toNat_eq h0))] at hp
      simp at hp
    have h0 := h.shellbuf 0
    rw [View.backspace, hp0, if_neg (by decide), Function.update_self] at h0
    exact ⟨hp0, h0.symm⟩
  · rintro ⟨hp, h0⟩
    have hv : v.backspace = v := by
      have h1 : Function.update v .shellptr 0 = v := Function.update_eq_self_iff.mpr hp.symm
      have h2 : Function.update v (.shellbuf 0) 0 = v := Function.update_eq_self_iff.mpr h0.symm
      simp only [View.backspace, hp, if_neg (show ¬0 < (0 : Byte).toNat by decide), h1, h2]
    rw [hv]
    exact SameLine.refl v

/-- Up and Down move in the history, wherever they are. -/
theorem browse_moves {row : Int} {p d : Byte} (hd : d ≠ 0) :
    ((((s.loadRow L row).write L .histptr (s.read L .histptr + d)).loadCursor
      L p).setpos_x PROMPT_LEN).read L .histptr ≠ s.read L .histptr := by
  intro hhist
  rw [(Machine.setpos_x_quiet _ _).read, Machine.read_loadCursor,
    Function.update_of_ne (by simp), Machine.read_write, Function.update_self] at hhist
  exact hd (by simpa using hhist)

/-- A callback without a character changes the line, but for Backspace on an empty one. -/
theorem callback_frames_iff (kstate : Byte) :
    (∃ s', kcallback L 0 kstate s = some s' ∧ SameLine (s.read L) (s'.read L)) ↔
      held kstate KBD_BCKSP ∧ s.read L .shellptr = 0 ∧ s.read L (.shellbuf 0) = 0 := by
  have hhist : ∀ row, (s.loadRow L row).read L .histptr = s.read L .histptr := fun row =>
    Machine.read_loadRow_other _ _ (by rintro i ⟨⟩)
  rw [kcallback_eq, Platform.key, if_neg (by decide)]
  by_cases hb : held kstate KBD_BCKSP
  · rw [if_pos (show held kstate (i386 A).KBD_BCKSP from hb)]
    obtain ⟨t, ht, hread, -⟩ := kbd_bcksp_returns L s
    simp only [ht, Option.bind_some, hb, true_and, ← backspace_same_iff, ← hread]
    constructor
    · rintro ⟨s', hs', hsame⟩
      rwa [(Machine.puts_quiet hs').read] at hsame
    · intro hsame
      have h0 : s.read L (.shellbuf 0) = 0 := (backspace_same_iff.mp (hread ▸ hsame)).2
      obtain ⟨s', hs', hq⟩ := puts_shellbuf_read rfl ⟨0, (hsame.shellbuf 0).trans h0⟩
      exact ⟨s', hs', by rwa [hq]⟩
  · rw [if_neg (show ¬held kstate (i386 A).KBD_BCKSP from hb)]
    simp only [hb, false_and, iff_false, not_exists, not_and, Bool.false_eq_true]
    intro s' hs' hsame
    by_cases hu : held kstate (i386 A).KBD_UP
    · rw [if_pos hu] at hs'
      rw [(Machine.puts_quiet hs').read, kbd_up, hhist, BitVec.sub_eq_add_neg] at hsame
      exact browse_moves (by decide) hsame.histptr
    · rw [if_neg hu] at hs'
      by_cases hd : held kstate (i386 A).KBD_DOWN
      · rw [if_pos hd] at hs'
        rw [(Machine.puts_quiet hs').read, kbd_down, hhist] at hsame
        exact browse_moves (by decide) hsame.histptr
      · rw [if_neg hd] at hs'
        have hp := hsame.shellptr
        rw [(Machine.puts_quiet hs').read, read_kbd_char, View.append,
          Function.update_of_ne (by simp), Function.update_self] at hp
        simp at hp

theorem frames_iff : Frames L sc s ↔ Calm L sc s := by
  by_cases ha : sc ∈ arrowReleases
  · have hbreak : IsBreak sc := by
      simp only [arrowReleases, List.mem_cons, List.not_mem_nil, or_false] at ha
      rcases ha with rfl | rfl | rfl | rfl <;> exact ⟨by decide, by decide⟩
    obtain ⟨bit, hheld, heq⟩ := keyboard_release (L := L) (s := s) ha
    simp only [Frames, Calm, hbreak, ha, true_implies, heq, arrow]
    by_cases hx : (drivers s).extended = 0
    · simp only [hx, if_true, ne_eq, not_true_eq_false, false_implies, iff_true]
      exact ⟨s, rfl, SameLine.refl _⟩
    · simp only [hx, if_false, ne_eq, not_false_eq_true, true_implies, Bool.false_eq_true]
      rw [← read_setKeys, callback_frames_iff, hheld]
  · refine ⟨fun _ h => absurd h ha, fun _ hbreak => ?_⟩
    obtain ⟨k, x, h⟩ := keyboard_break (L := L) (s := s) hbreak ha
    exact ⟨_, h, SameLine.refl _⟩

/-- **Break codes.** Along every stream of scancodes, every break code leaves the line as
it was exactly if every arrow released after the prefix finds Backspace held on an
empty line. -/
theorem break_frame_iff (L : Layout (i386 A)) (scs : List Byte) (s : Machine (i386 A)) :
    AtEvery (keyboard L) (Frames L) scs s ↔ AtEvery (keyboard L) (Calm L) scs s :=
  atEvery_iff (fun _ _ => frames_iff) scs s

theorem keeps_kbd (A : DriverAddresses) (kstate extended : Byte) :
    (i386 A).Keeps fun d : Drivers => d.kstate = kstate ∧ d.extended = extended :=
  ⟨fun _ _ h => h, fun _ _ h => h, fun _ h => h⟩

theorem quiet_kbd (h : s.Quiet s') : (drivers s').kstate = (drivers s).kstate ∧
    (drivers s').extended = (drivers s).extended :=
  h.dev _ (keeps_kbd A _ _) ⟨rfl, rfl⟩

/-- An arrow key pressed on its own types a NUL. -/
theorem press_left (hk : (drivers s).kstate = 0)
    (h : s.read L .shellptr = 0) (h1 : s.read L (.shellbuf 1) = 0) :
    ∃ t, runs (keyboard L) [0xE0#8, 0x4B#8] s = some t ∧
      t.read L .shellptr = 1 := by
  have hprefix : keyboard L 0xE0#8 s = some (setKeys 0 1 s) := hk ▸ rfl
  have hleft : keyboard L 0x4B#8 (setKeys 0 1 s) =
      kcallback L 0 KBD_LEFT (setKeys KBD_LEFT 0 s) := by
    rw [show keyboard L 0x4B#8 (setKeys 0 1 s) =
      arrow L KBD_LEFT true (setKeys 0 1 s) from rfl]
    simp [arrow, setKeys, drivers]
  have hkey : (i386 A).key 0 KBD_LEFT = .char 0 :=
    show (if (0 : Byte) = ch '\n' then Key.newline else if held KBD_LEFT KBD_BCKSP then .bcksp
      else if held KBD_LEFT KBD_UP then .up else if held KBD_LEFT KBD_DOWN then .down
      else .char 0) = .char 0 by decide
  have hg : View.Guard L ((i386 A).key 0 KBD_LEFT) ((setKeys KBD_LEFT 0 s).read L) := by
    rw [hkey]; trivial
  obtain ⟨t, ht, hread⟩ := kcallback_step hg
    (by rw [hkey]; exact ⟨1, by simpa [View.step, View.append, read_setKeys, h] using h1⟩)
  refine ⟨t, by rw [runs_cons, hprefix, Option.bind_some, runs_cons, hleft, ht]; rfl, ?_⟩
  rw [hread, hkey, View.step, View.append, Function.update_of_ne (by simp), Function.update_self,
    read_setKeys, h]
  rfl

end Releases

/-- Left pressed and released on the empty line: the release types too. -/
theorem break_types : ∃ s₀, shell_init lowLayout cleared = some s₀ ∧
    ¬AtEvery (keyboard lowLayout) (Frames lowLayout) [0xE0#8, 0x4B#8, 0xE0#8, 0xCB#8] s₀ := by
  obtain ⟨s₀, hs₀, hp⟩ := shell_init_pending (L := lowLayout) (s := cleared) rfl
  refine ⟨s₀, hs₀, fun H => ?_⟩
  obtain ⟨t, ht, hptr⟩ := press_left (quiet_kbd (Machine.putsLit_quiet hs₀)).1 (BitVec.eq_of_toNat_eq hp.ptr)
    (hp.tail_zero (by decide))
  have hprefix : runs (keyboard lowLayout) [0xE0#8, 0x4B#8, 0xE0#8] s₀ =
      some (setKeys (drivers t).kstate 1 t) :=
    runs_snoc.mpr ⟨t, ht, rfl⟩
  obtain ⟨-, hempty, -⟩ := frames_iff.mp (H _ _ _ (List.prefix_refl _) hprefix) (by decide)
    (show (1 : Byte) ≠ 0 by decide)
  rw [read_setKeys, hptr] at hempty
  exact absurd hempty (by decide)

end Osdev2.I386
