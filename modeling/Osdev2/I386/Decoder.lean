import Osdev2.I386.Keyboard

/-!
# The decoder's variables along a stream

`Keys` holds the two variables of `kbd.c`; only `keyboard` assigns them.
`Keys.next` is what one scancode makes of them, `called` the arguments it calls
back with, and `keyboard_eq` puts the two together again. What a stream of
scancodes leaves in the variables is then a fold, and `runs_keys` is that for the
machine: only a `poke` in between can change it.

* `extended_iff`: the flag marks the byte after 0xE0 exactly when every such byte
  is an arrow's or another 0xE0, for nothing else clears it.
* `letter_case_iff`: a letter has the case of Shift and Caps Lock exactly when no
  Shift is down that another Shift's release has hidden.
-/

namespace Osdev2.I386

open Osdev2.Lib Osdev2.Libk Osdev2.Kernel

structure Keys where
  kstate : Byte
  extended : Byte
  deriving DecidableEq

namespace Keys

/-- The variables before the first interrupt. -/
def init : Keys := ⟨0, 0⟩

/-- A press or a release of an arrow key. -/
def arrow (bit : Byte) (pressed : Bool) (k : Keys) : Keys :=
  if k.extended = 0 then k
  else ⟨if pressed then k.kstate ||| bit else k.kstate &&& ~~~bit, 0⟩

def next (k : Keys) (sc : Byte) : Keys :=
  if sc = 0xE0#8 then { k with extended := 1 }
  else if sc = 0x0E#8 then { k with kstate := k.kstate ||| KBD_BCKSP }
  else if sc = 0x8E#8 then { k with kstate := k.kstate &&& ~~~KBD_BCKSP }
  else if sc = 0x2A#8 ∨ sc = 0x36#8 then { k with kstate := k.kstate ||| KBD_SHIFT }
  else if sc = 0xAA#8 ∨ sc = 0xB6#8 then { k with kstate := k.kstate &&& ~~~KBD_SHIFT }
  else if sc = 0x3A#8 then { k with kstate := k.kstate ^^^ KBD_CAPS }
  else if sc = 0x48#8 then k.arrow KBD_UP true
  else if sc = 0xC8#8 then k.arrow KBD_UP false
  else if sc = 0x50#8 then k.arrow KBD_DOWN true
  else if sc = 0xD0#8 then k.arrow KBD_DOWN false
  else if sc = 0x4B#8 then k.arrow KBD_LEFT true
  else if sc = 0xCB#8 then k.arrow KBD_LEFT false
  else if sc = 0x4D#8 then k.arrow KBD_RIGHT true
  else if sc = 0xCD#8 then k.arrow KBD_RIGHT false
  else k

/-- The variables after a stream. -/
def after (scs : List Byte) : Keys := scs.foldl next init

@[simp] theorem after_nil : after [] = init := rfl

theorem after_snoc (scs : List Byte) (sc : Byte) : after (scs ++ [sc]) = (after scs).next sc := by
  unfold after
  rw [List.foldl_append]
  rfl

end Keys

/-- The codes tested against `extended`. -/
def arrowCodes : List Byte :=
  [0x48#8, 0xC8#8, 0x50#8, 0xD0#8, 0x4B#8, 0xCB#8, 0x4D#8, 0xCD#8]

def arrowBits : List Byte := [KBD_UP, KBD_DOWN, KBD_LEFT, KBD_RIGHT]

/-- The other codes with a case of their own. -/
def modifierCodes : List Byte :=
  [0xE0#8, 0x8E#8, 0x2A#8, 0x36#8, 0xAA#8, 0xB6#8, 0x3A#8]

/-- The character of a make code, by the tables, Shift and Caps Lock. -/
def typed (A : DriverAddresses) (m : Mem) (sc kstate : Byte) : Byte :=
  let i : Int := sc.toNat - 1
  let ch :=
    if held kstate KBD_SHIFT then lookup keymap_shift A.keymap_shift m i
    else lookup keymap A.keymap m i
  if ISALPHA ch.toInt ∧ held kstate KBD_CAPS then
    if ISLOWER ch.toInt then ch - 32#8 else ch + 32#8
  else ch

/-- The same from the tables alone. -/
def charOf (sc : Byte) (shift caps : Bool) : Byte :=
  let ch := (if shift then keymap_shift else keymap).getD (sc.toNat - 1) 0
  if ISALPHA ch.toInt ∧ caps then if ISLOWER ch.toInt then ch - 32#8 else ch + 32#8 else ch

/-- The arguments of the callback, if `sc` calls it. -/
def called (A : DriverAddresses) (m : Mem) (sc : Byte) (k : Keys) : Option (Byte × Byte) :=
  if sc ∈ modifierCodes then none
  else if sc = 0x0E#8 then some (0, (k.next sc).kstate)
  else if sc ∈ arrowCodes then if k.extended = 0 then none else some (0, (k.next sc).kstate)
  else if sc &&& 0x80#8 = 0 ∧ typed A m sc k.kstate ≠ 0 then
    some (typed A m sc k.kstate, k.kstate)
  else none

section Machine

variable {A : DriverAddresses} {L : Layout (i386 A)} {s s' : Machine (i386 A)} {sc : Byte}

/-- The decoder's variables of the machine. -/
def keys (s : Machine (i386 A)) : Keys := ⟨(drivers s).kstate, (drivers s).extended⟩

theorem lookup_inside {table : List Byte} {base : Nat} {m : Mem} {n : Nat} (h : n < table.length) :
    lookup table base m n = table.getD n 0 := by
  unfold lookup
  rw [if_pos ⟨Int.natCast_nonneg n, by exact_mod_cast h⟩]
  rfl

/-- Up to the space bar a code is read off the tables. -/
theorem typed_eq (A : DriverAddresses) (m : Mem) (h1 : 1 ≤ sc.toNat) (h57 : sc.toNat ≤ 57)
    (kstate : Byte) :
    typed A m sc kstate = charOf sc (held kstate KBD_SHIFT) (held kstate KBD_CAPS) := by
  have hi : (sc.toNat : Int) - 1 = ((sc.toNat - 1 : Nat) : Int) := by omega
  have hl : keymap.length = 57 ∧ keymap_shift.length = 57 := by decide
  have hk : lookup keymap A.keymap m (sc.toNat - 1 : Nat) = keymap.getD (sc.toNat - 1) 0 :=
    lookup_inside (by omega)
  have hs : lookup keymap_shift A.keymap_shift m (sc.toNat - 1 : Nat) =
      keymap_shift.getD (sc.toNat - 1) 0 := lookup_inside (by omega)
  simp only [typed, charOf, hi, hk, hs]
  cases held kstate KBD_SHIFT <;> rfl

theorem next_other {k : Keys} (hm : sc ∉ modifierCodes) (hb : sc ≠ 0x0E#8) (ha : sc ∉ arrowCodes) :
    k.next sc = k := by
  simp only [modifierCodes, arrowCodes, List.mem_cons, List.not_mem_nil, or_false, not_or] at hm ha
  unfold Keys.next
  simp only [hm, ha, hb, if_false, or_self]

theorem keyboard_other (hm : sc ∉ modifierCodes) (hb : sc ≠ 0x0E#8) (ha : sc ∉ arrowCodes) :
    keyboard L sc s = if sc &&& 0x80#8 = 0 then character L sc s else some s := by
  simp only [modifierCodes, arrowCodes, List.mem_cons, List.not_mem_nil, or_false, not_or] at hm ha
  unfold keyboard
  simp only [hm, ha, hb, if_false, or_self]

theorem keyboard_arrow (h : sc ∈ arrowCodes) : ∃ bit ∈ arrowBits, ∃ pressed,
    keyboard L sc s = arrow L bit pressed s ∧ ∀ k : Keys, k.next sc = k.arrow bit pressed := by
  simp only [arrowCodes, List.mem_cons, List.not_mem_nil, or_false] at h
  rcases h with rfl | rfl | rfl | rfl | rfl | rfl | rfl | rfl
  · exact ⟨KBD_UP, by decide, true, rfl, fun _ => rfl⟩
  · exact ⟨KBD_UP, by decide, false, rfl, fun _ => rfl⟩
  · exact ⟨KBD_DOWN, by decide, true, rfl, fun _ => rfl⟩
  · exact ⟨KBD_DOWN, by decide, false, rfl, fun _ => rfl⟩
  · exact ⟨KBD_LEFT, by decide, true, rfl, fun _ => rfl⟩
  · exact ⟨KBD_LEFT, by decide, false, rfl, fun _ => rfl⟩
  · exact ⟨KBD_RIGHT, by decide, true, rfl, fun _ => rfl⟩
  · exact ⟨KBD_RIGHT, by decide, false, rfl, fun _ => rfl⟩

/-- **`keyboard` updates its variables, then calls back.** -/
theorem keyboard_eq (L : Layout (i386 A)) (sc : Byte) (s : Machine (i386 A)) :
    keyboard L sc s =
      let s' := setKeys ((keys s).next sc).kstate ((keys s).next sc).extended s
      match called A s.mem sc (keys s) with
      | none => some s'
      | some (c, kstate) => kcallback L c kstate s' := by
  have hself : setKeys (keys s).kstate (keys s).extended s = s := rfl
  unfold called
  by_cases hm : sc ∈ modifierCodes
  · rw [if_pos hm]
    simp only [modifierCodes, List.mem_cons, List.not_mem_nil, or_false] at hm
    rcases hm with rfl | rfl | rfl | rfl | rfl | rfl | rfl <;> rfl
  · rw [if_neg hm]
    by_cases hb : sc = 0x0E#8
    · subst hb
      rfl
    · rw [if_neg hb]
      by_cases ha : sc ∈ arrowCodes
      · obtain ⟨bit, -, pressed, hk, hn⟩ := keyboard_arrow (L := L) (s := s) ha
        rw [if_pos ha, hk, hn]
        unfold arrow Keys.arrow
        by_cases hx : (keys s).extended = 0
        · have hx' : (drivers s).extended = 0 := hx
          simp only [if_pos hx, if_pos hx', hself]
        · have hx' : (drivers s).extended ≠ 0 := hx
          simp only [if_neg hx, if_neg hx']
          rfl
      · rw [if_neg ha, keyboard_other hm hb ha, next_other hm hb ha]
        by_cases hbit : sc &&& 0x80#8 = 0
        · have hchar : character L sc s = if typed A s.mem sc (keys s).kstate ≠ 0 then
              kcallback L (typed A s.mem sc (keys s).kstate) (keys s).kstate s else some s := rfl
          rw [if_pos hbit, hchar]
          by_cases ht : typed A s.mem sc (keys s).kstate = 0
          · simp only [ht, ne_eq, not_true_eq_false, and_false, if_false, hself]
          · simp only [ht, hbit, ne_eq, not_false_eq_true, and_self, if_true, hself]
        · simp only [hbit, if_false, false_and, hself]

/-! ## The machine's variables -/

theorem quiet_keys (h : s.Quiet s') : keys s' = keys s :=
  congrArg₂ Keys.mk (quiet_kbd h).1 (quiet_kbd h).2

/-- The line ends in the buffer, and pokes neither variable of `kbd.c`. -/
def PokesElsewhere (A : DriverAddresses) (v : View) : Prop :=
  v.Terminated ∧ ∀ a, pokeTarget 32 v.text = some a → a ≠ A.kstate ∧ a ≠ A.extended

theorem shell_command_keys (hp : PokesElsewhere A (s.read L)) (h : shell_command L s = some s') :
    keys s' = keys s := by
  obtain ⟨t, ht, hcmd⟩ := shell_command_spec (tokenised_refl hp.1)
  have hk := ht.dev _ (keeps_kbd A (drivers s).kstate (drivers s).extended) ⟨rfl, rfl⟩
  have hkeys : keys t = keys s := congrArg₂ Keys.mk hk.1 hk.2
  split at hcmd
  · rw [hcmd] at h
    cases h
    exact hkeys
  · rename_i a ha
    obtain ⟨v, -, hv⟩ := hcmd
    rw [hv] at h
    cases h
    obtain ⟨hkstate, hextended⟩ := hp.2 a ha
    exact (congrArg₂ Keys.mk (if_neg hkstate) (if_neg hextended)).trans hkeys

theorem shell_proc_keys (hp : PokesElsewhere A (s.read L)) (h : shell_proc L s = some s') :
    keys s' = keys s := by
  obtain ⟨s1, h1, h⟩ := Option.bind_eq_some_iff.mp h
  obtain ⟨s2, h2, h⟩ := Option.bind_eq_some_iff.mp h
  cases h
  obtain ⟨t, ht, hq⟩ := Machine.printf_text_quiet (l := ['\n']) (by decide) (by decide) [] s1
  obtain rfl : t = s2 := Option.some.inj (ht.symm.trans h2)
  have hrecord : keys (shell_record L t) = keys t := rfl
  exact hrecord.trans ((quiet_keys hq).trans (shell_command_keys hp h1))

theorem kcallback_keys {c kstate : Byte} (hp : c = ch '\n' → PokesElsewhere A (s.read L))
    (h : kcallback L c kstate s = some s') : keys s' = keys s := by
  rw [kcallback_eq] at h
  cases hkey : (i386 A).key c kstate <;> rw [hkey] at h
  case newline =>
    obtain ⟨t, ht, hprompt⟩ := Option.bind_eq_some_iff.mp h
    have hline : PokesElsewhere A (((s.setpos_x 0).putc (ch '\n')).read L) := by
      rw [s.newline_quiet.read]
      exact hp (key_newline hkey)
    rw [quiet_keys (Machine.putsLit_quiet hprompt), ← quiet_keys s.newline_quiet]
    exact shell_proc_keys hline ht
  case bcksp =>
    obtain ⟨t, ht, hputs⟩ := Option.bind_eq_some_iff.mp h
    refine (quiet_keys (Machine.puts_quiet hputs)).trans ((quiet_keys (Machine.putsLit_quiet ht)).trans ?_)
    unfold Machine.setpos_x Machine.clrline
    split <;> rfl
  case up => exact quiet_keys (s := kbd_up L s) (Machine.puts_quiet h)
  case down => exact quiet_keys (s := kbd_down L s) (Machine.puts_quiet h)
  case char c => exact quiet_keys (s := kbd_char L c s) (Machine.puts_quiet h)

/-- If `sc` is Enter's, the line it submits ends in the buffer and pokes elsewhere. -/
def SparesKeys (L : Layout (i386 A)) (sc : Byte) (s : Machine (i386 A)) : Prop :=
  ∀ kstate, called A s.mem sc (keys s) = some (ch '\n', kstate) → PokesElsewhere A (s.read L)

theorem keyboard_keys (hp : SparesKeys L sc s) (h : keyboard L sc s = some s') :
    keys s' = (keys s).next sc := by
  rw [keyboard_eq] at h
  simp only at h
  split at h
  · cases h
    rfl
  · rename_i c kstate hcall
    refine kcallback_keys (fun hc => ?_) h
    rw [hc] at hcall
    rw [read_setKeys]
    exact hp kstate hcall

/-- **The machine's variables are the decoder's**, along every run that does not poke them. -/
theorem runs_keys {scs : List Byte} (hp : AtEvery (keyboard L) (SparesKeys L) scs s)
    (h : runs (keyboard L) scs s = some s') : keys s' = scs.foldl Keys.next (keys s) := by
  induction scs generalizing s with
  | nil =>
    cases h
    rfl
  | cons sc scs ih =>
    obtain ⟨hsc, hrest⟩ := atEvery_cons hp
    obtain ⟨t, ht, h⟩ := Option.bind_eq_some_iff.mp h
    rw [List.foldl_cons, ← keyboard_keys hsc ht]
    exact ih (hrest t ht) h

/-- From the first prompt on they are those of `Keys.after`. -/
theorem runs_keys_after {s₀ : Machine (i386 A)} (hinit : keys s = Keys.init) (hs₀ : shell_init L s = some s₀)
    {scs : List Byte} (hp : AtEvery (keyboard L) (SparesKeys L) scs s₀)
    (h : runs (keyboard L) scs s₀ = some s') : keys s' = Keys.after scs := by
  have hprompt : (s.clearbuf L).putsLit ['>'] = some s₀ := hs₀
  have hcleared : keys (s.clearbuf L) = keys s := rfl
  rw [runs_keys hp h, quiet_keys (Machine.putsLit_quiet hprompt), hcleared, hinit]
  rfl

end Machine

/-! ## The prefix -/

section Prefix

/-- After every prefix of the stream, the flag is 1 exactly if the last byte was 0xE0. -/
def Tracks (scs : List Byte) : Prop :=
  ∀ pre, pre <+: scs → ((Keys.after pre).extended = 1 ↔ pre.getLast? = some 0xE0#8)

/-- Every byte directly after 0xE0 is an arrow's, or 0xE0 again. -/
def ArrowsFollow (scs : List Byte) : Prop :=
  ∀ pre sc, pre ++ [0xE0#8, sc] <+: scs → sc = 0xE0#8 ∨ sc ∈ arrowCodes

theorem extended_arrow (k : Keys) (bit : Byte) (pressed : Bool) :
    (k.arrow bit pressed).extended = 0 := by
  unfold Keys.arrow
  split
  · assumption
  · rfl

/-- Only 0xE0 sets the flag, and only an arrow clears it. -/
theorem extended_next (k : Keys) (sc : Byte) :
    (k.next sc).extended =
      if sc = 0xE0#8 then 1 else if sc ∈ arrowCodes then 0 else k.extended := by
  by_cases ha : sc ∈ arrowCodes
  · obtain ⟨bit, -, pressed, -, hn⟩ := keyboard_arrow (L := lowLayout) (s := cleared) ha
    have hE : sc ≠ 0xE0#8 := fun h => absurd ha (by rw [h]; decide)
    rw [if_neg hE, if_pos ha, hn, extended_arrow]
  · rw [if_neg ha]
    simp only [arrowCodes, List.mem_cons, List.not_mem_nil, or_false, not_or] at ha
    unfold Keys.next
    simp only [ha, if_false]
    split
    · rfl
    · repeat' split
      all_goals rfl

/-- **The 0xE0 prefix.** -/
theorem extended_iff (scs : List Byte) : Tracks scs ↔ ArrowsFollow scs := by
  constructor
  · intro h pre sc hp
    by_contra hsc
    rw [not_or] at hsc
    have hsplit : pre ++ [0xE0#8, sc] = (pre ++ [0xE0#8]) ++ [sc] := by simp
    have hpre : pre ++ [0xE0#8] <+: scs := by
      rw [hsplit] at hp
      exact (List.prefix_append _ _).trans hp
    have hset : (Keys.after (pre ++ [0xE0#8])).extended = 1 := by
      apply (h _ hpre).mpr
      exact List.getLast?_concat
    -- the byte after the prefix leaves the flag set
    have hkept : (Keys.after (pre ++ [0xE0#8, sc])).extended = 1 := by
      rw [hsplit, Keys.after_snoc, extended_next, if_neg hsc.1, if_neg hsc.2, hset]
    have hlast := (h _ hp).mp hkept
    rw [hsplit, List.getLast?_concat, Option.some.injEq] at hlast
    exact hsc.1 hlast
  · intro h pre
    induction pre using List.reverseRecOn with
    | nil => exact fun _ => ⟨fun h0 => absurd h0 (by decide), fun h0 => by cases h0⟩
    | append_singleton pre sc ih =>
      intro hp
      have hpre : pre <+: scs := (List.prefix_append pre [sc]).trans hp
      rw [Keys.after_snoc, extended_next, List.getLast?_concat, Option.some.injEq]
      by_cases hE : sc = 0xE0#8
      · rw [if_pos hE]
        exact ⟨fun _ => hE, fun _ => rfl⟩
      · rw [if_neg hE]
        by_cases ha : sc ∈ arrowCodes
        · rw [if_pos ha]
          exact ⟨fun h0 => absurd h0 (by decide), fun h0 => absurd h0 hE⟩
        · rw [if_neg ha, ih hpre]
          refine ⟨fun hlast => ?_, fun h0 => absurd h0 hE⟩
          obtain ⟨init, rfl⟩ := List.getLast?_eq_some_iff.mp hlast
          have hpair : init ++ [0xE0#8] ++ [sc] = init ++ [0xE0#8, sc] := by simp
          rcases h init sc (hpair ▸ hp) with h0 | h0
          · exact absurd h0 hE
          · exact absurd h0 ha

/-- Ctrl on the right, E0 1D, leaves the flag set. -/
theorem prefix_stays : ¬∀ scs, Tracks scs := by
  intro h
  have hlast := (h [0xE0#8, 0x1D#8] [0xE0#8, 0x1D#8] (List.prefix_refl _)).mp (by decide)
  exact absurd hlast (by decide)

end Prefix

/-! ## Shift and Caps Lock -/

section Case

/-- The key of a code, by its make code. -/
def keyOf (sc : Byte) : Byte := sc &&& 0x7F#8

def IsMake (sc : Byte) : Prop := sc &&& 0x80#8 = 0

instance : DecidablePred IsMake := fun _ => inferInstanceAs (Decidable (_ = _))

/-- The key is down after the stream: its last code was a press. -/
def down (key : Byte) (scs : List Byte) : Bool :=
  scs.foldl (fun d sc => if keyOf sc = key then decide (IsMake sc) else d) false

def leftShift : Byte := 0x2A#8
def rightShift : Byte := 0x36#8
def capsLock : Byte := 0x3A#8

/-- A code of a Shift key. -/
def IsShift (sc : Byte) : Prop := keyOf sc = leftShift ∨ keyOf sc = rightShift

instance : DecidablePred IsShift := fun _ => inferInstanceAs (Decidable (_ ∨ _))

def shiftDown (scs : List Byte) : Prop := down leftShift scs ∨ down rightShift scs

/-- Caps Lock has been pressed an odd number of times. -/
def capsOn (scs : List Byte) : Prop := scs.count capsLock % 2 = 1

/-- The last code of a Shift key was a release. -/
def shiftReleased (scs : List Byte) : Prop :=
  ∃ sc, (scs.filter (IsShift ·)).getLast? = some sc ∧ ¬IsMake sc

/-- The make code of a letter. -/
def IsLetter (sc : Byte) : Prop := 1 ≤ sc.toNat ∧ ISLOWER (keymap.getD (sc.toNat - 1) 0).toInt

instance : DecidablePred IsLetter := fun _ => inferInstanceAs (Decidable (_ ∧ _))

def IsUpper (c : Byte) : Prop := ch 'A' ≤ c ∧ c ≤ ch 'Z'

instance : DecidablePred IsUpper := fun _ => inferInstanceAs (Decidable (_ ∧ _))

/-- Each letter typed along the stream calls back, in upper case exactly if one of the two
holds: a Shift key is down, Caps Lock is on. -/
def CaseRight (A : DriverAddresses) (m : Mem) (scs : List Byte) : Prop :=
  ∀ pre sc, pre ++ [sc] <+: scs → IsLetter sc →
    ∃ c kstate, called A m sc (Keys.after pre) = some (c, kstate) ∧
      (IsUpper c ↔ Xor (shiftDown pre) (capsOn pre))

/-- No letter is typed while a Shift key is down whose bit another's release has cleared. -/
def ShiftsApart (scs : List Byte) : Prop :=
  ∀ pre sc, pre ++ [sc] <+: scs → IsLetter sc → ¬(shiftDown pre ∧ shiftReleased pre)

theorem down_snoc (key : Byte) (scs : List Byte) (sc : Byte) :
    down key (scs ++ [sc]) = if keyOf sc = key then decide (IsMake sc) else down key scs := by
  unfold down
  rw [List.foldl_append]
  rfl

theorem held_or {x bit b : Byte} (h : bit &&& b = 0) : held (x ||| bit) b = held x b := by
  unfold held
  rw [BitVec.and_or_distrib_right, h]
  exact congrArg (· != 0) BitVec.or_zero

theorem held_clear {x bit b : Byte} (h : ~~~bit &&& b = b) : held (x &&& ~~~bit) b = held x b := by
  unfold held
  rw [BitVec.and_assoc, h]

theorem arrow_held {bit b : Byte} (hbit : bit ∈ arrowBits) (hb : b ∈ [KBD_SHIFT, KBD_CAPS])
    (k : Keys) (pressed : Bool) : held (k.arrow bit pressed).kstate b = held k.kstate b := by
  have hall : ∀ bit ∈ arrowBits, ∀ b ∈ [KBD_SHIFT, KBD_CAPS], bit &&& b = 0 ∧ ~~~bit &&& b = b := by
    decide
  unfold Keys.arrow
  split
  · rfl
  · cases pressed
    · exact held_clear (hall bit hbit b hb).2
    · exact held_or (hall bit hbit b hb).1

theorem isShift_iff (sc : Byte) : IsShift sc ↔ sc ∈ [0x2A#8, 0x36#8, 0xAA#8, 0xB6#8] := by
  revert sc
  decide +kernel

theorem caps_flip (x : Byte) : held (x ^^^ KBD_CAPS) KBD_SHIFT = held x KBD_SHIFT ∧
    held (x ^^^ KBD_CAPS) KBD_CAPS = !held x KBD_CAPS := by
  revert x
  decide +kernel

theorem shift_bit (x : Byte) :
    held (x ||| KBD_SHIFT) KBD_SHIFT = true ∧ held (x &&& ~~~KBD_SHIFT) KBD_SHIFT = false := by
  revert x
  decide +kernel

theorem held_next (k : Keys) (sc : Byte) :
    held (k.next sc).kstate KBD_SHIFT =
        (if IsShift sc then decide (IsMake sc) else held k.kstate KBD_SHIFT) ∧
      held (k.next sc).kstate KBD_CAPS =
        if sc = capsLock then !held k.kstate KBD_CAPS else held k.kstate KBD_CAPS := by
  by_cases ha : sc ∈ arrowCodes
  · have hall : ∀ c ∈ arrowCodes, ¬IsShift c ∧ c ≠ capsLock := by decide
    obtain ⟨bit, hbit, pressed, -, hn⟩ := keyboard_arrow (L := lowLayout) (s := cleared) ha
    rw [hn, if_neg (hall sc ha).1, if_neg (hall sc ha).2]
    exact ⟨arrow_held hbit (by simp) k pressed, arrow_held hbit (by simp) k pressed⟩
  · by_cases hm : sc ∈ modifierCodes
    · simp only [modifierCodes, List.mem_cons, List.not_mem_nil, or_false] at hm
      rcases hm with rfl | rfl | rfl | rfl | rfl | rfl | rfl
      · exact ⟨rfl, rfl⟩
      · exact ⟨held_clear rfl, held_clear rfl⟩
      · exact ⟨(shift_bit _).1, held_or rfl⟩
      · exact ⟨(shift_bit _).1, held_or rfl⟩
      · exact ⟨(shift_bit _).2, held_clear rfl⟩
      · exact ⟨(shift_bit _).2, held_clear rfl⟩
      · exact caps_flip _
    · have hm' := hm
      simp only [modifierCodes, List.mem_cons, List.not_mem_nil, or_false, not_or] at hm'
      have hs : ¬IsShift sc := by
        rw [isShift_iff]
        simp [hm']
      rw [if_neg hs, if_neg (show sc ≠ capsLock from hm'.2.2.2.2.2.2)]
      by_cases hb : sc = 0x0E#8
      · subst hb
        exact ⟨held_or rfl, held_or rfl⟩
      · rw [next_other hm hb ha]
        exact ⟨rfl, rfl⟩

theorem shiftDown_snoc (scs : List Byte) (sc : Byte) :
    shiftDown (scs ++ [sc]) ↔ if IsShift sc then
      IsMake sc ∨ (down leftShift scs ∧ keyOf sc ≠ leftShift) ∨
        (down rightShift scs ∧ keyOf sc ≠ rightShift)
      else shiftDown scs := by
  unfold shiftDown IsShift
  rw [down_snoc, down_snoc]
  by_cases hl : keyOf sc = leftShift
  · have hr : keyOf sc ≠ rightShift := by rw [hl]; decide
    simp [hl, show leftShift ≠ rightShift by decide]
  · by_cases hr : keyOf sc = rightShift
    · simp [hr, show rightShift ≠ leftShift by decide, or_comm]
    · simp [hl, hr]

theorem shiftReleased_snoc (scs : List Byte) (sc : Byte) :
    shiftReleased (scs ++ [sc]) ↔ if IsShift sc then ¬IsMake sc else shiftReleased scs := by
  unfold shiftReleased
  rw [List.filter_append]
  by_cases hk : IsShift sc
  · simp [hk]
  · simp [hk]

/-- The Shift bit is set while a Shift is down, but for one that a release has hidden. -/
theorem held_shift (scs : List Byte) :
    held (Keys.after scs).kstate KBD_SHIFT ↔ shiftDown scs ∧ ¬shiftReleased scs := by
  induction scs using List.reverseRecOn with
  | nil => exact ⟨fun h => absurd h (by decide), fun h => by rcases h.1 with h | h <;> cases h⟩
  | append_singleton scs sc ih =>
    rw [Keys.after_snoc, (held_next _ _).1, shiftDown_snoc, shiftReleased_snoc]
    by_cases hk : IsShift sc
    · simp only [if_pos hk, decide_eq_true_eq, not_not]
      exact ⟨fun hm => ⟨.inl hm, hm⟩, fun h => h.2⟩
    · simp only [if_neg hk]
      exact ih

theorem held_caps (scs : List Byte) : held (Keys.after scs).kstate KBD_CAPS ↔ capsOn scs := by
  induction scs using List.reverseRecOn with
  | nil => exact ⟨fun h => absurd h (by decide), fun h => by cases h⟩
  | append_singleton scs sc ih =>
    rw [Keys.after_snoc, (held_next _ _).2]
    unfold capsOn at *
    rw [List.count_append, List.count_singleton]
    by_cases hc : sc = capsLock
    · subst hc
      simp only [if_true, Bool.not_eq_true', beq_self_eq_true, ← Bool.not_eq_true, ih]
      omega
    · simp only [hc, if_false, beq_iff_eq, Nat.add_zero, ih]

theorem typed_letter (A : DriverAddresses) (m : Mem) {sc : Byte} (h : IsLetter sc) (kstate : Byte) :
    typed A m sc kstate ≠ 0 ∧
      (IsUpper (typed A m sc kstate) ↔ Xor (held kstate KBD_SHIFT) (held kstate KBD_CAPS)) := by
  have hall : ∀ c, IsLetter c → c.toNat ≤ 57 ∧ ∀ shift caps, charOf c shift caps ≠ 0 ∧
      (IsUpper (charOf c shift caps) ↔ (shift != caps) = true) := by decide +kernel
  rw [typed_eq A m h.1 (hall sc h).1]
  refine ⟨((hall sc h).2 _ _).1, ((hall sc h).2 _ _).2.trans ?_⟩
  cases held kstate KBD_SHIFT <;> cases held kstate KBD_CAPS <;> simp [Xor]

theorem called_letter (A : DriverAddresses) (m : Mem) {sc : Byte} (h : IsLetter sc) (k : Keys) :
    called A m sc k = some (typed A m sc k.kstate, k.kstate) := by
  have hall : ∀ c, IsLetter c → c ∉ modifierCodes ∧ c ≠ 0x0E#8 ∧ c ∉ arrowCodes ∧
      c &&& 0x80#8 = 0 := by decide +kernel
  obtain ⟨hm, hb, ha, hbit⟩ := hall sc h
  unfold called
  rw [if_neg hm, if_neg hb, if_neg ha, if_pos ⟨hbit, (typed_letter A m h k.kstate).1⟩]

/-- **The case of letters.** -/
theorem letter_case_iff (A : DriverAddresses) (m : Mem) (scs : List Byte) :
    CaseRight A m scs ↔ ShiftsApart scs := by
  -- one letter at a time
  suffices hone : ∀ pre sc, IsLetter sc →
      ((∃ c kstate, called A m sc (Keys.after pre) = some (c, kstate) ∧
        (IsUpper c ↔ Xor (shiftDown pre) (capsOn pre))) ↔ ¬(shiftDown pre ∧ shiftReleased pre)) from
    ⟨fun h pre sc hp hl => (hone pre sc hl).mp (h pre sc hp hl),
      fun h pre sc hp hl => (hone pre sc hl).mpr (h pre sc hp hl)⟩
  intro pre sc hl
  have hup := (typed_letter A m hl (Keys.after pre).kstate).2
  rw [held_shift, held_caps] at hup
  rw [called_letter A m hl]
  simp only [Option.some.injEq, Prod.mk.injEq]
  constructor
  · rintro ⟨_, _, ⟨rfl, rfl⟩, hc⟩ ⟨hd, hr⟩
    rw [hup] at hc
    simp only [Xor, hd, hr, not_true_eq_false, and_false, false_and, not_false_eq_true, and_true,
      or_false, false_or] at hc
    by_cases hcaps : capsOn pre
    · exact (hc.mp hcaps).2 hcaps
    · exact hcaps (hc.mpr ⟨trivial, hcaps⟩)
  · intro hn
    refine ⟨_, _, ⟨rfl, rfl⟩, ?_⟩
    rw [hup, show (shiftDown pre ∧ ¬shiftReleased pre) ↔ shiftDown pre from
      ⟨fun h => h.1, fun h => ⟨h, fun hr => hn ⟨h, hr⟩⟩⟩]

/-- Each key's presses and releases alternate, from the press on. -/
def Alternating (scs : List Byte) : Prop :=
  ∀ pre sc, pre ++ [sc] <+: scs → (IsMake sc ↔ down (keyOf sc) pre = false)

/-- Both Shifts pressed and the right one released, then A. -/
theorem shift_hidden : ¬∀ (A : DriverAddresses) (m : Mem) (scs : List Byte), Alternating scs →
    (∀ sc ∈ scs, keyOf sc ∈ [leftShift, rightShift, capsLock] ∨ IsLetter (keyOf sc)) →
    CaseRight A m scs := by
  intro h
  have hcase := h lowDrivers (fun _ => 0) [0x2A#8, 0x36#8, 0xB6#8, 0x1E#8] (fun pre sc hp => ?_)
    (by decide)
  · obtain ⟨c, kstate, hc, hup⟩ := hcase [0x2A#8, 0x36#8, 0xB6#8] 0x1E#8 (List.prefix_refl _)
      (by decide)
    have hlower : called lowDrivers (fun _ => 0) 0x1E#8 (Keys.after [0x2A#8, 0x36#8, 0xB6#8]) =
      some (ch 'a', 0) := by decide
    rw [hlower, Option.some.injEq, Prod.mk.injEq] at hc
    rw [← hc.1] at hup
    exact absurd (hup.mpr (.inl ⟨by unfold shiftDown; decide, by unfold capsOn; decide⟩)) (by decide)
  · rcases pre with _ | ⟨a, _ | ⟨b, _ | ⟨c, _ | ⟨d, pre⟩⟩⟩⟩ <;>
      simp only [List.nil_append, List.cons_append, List.cons_prefix_cons, List.append_eq_nil_iff,
        List.prefix_nil, List.nil_prefix, and_true, reduceCtorEq, and_false] at hp
    · rw [hp]
      decide
    · obtain ⟨rfl, rfl⟩ := hp
      decide
    · obtain ⟨rfl, rfl, rfl⟩ := hp
      decide
    · obtain ⟨rfl, rfl, rfl, rfl⟩ := hp
      decide

end Case

end Osdev2.I386
