import Osdev2.Kernel.Poke
import Osdev2.Libk.Message
import Osdev2.Aarch64.Platform
import Osdev2.Lib.Emits

/-!
# A session at the shell (`kernel/shell.c`)

A `Session` is the shell as its user has it before him: the variables without their addresses, and a
console, over a memory that `peek` and `poke` look at and change. `echo` is what a key displays and
`reply` the answer to a line's words. `session_refines`: along every run that stays within the
history and peeks and pokes free memory, `kcallback` does to the machine what
`Session.onEvent` says, character by character and byte by byte.

`Reserved` is what is not free besides the shell's variables: `olds` and the drivers' variables, which
the code keeps in memory and the machine beside it, and the code, the stack and the devices. Of its
bytes nothing is said. The console functions have to work on their part of memory alone (`Local`).
-/

namespace Osdev2.Kernel

open Osdev2.Lib Osdev2.Libk

/-- What the console functions work on. -/
abbrev Platform.Con (P : Platform) := Mem × P.Dev

/-! ## The answers -/

section Answers

variable {P : Platform}

def say (l : List Byte) (t : P.Con) : P.Con := l.foldl (fun t c => P.putc c t) t

/-- The `int` that a word is read as. -/
def intValue (W : Nat) (word : List Byte) : BitVec 32 := (parseInt W (strOf word)).getD 0

def replyPeek (args : List (List Byte)) (t : P.Con) : P.Con :=
  match args with
  | [] => say (['U', 's', 'a', 'g', 'e', ':', ' ', 'p', 'e', 'e', 'k', ' ', '<', 'l', 'o', 'c', 'a', 't', 'i',
      'o', 'n', '>'].map ch) t
  | arg :: _ =>
    let mem := intValue P.W arg
    say (hexText 8 mem.toNat ++ [':', ' '].map ch ++ hexText 2 (t.1 (intPtr P.W mem)).toNat) t

def replyPoke (args : List (List Byte)) (t : P.Con) : P.Con :=
  match args with
  | arg :: val :: _ =>
    let mem := intValue P.W arg
    let val := intValue P.W val
    let t := say (hexText 8 mem.toNat ++ [' ', '=', ' '].map ch ++ pairText val.toNat) t
    (Function.update t.1 (intPtr P.W mem) (val.setWidth 8), t.2)
  | _ => say (['U', 's', 'a', 'g', 'e', ':', ' ', 'p', 'o', 'k', 'e', ' ', '<', 'l', 'o', 'c', 'a', 't', 'i',
      'o', 'n', '>', ' ', '<', 'v', 'a', 'l', 'u', 'e', '>'].map ch) t

/-- The answer to a line with these words. -/
def reply (ws : List (List Byte)) (t : P.Con) : P.Con :=
  match ws with
  | [] => t
  | cmd :: args =>
    if cmd = PEEK then replyPeek args t
    else if cmd = POKE then replyPoke args t
    else say (['U', 'n', 'k', 'n', 'o', 'w', 'n', ' ', 'c', 'o', 'm', 'm', 'a', 'n', 'd', ':',
      ' '].map ch ++ cmd) t

/-- What a key displays. -/
def echo (k : Key) (v : View) (t : P.Con) : P.Con :=
  match k with
  | .newline => say (['\n', '>'].map ch) (reply (words v.text) (P.putc (ch '\n') (P.setpos_x 0 t)))
  | .bcksp => say (ch '>' :: (v.step k).text) (P.setpos_x 0 (P.clrline t))
  | _ => say (v.step k).text (P.setpos_x PROMPT_LEN t)

/-- The address that a line peeks or pokes. -/
def lineTarget (W : Nat) : List (List Byte) → Option Nat
  | cmd :: arg :: args =>
    if cmd = PEEK ∨ cmd = POKE ∧ args ≠ [] then some (intPtr W (intValue W arg)) else none
  | _ => none

end Answers

/-! ## Free memory -/

/-- The bytes that belong to neither the shell nor the console. -/
structure Reserved {P : Platform} (L : Layout P) where
  /-- `olds` of `strtok`. -/
  olds : Nat
  /-- The drivers' variables, the code, the stack of each call, the registers of devices, and what
  is no memory. -/
  rest : Nat → Prop
  drivers : ∀ a, ¬rest a → ∀ v d, P.storeDev a v d = d
  apart : ∀ a, (olds ≤ a ∧ a < olds + P.W / 8) ∨ rest a → ¬P.window a ∧ ∀ x, a ≠ L.addr x

/-- Any other byte, the console's among them. -/
structure Reserved.Free {P : Platform} {L : Layout P} (R : Reserved L) (a : Nat) : Prop where
  shell : ∀ x, a ≠ L.addr x
  olds : ¬(R.olds ≤ a ∧ a < R.olds + P.W / 8)
  rest : ¬R.rest a

/-! ## The console and the shell's variables -/

section Alike

variable {P : Platform}

/-- The same to the console functions. -/
structure SameScreen (t t' : P.Con) : Prop where
  dev : t.2 = t'.2
  mem : ∀ a, P.window a → t.1 a = t'.1 a

/-- The console functions work on their part of memory alone. -/
structure Local (P : Platform) : Prop where
  putc : ∀ c {t t' : P.Con}, SameScreen t t' → SameScreen (P.putc c t) (P.putc c t')
  setpos_x : ∀ x {t t' : P.Con}, SameScreen t t' → SameScreen (P.setpos_x x t) (P.setpos_x x t')
  clrline : ∀ {t t' : P.Con}, SameScreen t t' → SameScreen (P.clrline t) (P.clrline t')

variable {L : Layout P} {R : Reserved L}

theorem Reserved.free_of_window {a : Nat} (ha : P.window a) : R.Free a where
  shell x hx := L.outside x (hx ▸ ha)
  olds h := (R.apart a (.inl h)).1 ha
  rest h := (R.apart a (.inr h)).1 ha

/-- The same console and the same free memory. -/
structure Alike (R : Reserved L) (t t' : P.Con) : Prop where
  dev : t.2 = t'.2
  mem : ∀ a, R.Free a → t.1 a = t'.1 a

variable {t t' : P.Con} {s : Machine P}

theorem Alike.refl (t : P.Con) : Alike R t t := ⟨rfl, fun _ _ => rfl⟩

theorem Alike.map {f : P.Con → P.Con} (hframe : ∀ t a, ¬P.window a → (f t).1 a = t.1 a)
    (hlocal : ∀ {t t'}, SameScreen t t' → SameScreen (f t) (f t')) (h : Alike R t t') :
    Alike R (f t) (f t') := by
  have hsame : SameScreen t t' := ⟨h.dev, fun a ha => h.mem a (Reserved.free_of_window ha)⟩
  refine ⟨(hlocal hsame).dev, fun a ha => ?_⟩
  by_cases hw : P.window a
  · exact (hlocal hsame).mem a hw
  · rw [hframe t a hw, hframe t' a hw, h.mem a ha]

theorem Alike.putc (hP : Local P) (c : Byte) (h : Alike R t t') : Alike R (P.putc c t) (P.putc c t') :=
  h.map (P.putc_frame c) (hP.putc c)

theorem Alike.setpos_x (hP : Local P) (x : Byte) (h : Alike R t t') :
    Alike R (P.setpos_x x t) (P.setpos_x x t') := h.map (P.setpos_x_frame x) (hP.setpos_x x)

theorem Alike.clrline (hP : Local P) (h : Alike R t t') : Alike R (P.clrline t) (P.clrline t') :=
  h.map P.clrline_frame hP.clrline

theorem Alike.say (hP : Local P) (l : List Byte) (h : Alike R t t') : Alike R (say l t) (say l t') := by
  induction l generalizing t t' with
  | nil => exact h
  | cons c l ih => exact ih (h.putc hP c)

/-- What the shell does to its own variables does not show. -/
theorem Alike.write (h : Alike R (s.mem, s.dev) t) (x : Static) (v : Byte) :
    Alike R ((s.write L x v).mem, (s.write L x v).dev) t :=
  ⟨h.dev, fun a ha => (Function.update_of_ne (ha.shell x) _ _).trans (h.mem a ha)⟩

theorem Alike.mem_congr {m : Mem} {d : P.Dev} (h : Alike R (s.mem, s.dev) t) (hd : d = s.dev)
    (hm : ∀ a, R.Free a → m a = s.mem a) : Alike R (m, d) t :=
  ⟨hd.trans h.dev, fun a ha => (hm a ha).trans (h.mem a ha)⟩

theorem Alike.clearbuf (h : Alike R (s.mem, s.dev) t) :
    Alike R ((s.clearbuf L).mem, (s.clearbuf L).dev) t :=
  h.mem_congr rfl fun a ha => by
    simp only [Machine.clearbuf, memset_apply, if_neg (not_shellbuf ha.shell)]

theorem Alike.loadRow (h : Alike R (s.mem, s.dev) t) (row : Int) :
    Alike R ((s.loadRow L row).mem, (s.loadRow L row).dev) t :=
  h.mem_congr rfl fun _ ha => memcpy_outside _ (not_shellbuf ha.shell)

theorem Alike.saveRow (h : Alike R (s.mem, s.dev) t) (row : Byte) :
    Alike R ((s.saveRow L row.toNat).mem, (s.saveRow L row.toNat).dev) t :=
  h.mem_congr rfl fun _ ha => memcpy_outside _ (not_row ha.shell row)

theorem Alike.record (h : Alike R (s.mem, s.dev) t) :
    Alike R ((shell_record L s).mem, (shell_record L s).dev) t := by
  unfold shell_record
  refine Alike.write (Alike.write (Alike.clearbuf ?_) _ _) _ _
  exact (h.saveRow _).write (.shellptr_hist _) _

end Alike

/-! ## Printing -/

section Printing

variable {P : Platform} {L : Layout P} {s : Machine P} {t : P.Con}

theorem printf_shows (hW : P.W = 32 ∨ P.W = 64) {ps : List Part} {format : List Char} {args : List Nat}
    (hf : formatOf (pieces ps) = format.map ch) (hlen : format.length < 2 ^ 31)
    (hs : stringArgs (fun i => args.getD i 0) ps 0 = []) (s : Machine P) :
    s.printf format args =
      some (s.console (say (message (fun _ => []) (fun i => args.getD i 0) ps 0))) := by
  rw [Machine.printf, printf_numbers hW hf hlen hs]
  rfl

theorem printf_pair_shows (hW : P.W = 32 ∨ P.W = 64) (sep : List Char)
    (hsep : ∀ c ∈ sep.map ch, c ≠ 0 ∧ c ≠ ch '%') (hlen : sep.length < 2 ^ 30) {m v : Nat} (hm : m < 2 ^ 32)
    (hv : v < 2 ^ 32) (s : Machine P) :
    s.printf (['%', '0', '8', 'X'] ++ sep ++ ['%', '0', '2', 'X']) [m, v] =
      some (s.console (say (hexText 8 m ++ sep.map ch ++ numberText .X [2] v))) := by
  have hf : formatOf (pieces [.number .X [8], .text sep hsep, .number .X [2]]) =
      (['%', '0', '8', 'X'] ++ sep ++ ['%', '0', '2', 'X']).map ch := by
    rw [formatOf_pieces_cons, formatOf_pieces_cons, Part.pieces, formatOf_pmap, List.map_append,
      List.map_append, List.append_assoc]
    rfl
  refine (printf_shows hW hf ?_ rfl s).trans ?_
  · simp only [List.length_append, List.length_cons, List.length_nil]
    omega
  · have hhex : numberText .X [8] m = hexText 8 m := numberText_hexText (w := 7) (by decide) hm
    simp only [message, Part.chars, Part.takes, List.getD_cons_zero, List.getD_cons_succ, Nat.add_zero,
      Nat.zero_add, Nat.mod_eq_of_lt hm, Nat.mod_eq_of_lt hv, hhex, List.append_nil, List.append_assoc]

theorem printf_unknown_shows (hW : P.W = 32 ∨ P.W = 64) {word : List Byte} {p : Nat}
    (hl : word.length < 2 ^ P.W) (htext : IsText (s.mem.at P.W p) word)
    (hw : ∀ i, i ≤ word.length → ¬P.window (ptrAdd P.W p i)) :
    s.printf ['U', 'n', 'k', 'n', 'o', 'w', 'n', ' ', 'c', 'o', 'm', 'm', 'a', 'n', 'd', ':', ' ', '%', 's'] [p] =
      some (s.console (say (['U', 'n', 'k', 'n', 'o', 'w', 'n', ' ', 'c', 'o', 'm', 'm', 'a', 'n', 'd', ':',
        ' '].map ch ++ word))) := by
  let ps : List Part := [.text ['U', 'n', 'k', 'n', 'o', 'w', 'n', ' ', 'c', 'o', 'm', 'm', 'a', 'n', 'd', ':',
    ' '], .string]
  let I : P.Con → Prop := fun t => ∀ i, i ≤ word.length → t.1 (ptrAdd P.W p i) = s.mem (ptrAdd P.W p i)
  have hprint := @printf_message _ P.console P.W I hW
    (fun c t hI i hi => (P.putc_frame c t _ (hw i hi)).trans (hI i hi)) (fun _ => word)
    (fun i => [p].getD i 0) ps (s.mem, s.dev) (fun _ _ => rfl) (fun q hq => by
      obtain rfl : q = p := List.mem_singleton.mp hq
      exact ⟨hl, fun t hI => htext.congr fun i hi => hI i hi⟩) (by decide)
  have hmessage : message (fun _ => word) (fun i => [p].getD i 0) ps 0 = ['U', 'n', 'k', 'n', 'o', 'w', 'n', ' ',
      'c', 'o', 'm', 'm', 'a', 'n', 'd', ':', ' '].map ch ++ word := by
    simp only [ps, message, Part.chars, List.append_nil]
  rw [hmessage] at hprint
  have hformat : lit ['U', 'n', 'k', 'n', 'o', 'w', 'n', ' ', 'c', 'o', 'm', 'm', 'a', 'n', 'd', ':', ' ', '%',
      's'] = strOf (formatOf (pieces ps)) := rfl
  rw [Machine.printf, hformat, hprint]
  rfl

end Printing

/-! ## The command of a line -/

section Command

variable {P : Platform} {L : Layout P} {R : Reserved L} {s s' : Machine P} {l : Line} {t : P.Con}

/-- `shellbuf` is the line `l` of `strtok`, and the rest is as the user has it. -/
structure Serves (R : Reserved L) (l : Line) (t : P.Con) (s : Machine P) : Prop where
  line : l.At s.mem L.shellbuf
  short : l.bytes.length ≤ 255
  alike : Alike R (s.mem, s.dev) t

theorem say_frame (text : List Byte) (t : P.Con) {a : Nat} (ha : ¬P.window a) : (say text t).1 a = t.1 a := by
  induction text generalizing t with
  | nil => rfl
  | cons c text ih => exact (ih (P.putc c t)).trans (P.putc_frame c t a ha)

theorem Serves.say (hP : Local P) (h : Serves R l t s) (text : List Byte) :
    Serves R l (say text t) (s.console (say text)) := by
  have hshort := h.short
  refine ⟨⟨fun i hi => ?_, h.line.noNul⟩, h.short, h.alike.say hP text⟩
  exact (say_frame text _ (shellbuf_mapped L (by omega)).2).trans (h.line.reads i hi)

theorem firstToken_bounds (delim : List Byte) (q : Nat) (m : Mem) (text : List Byte) :
    (firstToken delim q m text).token = 0 ∨
      q ≤ (firstToken delim q m text).token ∧ (firstToken delim q m text).token ≤ q + text.length := by
  have hle : text.findIdx (!delim.contains ·) ≤ text.length := List.findIdx_le_length
  simp only [firstToken]
  split
  · exact Or.inl rfl
  · right
    split <;> (constructor <;> (simp only; omega))

theorem Serves.strtok {p : Nat} (h : Serves R l t s)
    (hp : (if p = 0 then s.olds else p) = L.shellbuf + l.past.length) :
    ∃ tok s', s.strtok p = some (tok, s') ∧ Serves R (nextWord l).2 t s' ∧
      s'.olds = L.shellbuf + (nextWord l).2.past.length ∧ ((nextWord l).1 = [] → tok = 0) ∧
      ((nextWord l).1 ≠ [] → tok ≠ 0 ∧ IsText (s'.mem.at P.W tok) (nextWord l).1 ∧
        ∀ i, i ≤ (nextWord l).1.length → ¬P.window (ptrAdd P.W tok i)) := by
  have hshort := h.short
  have hmapped := (shellbuf_mapped L hshort).1
  have hlen : (nextWord l).2.bytes.length = l.bytes.length := Line.next_length _ _
  have hb : l.bytes.length = l.past.length + l.rest.length := List.length_append
  obtain ⟨u, hu, hc⟩ : ∃ u, Libk.strtok P.W p [ch ' '] s.olds s.mem = some u ∧
      Line.Called P.W L.shellbuf [ch ' '] s.mem l u := strtok_line h.line hmapped L.nonnull hp
  obtain rfl : u = firstToken [ch ' '] (L.shellbuf + l.past.length) s.mem l.rest :=
    Option.some.inj (hu.symm.trans (strtok_eq (h.line.text hmapped) (by omega) hp))
  have hbounds := firstToken_bounds [ch ' '] (L.shellbuf + l.past.length) s.mem l.rest
  generalize firstToken [ch ' '] (L.shellbuf + l.past.length) s.mem l.rest = u at hu hc hbounds
  have hframe : ∀ a, R.Free a → u.mem a = s.mem a := fun a ha =>
    hc.frame a fun hr => not_shellbuf ha.shell ⟨hr.1, by omega⟩
  refine ⟨u.token, { s with mem := u.mem, olds := u.olds }, ?_,
    ⟨hc.line, hlen ▸ hshort, h.alike.mem_congr rfl hframe⟩, hc.olds, hc.null, fun hne => ?_⟩
  · rw [Machine.strtok, hu]
    rfl
  · obtain ⟨h0, htext⟩ := hc.token hne
    obtain ⟨hge, hle⟩ := hbounds.resolve_left h0
    refine ⟨h0, htext, fun i hi => ?_⟩
    -- the word ends at the line's NUL at the latest
    have hend : u.mem (L.shellbuf + l.bytes.length) = 0 := by
      have hnul := hc.line.reads _ (Nat.le_refl _)
      rw [List.getD_eq_default _ _ (Nat.le_refl _)] at hnul
      rwa [Line.next_length] at hnul
    have hword : u.token + (nextWord l).1.length ≤ L.shellbuf + l.bytes.length := by
      by_contra hgt
      refine htext.ne_zero (i := L.shellbuf + l.bytes.length - u.token) (by
        unfold nextWord at hgt
        omega) ?_
      rw [Mem.at_eq (by omega), show u.token + (L.shellbuf + l.bytes.length - u.token) =
        L.shellbuf + l.bytes.length by omega]
      exact hend
    rw [ptrAdd_of_lt (by omega), show u.token + i = L.shellbuf + (u.token + i - L.shellbuf) by omega]
    exact (shellbuf_mapped L (by omega)).2

theorem Serves.take {p : Nat} {w : List Byte} {ws : List (List Byte)} (h : Serves R l t s)
    (hp : (if p = 0 then s.olds else p) = L.shellbuf + l.past.length) (hw : words l.rest = w :: ws) :
    ∃ tok s' l', s.strtok p = some (tok, s') ∧ tok ≠ 0 ∧ IsText (s'.mem.at P.W tok) w ∧ w.length ≤ 255 ∧
      (∀ i, i ≤ w.length → ¬P.window (ptrAdd P.W tok i)) ∧ Serves R l' t s' ∧
      s'.olds = L.shellbuf + l'.past.length ∧ words l'.rest = ws := by
  obtain ⟨rfl, hne, hws⟩ := words_cons hw
  obtain ⟨tok, s', hs', h', ho, -, htok⟩ := h.strtok hp
  obtain ⟨h0, htext, hwindow⟩ := htok hne
  have hlen : (nextWord l).1.length ≤ 255 := Nat.le_trans (Line.next_token_length _ _) h.short
  exact ⟨tok, s', _, hs', h0, htext, hlen, hwindow, h', ho, hws⟩

theorem Serves.exhausted {p : Nat} (h : Serves R l t s)
    (hp : (if p = 0 then s.olds else p) = L.shellbuf + l.past.length) (hw : words l.rest = []) :
    ∃ s' l', s.strtok p = some (0, s') ∧ Serves R l' t s' := by
  have hnil : (nextWord l).1 = [] := by
    rw [words_next] at hw
    by_contra hne
    rw [if_neg hne] at hw
    cases hw
  obtain ⟨tok, s', hs', h', -, hnull, -⟩ := h.strtok hp
  exact ⟨s', _, hnull hnil ▸ hs', h'⟩

theorem Serves.parseInt {W : Nat} (hW : 32 ≤ W) {str : CStr} {word : List Byte} (h : IsText str word)
    (hl : word.length ≤ 255) : Kernel.parseInt W str = some (intValue W word) := by
  obtain ⟨n, hn, hn'⟩ := parseInt_text h hW hl
  rw [hn, intValue, hn']
  rfl

theorem Serves.peek (hP : Local P) (hW : P.W = 32 ∨ P.W = 64) (h : Serves R l t s)
    (ho : s.olds = L.shellbuf + l.past.length)
    (hfree : ∀ a, lineTarget P.W (PEEK :: words l.rest) = some a → R.Free a) :
    ∃ s' l', cmd_peek s = some s' ∧ Serves R l' (replyPeek (words l.rest) t) s' := by
  cases hws : words l.rest with
  | nil =>
    obtain ⟨s1, l1, hs1, h1⟩ := h.exhausted (p := 0) ho hws
    refine ⟨_, l1, ?_, h1.say hP _⟩
    simp only [cmd_peek, hs1, Option.bind_eq_bind, Option.bind_some, if_true]
    exact Machine.printf_eq (by decide) (by decide) s1
  | cons arg ws =>
    obtain ⟨tok, s1, l1, hs1, h0, htext, hl, -, h1, -, -⟩ := h.take (p := 0) ho hws
    have hmem : s1.mem (intPtr P.W (intValue P.W arg)) = t.1 (intPtr P.W (intValue P.W arg)) := by
      refine h1.alike.mem _ (hfree _ ?_)
      rw [hws, lineTarget, if_pos (Or.inl rfl)]
    have hbyte := (s1.mem (intPtr P.W (intValue P.W arg))).isLt
    have hprint := printf_pair_shows hW [':', ' '] (by decide) (by decide)
      (intValue P.W arg).isLt (show (s1.mem (intPtr P.W (intValue P.W arg))).toNat < 2 ^ 32 by omega) s1
    rw [numberText_hexText (w := 1) (by decide) (by omega)] at hprint
    refine ⟨_, l1, ?_, h1.say hP _⟩
    simp only [cmd_peek, hs1, Option.bind_eq_bind, Option.bind_some, if_neg h0,
      Serves.parseInt P.wide htext hl]
    rw [← hmem]
    exact hprint

theorem Serves.stored {a : Nat} {v : Byte} (h : Serves R l t s) (ha : R.Free a) :
    Serves R l (Function.update t.1 a v, t.2) (s.poke a v) := by
  have hshort := h.short
  have hdev : (s.poke a v).dev = t.2 := (R.drivers a ha.rest v s.dev).trans h.alike.dev
  refine ⟨⟨fun i hi => ?_, h.line.noNul⟩, hshort, hdev, fun b hb => ?_⟩
  · have hne : L.shellbuf + i ≠ a := fun heq => not_shellbuf ha.shell ⟨by omega, by omega⟩
    exact (Function.update_of_ne hne _ _).trans (h.line.reads i hi)
  · simp only [Machine.poke, Function.update_apply]
    split
    · rfl
    · exact h.alike.mem b hb

theorem Serves.poke (hP : Local P) (hW : P.W = 32 ∨ P.W = 64) (h : Serves R l t s)
    (ho : s.olds = L.shellbuf + l.past.length)
    (hfree : ∀ a, lineTarget P.W (POKE :: words l.rest) = some a → R.Free a) :
    ∃ s' l', cmd_poke s = some s' ∧ Serves R l' (replyPoke (words l.rest) t) s' := by
  cases hws : words l.rest with
  | nil =>
    obtain ⟨s1, l1, hs1, h1⟩ := h.exhausted (p := 0) ho hws
    refine ⟨_, l1, ?_, h1.say hP _⟩
    simp only [cmd_poke, hs1, Option.bind_eq_bind, Option.bind_some, if_true]
    exact Machine.printf_eq (by decide) (by decide) s1
  | cons arg ws =>
    obtain ⟨tok, s1, l1, hs1, h0, htext, hl, -, h1, ho1, hws1⟩ := h.take (p := 0) ho hws
    cases hws2 : ws with
    | nil =>
      obtain ⟨s2, l2, hs2, h2⟩ := h1.exhausted (p := 0) ho1 (hws1.trans hws2)
      refine ⟨_, l2, ?_, h2.say hP _⟩
      simp only [cmd_poke, hs1, hs2, Option.bind_eq_bind, Option.bind_some, if_neg h0, if_true,
        Serves.parseInt P.wide htext hl]
      exact Machine.printf_eq (by decide) (by decide) s2
    | cons val ws' =>
      obtain ⟨tok2, s2, l2, hs2, h02, htext2, hl2, -, h2, -, -⟩ := h1.take (p := 0) ho1 (hws1.trans hws2)
      have hprint := printf_pair_shows hW [' ', '=', ' '] (by decide) (by decide)
        (intValue P.W arg).isLt (intValue P.W val).isLt s2
      have htarget : R.Free (intPtr P.W (intValue P.W arg)) := hfree _ (by
        rw [hws, hws2, lineTarget, if_pos (Or.inr ⟨rfl, List.cons_ne_nil _ _⟩)])
      refine ⟨_, l2, ?_, (h2.say hP _).stored htarget⟩
      simp only [cmd_poke, hs1, hs2, Option.bind_eq_bind, Option.bind_some, if_neg h0, if_neg h02,
        Serves.parseInt P.wide htext hl, Serves.parseInt P.wide htext2 hl2, Option.pure_def]
      rw [show s2.printf ['%', '0', '8', 'X', ' ', '=', ' ', '%', '0', '2', 'X']
        [(intValue P.W arg).toNat, (intValue P.W val).toNat] = _ from hprint]
      rfl

/-- **The command.** -/
theorem Serves.command (hP : Local P) (hW : P.W = 32 ∨ P.W = 64) {text : List Byte}
    (h : Serves R ⟨[], text⟩ t s) (hne : words text ≠ [])
    (hfree : ∀ a, lineTarget P.W (words text) = some a → R.Free a) :
    ∃ s' l', shell_command L s = some s' ∧ Serves R l' (reply (words text) t) s' := by
  have hp : (if L.shellbuf = 0 then s.olds else L.shellbuf) = L.shellbuf + ([] : List Byte).length :=
    if_neg (by have := L.nonnull; omega)
  cases hws : words text with
  | nil => exact absurd hws hne
  | cons cmd args =>
    obtain ⟨tok, s1, l1, hs1, h0, htext, hl, hwindow, h1, ho1, hws1⟩ := h.take hp hws
    have hhash := shell_hash_text P.wide htext
    simp only [shell_command, hs1, hhash, Option.bind_eq_bind, Option.bind_some, reply]
    rw [hws] at hfree
    by_cases hcmd : cmd = PEEK
    · rw [if_pos hcmd, if_pos rfl, if_pos hcmd, ← hws1]
      rw [hcmd, ← hws1] at hfree
      exact h1.peek hP hW ho1 hfree
    · rw [if_neg hcmd, if_neg hcmd]
      by_cases hcmd' : cmd = POKE
      · rw [if_pos hcmd', if_neg (by decide), if_pos rfl, if_pos hcmd', ← hws1]
        rw [hcmd', ← hws1] at hfree
        exact h1.poke hP hW ho1 hfree
      · rw [if_neg hcmd', if_neg (by decide), if_neg (by decide), if_neg hcmd']
        have hW2 : 2 ^ 32 ≤ 2 ^ P.W := Nat.pow_le_pow_right (by decide) P.wide
        exact ⟨_, l1, printf_unknown_shows hW (by omega) htext hwindow, h1.say hP _⟩

/-- Such a line pokes none of the shell's variables. -/
theorem harmless_of_target {text : List Byte} (h : ∀ a, lineTarget P.W (words text) = some a → R.Free a) :
    View.Harmless L text := by
  intro x hx
  refine (h (L.addr x) ?_).shell x rfl
  have h1 := words_next ⟨[], text⟩
  have h2 := words_next (nextWord ⟨[], text⟩).2
  have h3 := words_next (nextWord (nextWord ⟨[], text⟩).2).2
  simp only [pokeTarget] at hx
  split at hx
  · rename_i hargs
    obtain ⟨hcmd, harg, hval⟩ := hargs
    obtain ⟨n, hn, ha⟩ := Option.map_eq_some_iff.mp hx
    rw [if_neg hval] at h3
    rw [if_neg harg, h3] at h2
    rw [hcmd, if_neg (by decide), h2] at h1
    rw [h1, lineTarget, if_pos (Or.inr ⟨rfl, List.cons_ne_nil _ _⟩), intValue, hn, Option.getD_some, ha]
  · cases hx

end Command

/-! ## The session -/

/-- The shell's variables, and the console with the free memory. The other bytes of this memory mean
nothing. -/
structure Session (P : Platform) where
  view : View
  console : P.Con

section Session

variable {P : Platform} {L : Layout P} {R : Reserved L} {s s' : Machine P} {t : P.Con}

def Session.onEvent (t : Session P) (e : Event) : Session P :=
  ⟨t.view.step (P.key e.1 e.2), echo (P.key e.1 e.2) t.view t.console⟩

/-- The machine is the session, its variables in memory. -/
structure Session.In (R : Reserved L) (t : Session P) (s : Machine P) : Prop where
  view : s.read L = t.view
  alike : Alike R (s.mem, s.dev) t.console

/-- The line keeps its NUL, no row outside the history is read, and a line that is submitted has a
word and goes to free memory. -/
def SessionOk (R : Reserved L) (t : Session P) (e : Event) : Prop :=
  (t.view.step (P.key e.1 e.2)).Terminated ∧
    match P.key e.1 e.2 with
    | .newline => t.view.Terminated ∧ words t.view.text ≠ [] ∧
        ∀ a, lineTarget P.W (words t.view.text) = some a → R.Free a
    | .up => t.view .histptr ≠ 0#8
    | .down => t.view .histptr ≠ 255#8
    | _ => True

theorem SessionOk.guard {t : Session P} {e : Event} (h : SessionOk R t e) :
    View.Guard L (P.key e.1 e.2) t.view := by
  have hkey := h.2
  cases hk : P.key e.1 e.2 <;> rw [hk] at hkey
  case newline => exact ⟨hkey.1, harmless_of_target hkey.2.2⟩
  case up | down => exact hkey
  all_goals trivial

theorem puts_shellbuf_alike (hP : Local P) {v : View} (hv : v.Terminated) (hread : s.read L = v)
    (h : Alike R (s.mem, s.dev) t) (hs' : s.puts L.shellbuf = some s') :
    Alike R (s'.mem, s'.dev) (say v.text t) := by
  subst hread
  rw [puts_shellbuf_eq hv] at hs'
  cases hs'
  exact h.say hP _

theorem kbd_bcksp_alike (hP : Local P) (h : Alike R (s.mem, s.dev) t) (hs' : kbd_bcksp L s = some s') :
    Alike R (s'.mem, s'.dev) (say (['>'].map ch) (P.setpos_x 0 (P.clrline t))) := by
  unfold kbd_bcksp at hs'
  rw [Machine.putsLit_eq (by decide) (by decide)] at hs'
  cases hs'
  refine Alike.say hP (['>'].map ch) (Alike.setpos_x hP 0 (Alike.clrline hP (Alike.write ?_ _ _)))
  split
  · exact h.write _ _
  · exact h

theorem newline_alike (hP : Local P) (hW : P.W = 32 ∨ P.W = 64) {v : View} (hv : v.Terminated)
    (hread : s.read L = v) (h : Alike R (s.mem, s.dev) t) (hne : words v.text ≠ [])
    (hfree : ∀ a, lineTarget P.W (words v.text) = some a → R.Free a)
    (hs' : (shell_proc L ((s.setpos_x 0).putc (ch '\n'))).bind (·.putsLit ['>']) = some s') :
    Alike R (s'.mem, s'.dev) (echo .newline v t) := by
  have hread' : ((s.setpos_x 0).putc (ch '\n')).read L = v := by
    rw [s.newline_quiet.read, hread]
  have hserves : Serves R ⟨[], v.text⟩ (P.putc (ch '\n') (P.setpos_x 0 t))
      ((s.setpos_x 0).putc (ch '\n')) := by
    have htok := tokenised_refl (hread' ▸ hv)
    rw [hread'] at htok
    exact ⟨htok.line, htok.short, (h.setpos_x hP 0).putc hP (ch '\n')⟩
  obtain ⟨s1, l1, hs1, h1⟩ := hserves.command hP hW hne hfree
  have hproc : shell_proc L ((s.setpos_x 0).putc (ch '\n')) =
      some (shell_record L (s1.console (say (['\n'].map ch)))) := by
    simp only [shell_proc, hs1, Option.bind_eq_bind, Option.bind_some, Option.pure_def]
    rw [Machine.printf_eq (by decide) (by decide)]
    rfl
  rw [hproc, Option.bind_some, Machine.putsLit_eq (by decide) (by decide)] at hs'
  cases hs'
  have hrecord := Alike.record (s := s1.console (say (['\n'].map ch))) (h1.alike.say hP (['\n'].map ch))
  exact hrecord.say hP (['>'].map ch)

/-- **One event.** -/
theorem onEvent_session (hP : Local P) (hW : P.W = 32 ∨ P.W = 64) {t : Session P} {e : Event}
    (h : t.In R s) (hok : SessionOk R t e) : ∃ s', onEvent L e s = some s' ∧ (t.onEvent e).In R s' := by
  have hguard := hok.guard
  rw [← h.view] at hguard
  obtain ⟨s', hs', hread⟩ := kcallback_step hguard (h.view ▸ hok.1)
  rw [h.view] at hread
  refine ⟨s', hs', hread, ?_⟩
  rw [kcallback_eq] at hs'
  have hterm := hok.1
  have hkey := hok.2
  unfold Session.onEvent
  cases hk : P.key e.1 e.2 <;> rw [hk] at hs' hterm hkey hread hguard
  case newline => exact newline_alike hP hW hkey.1 h.view h.alike hkey.2.1 hkey.2.2 hs'
  case bcksp =>
    obtain ⟨s1, hs1, hs'⟩ := Option.bind_eq_some_iff.mp hs'
    obtain ⟨s2, hs2, hread2, -⟩ := kbd_bcksp_returns L s
    obtain rfl : s1 = s2 := Option.some.inj (hs1.symm.trans hs2)
    rw [h.view] at hread2
    exact puts_shellbuf_alike hP hterm hread2 (kbd_bcksp_alike hP h.alike hs1) hs'
  case up =>
    have hread1 := read_kbd_up hguard
    rw [h.view] at hread1
    refine puts_shellbuf_alike hP hterm hread1 (Alike.setpos_x hP _ ?_) hs'
    exact (((h.alike.loadRow _).write .histptr _).write .shellptr _)
  case down =>
    have hread1 := read_kbd_down hguard
    rw [h.view] at hread1
    refine puts_shellbuf_alike hP hterm hread1 (Alike.setpos_x hP _ ?_) hs'
    exact (((h.alike.loadRow _).write .histptr _).write .shellptr _)
  case char c =>
    have hread1 : (kbd_char L c s).read L = t.view.append c := by rw [read_kbd_char, h.view]
    refine puts_shellbuf_alike hP hterm hread1 (Alike.setpos_x hP _ ?_) hs'
    exact ((h.alike.write .shellptr _).write (.shellbuf _) c)

/-- At the first prompt. -/
def Session.start (L : Layout P) (s : Machine P) : Session P :=
  ⟨(s.read L).withBuf fun _ => 0, say (['>'].map ch) (s.mem, s.dev)⟩

theorem shell_init_session (hP : Local P) (R : Reserved L) (s : Machine P) :
    ∃ s₀, shell_init L s = some s₀ ∧ (Session.start L s).In R s₀ := by
  have hprompt := Machine.putsLit_eq (l := ['>']) (by decide) (by decide) (s.clearbuf L)
  refine ⟨_, hprompt, ?_, ?_⟩
  · exact (Machine.putsLit_quiet hprompt).read.trans s.read_clearbuf
  · exact ((Alike.refl (s.mem, s.dev)).clearbuf).say hP (['>'].map ch)

theorem session_run (hP : Local P) (hW : P.W = 32 ∨ P.W = 64) {t : Session P} (h : t.In R s)
    {es : List Event} (hok : Along Session.onEvent (SessionOk R) t es) :
    ∃ s', runs (onEvent L) es s = some s' ∧ (es.foldl Session.onEvent t).In R s' :=
  runs_simulates (R := fun t s => Session.In R t s)
    (fun _ e _ h hok => onEvent_session (e := e) hP hW h hok) h hok

/-- **The session.** Whatever is typed after `shell_init`, as long as it stays within the line and the
history and peeks and pokes free memory, the machine goes through the session: what it
displays, what `peek` finds and what `poke` leaves are the session's, and so are the variables. -/
theorem session_refines (hP : Local P) (hW : P.W = 32 ∨ P.W = 64) (R : Reserved L) (s : Machine P) :
    ∃ s₀, shell_init L s = some s₀ ∧ ∀ es,
      Along Session.onEvent (SessionOk R) (Session.start L s) es →
        ∃ s', runs (onEvent L) es s₀ = some s' ∧ (es.foldl Session.onEvent (Session.start L s)).In R s' := by
  obtain ⟨s₀, hs₀, h₀⟩ := shell_init_session hP R s
  exact ⟨s₀, hs₀, fun es hok => session_run hP hW h₀ hok⟩

/-! ## Memory -/

/-- The store of a line with these words. -/
def lineStore (W : Nat) : List (List Byte) → Option (Nat × Byte)
  | cmd :: arg :: val :: _ =>
    if cmd = POKE then some (intPtr W (intValue W arg), (intValue W val).setWidth 8) else none
  | _ => none

/-- What an event stores. -/
def Session.stores (e : Event) (t : Session P) : List (Nat × Byte) :=
  match P.key e.1 e.2 with
  | .newline => (lineStore P.W (words t.view.text)).toList
  | _ => []

/-- All that a run stores, in order. -/
def storesOf (es : List Event) (t : Session P) : List (Nat × Byte) :=
  emits (fun e t => some (Session.onEvent t e)) Session.stores es t

theorem reply_mem (ws : List (List Byte)) (t : P.Con) {a : Nat} (ha : ¬P.window a) :
    (reply ws t).1 a = stored t.1 (lineStore P.W ws) a := by
  match ws with
  | [] => rfl
  | cmd :: args =>
    rw [reply]
    by_cases hpeek : cmd = PEEK
    · have hnone : lineStore P.W (cmd :: args) = none := by
        rw [hpeek]
        match args with
        | [] | [_] => rfl
        | _ :: _ :: _ => rw [lineStore, if_neg (by decide)]
      rw [if_pos hpeek, hnone]
      cases args <;> exact say_frame _ _ ha
    · rw [if_neg hpeek]
      by_cases hpoke : cmd = POKE
      · rw [if_pos hpoke, hpoke]
        match args with
        | [] | [_] => exact say_frame _ _ ha
        | arg :: val :: args =>
          rw [lineStore, if_pos rfl]
          simp only [replyPoke, stored, Function.update_apply, say_frame _ _ ha]
      · have hnone : lineStore P.W (cmd :: args) = none := by
          match args with
          | [] | [_] => rfl
          | _ :: _ :: _ => exact if_neg hpoke
        rw [if_neg hpoke, hnone]
        exact say_frame _ _ ha

theorem echo_mem (t : Session P) (e : Event) {a : Nat} (ha : ¬P.window a) :
    (t.onEvent e).console.1 a =
      ((t.stores e).foldl (fun m p => Function.update m p.1 p.2) t.console.1) a := by
  have hsetpos : ∀ x (t : P.Con), (P.setpos_x x t).1 a = t.1 a := fun x t => P.setpos_x_frame x t a ha
  unfold Session.onEvent Session.stores
  cases P.key e.1 e.2 with
  | newline =>
    have hstart : (P.putc (ch '\n') (P.setpos_x 0 t.console)).1 a = t.console.1 a :=
      (P.putc_frame _ _ a ha).trans (hsetpos 0 _)
    simp only [echo, say_frame _ _ ha, reply_mem _ _ ha]
    cases lineStore P.W (words t.view.text) with
    | none => exact hstart
    | some p =>
      simp only [stored, Option.toList_some, List.foldl_cons, List.foldl_nil, Function.update_apply,
        hstart]
  | bcksp => exact (say_frame _ _ ha).trans ((hsetpos 0 _).trans (P.clrline_frame _ a ha))
  | up | down | char c => exact (say_frame _ _ ha).trans (hsetpos _ _)

theorem foldl_update_congr {m m' : Mem} {a : Nat} (h : m a = m' a) (ps : List (Nat × Byte)) :
    (ps.foldl (fun m p => Function.update m p.1 p.2) m) a =
      (ps.foldl (fun m p => Function.update m p.1 p.2) m') a := by
  induction ps generalizing m m' with
  | nil => exact h
  | cons p ps ih =>
    refine ih ?_
    simp only [Function.update_apply, h]

theorem session_mem (t : Session P) (es : List Event) {a : Nat} (ha : ¬P.window a) :
    (es.foldl Session.onEvent t).console.1 a =
      ((storesOf es t).foldl (fun m p => Function.update m p.1 p.2) t.console.1) a := by
  induction es generalizing t with
  | nil => rfl
  | cons e es ih =>
    have hstores : storesOf (e :: es) t = t.stores e ++ storesOf es (t.onEvent e) := emits_cons rfl
    rw [List.foldl_cons, ih, hstores, List.foldl_append]
    exact foldl_update_congr (echo_mem t e ha) _

/-- **Memory.** Along every such run a free byte that is not the console's is what the
last `poke` to it stored, and as it was at the prompt if there was none. -/
theorem session_memory (hP : Local P) (hW : P.W = 32 ∨ P.W = 64) (R : Reserved L) (s : Machine P) :
    ∃ s₀, shell_init L s = some s₀ ∧ ∀ es,
      Along Session.onEvent (SessionOk R) (Session.start L s) es →
        ∃ s', runs (onEvent L) es s₀ = some s' ∧ ∀ a, ¬P.window a → R.Free a →
          s'.mem a =
            ((storesOf es (Session.start L s)).foldl (fun m p => Function.update m p.1 p.2) s.mem) a := by
  obtain ⟨s₀, hs₀, h₀⟩ := shell_init_session hP R s
  refine ⟨s₀, hs₀, fun es hok => ?_⟩
  obtain ⟨s', hs', hin⟩ := session_run hP hW h₀ hok
  refine ⟨s', hs', fun a ha hx => ?_⟩
  rw [show s'.mem a = _ from hin.alike.mem a hx, session_mem _ _ ha]
  exact foldl_update_congr (say_frame _ _ ha) _

end Session

/-! ## The two targets -/

section Targets

/-- The same to the driver. -/
structure SameVga (v v' : I386.Vga) : Prop where
  tx : v.tx = v'.tx
  ty : v.ty = v'.ty
  crtc : v.crtc = v'.crtc
  mem : ∀ a, I386.window a → v.mem a = v'.mem a

variable {v v' : I386.Vga}

theorem SameVga.scroll (h : SameVga v v') : SameVga (I386.vga_scroll v) (I386.vga_scroll v') := by
  unfold I386.vga_scroll
  rw [h.ty]
  split
  · refine ⟨h.tx, rfl, h.crtc, fun a ha => ?_⟩
    simp only [memset_apply, memmove_apply]
    split
    · rfl
    · split
      · refine h.mem _ ?_
        unfold I386.window I386.HEIGHT I386.WIDTH at *
        omega
      · exact h.mem a ha
  · exact h

theorem SameVga.setCell (h : SameVga v v') (k : Nat) (c : BitVec 16) {a : Nat} (ha : I386.window a) :
    I386.setCell v.mem k c a = I386.setCell v'.mem k c a := by
  simp only [I386.setCell, Function.update_apply, h.mem a ha]

theorem SameVga.putc (h : SameVga v v') (c : Byte) : SameVga (I386.putc c v) (I386.putc c v') := by
  have hwrap : SameVga
      (if I386.WIDTH ≤ v.tx.toNat then I386.vga_scroll { v with tx := 0#8, ty := v.ty + 1#8 } else v)
      (if I386.WIDTH ≤ v'.tx.toNat then I386.vga_scroll { v' with tx := 0#8, ty := v'.ty + 1#8 }
        else v') := by
    rw [h.tx, h.ty]
    split
    · exact SameVga.scroll ⟨rfl, rfl, h.crtc, h.mem⟩
    · exact h
  unfold I386.putc
  by_cases hc : c = 0
  · rw [if_pos hc, if_pos hc]
    exact h
  · rw [if_neg hc, if_neg hc]
    generalize (if I386.WIDTH ≤ v.tx.toNat then
      I386.vga_scroll { v with tx := 0#8, ty := v.ty + 1#8 } else v) = w at hwrap
    generalize (if I386.WIDTH ≤ v'.tx.toNat then
      I386.vga_scroll { v' with tx := 0#8, ty := v'.ty + 1#8 } else v') = w' at hwrap
    dsimp only
    split
    · have hscroll : SameVga (I386.vga_scroll { w with tx := 0#8, ty := w.ty + 1#8 })
          (I386.vga_scroll { w' with tx := 0#8, ty := w'.ty + 1#8 }) :=
        SameVga.scroll ⟨rfl, congrArg (· + 1#8) hwrap.ty, hwrap.crtc, hwrap.mem⟩
      refine ⟨hscroll.tx, hscroll.ty, ?_, hscroll.mem⟩
      simp only [I386.cursor, hscroll.tx, hscroll.ty]
    · refine ⟨congrArg (· + 1#8) hwrap.tx, hwrap.ty, ?_, fun a ha => ?_⟩
      · simp only [I386.cursor, hwrap.tx, hwrap.ty]
      · simp only [I386.cursor, hwrap.tx, hwrap.ty]
        exact hwrap.setCell _ _ ha

theorem SameVga.setpos_x (h : SameVga v v') (x : Byte) :
    SameVga (I386.setpos_x x v) (I386.setpos_x x v') := by
  unfold I386.setpos_x
  split
  · exact h
  · exact ⟨rfl, h.ty, h.crtc, h.mem⟩

theorem SameVga.clrline (h : SameVga v v') : SameVga (I386.clrline v) (I386.clrline v') := by
  unfold I386.clrline I386.clrline_y
  rw [h.ty]
  refine ⟨h.tx, rfl, h.crtc, fun a ha => ?_⟩
  simp only [memset_apply, h.mem a ha]

theorem i386_local (A : I386.DriverAddresses) : Local (I386.i386 A) := by
  have hvga : ∀ {t t' : (I386.i386 A).Con}, SameScreen t t' → SameVga (I386.vgaOf t) (I386.vgaOf t') := by
    intro t t' h
    refine ⟨?_, ?_, ?_, h.mem⟩ <;> simp only [I386.vgaOf, h.dev]
  have hback : ∀ {t t' : (I386.i386 A).Con} {v v' : I386.Vga}, SameScreen t t' → SameVga v v' →
      SameScreen (P := I386.i386 A) (I386.ofVga t.2 v) (I386.ofVga t'.2 v') := by
    intro t t' v v' h hv
    refine ⟨?_, hv.mem⟩
    simp only [I386.ofVga, h.dev, hv.tx, hv.ty, hv.crtc]
    rfl
  exact ⟨fun c _ _ h => hback h ((hvga h).putc c), fun x _ _ h => hback h ((hvga h).setpos_x x),
    fun h => hback h (hvga h).clrline⟩

theorem aarch64_local : Local Aarch64.aarch64 where
  putc c _ _ h := ⟨congrArg (· ++ [c]) h.dev, h.mem⟩
  setpos_x _ _ _ h := h
  clrline h := h

/-- The code in front of the shell's variables, the drivers' and the stack behind, the UART at
0x9000000. -/
def boardRest (a : Nat) : Prop :=
  (0x10000 ≤ a ∧ a < 0x12000) ∨ (0x12210 ≤ a ∧ a < 0x12230) ∨ (0x13000 ≤ a ∧ a < 0x17000) ∨
    (0x9000000 ≤ a ∧ a < 0x9001000)

theorem boardRest_apart {a : Nat} (ha : (0x12208 ≤ a ∧ a < 0x12208 + 64 / 8) ∨ boardRest a) :
    ¬Aarch64.aarch64.window a ∧ ∀ x, a ≠ Aarch64.lowLayout.addr x := by
  refine ⟨id, fun x hx => ?_⟩
  unfold boardRest at ha
  cases x <;> simp only [Aarch64.lowLayout, Addresses.addr, I386.lowAddresses] at hx <;> omega

def lowBoard : Reserved Aarch64.lowLayout where
  olds := 0x12208
  rest := boardRest
  drivers _ _ _ _ := rfl
  apart _ ha := boardRest_apart ha

/-- The code and the key tables in front of the shell's variables, the drivers', the descriptor
table and the stack behind. -/
def computerRest (a : Nat) : Prop :=
  (0x10000 ≤ a ∧ a < 0x12000) ∨ (0x12210 ≤ a ∧ a < 0x12214) ∨ (0x13000 ≤ a ∧ a < 0x15000)

theorem computerRest_apart {a : Nat} (ha : (0x12204 ≤ a ∧ a < 0x12204 + 32 / 8) ∨ computerRest a) :
    ¬I386.window a ∧ ∀ x, a ≠ I386.lowLayout.addr x := by
  unfold computerRest at ha
  refine ⟨fun hw => ?_, fun x hx => ?_⟩
  · unfold I386.window I386.VGA_MEM at hw
    omega
  · cases x <;> simp only [I386.lowLayout, Addresses.addr, I386.lowAddresses] at hx <;> omega

theorem computerRest_drivers {a : Nat} (ha : ¬computerRest a) (v : Byte) (d : I386.Drivers) :
    I386.storeDrivers I386.lowDrivers a v d = d := by
  unfold computerRest at ha
  obtain ⟨htx, hty, hkstate, hextended⟩ : a ≠ 0x12210 ∧ a ≠ 0x12211 ∧ a ≠ 0x12212 ∧ a ≠ 0x12213 := by
    omega
  unfold I386.storeDrivers
  rw [if_neg (show a ≠ I386.lowDrivers.tx from htx), if_neg (show a ≠ I386.lowDrivers.ty from hty),
    if_neg (show a ≠ I386.lowDrivers.kstate from hkstate),
    if_neg (show a ≠ I386.lowDrivers.extended from hextended)]

def lowComputer : Reserved I386.lowLayout where
  olds := 0x12204
  rest := computerRest
  drivers _ ha := computerRest_drivers ha
  apart _ ha := computerRest_apart ha

/-- The serial terminal shows the whole line at every key. -/
def lsTyped : List Event := [(ch 'l', 0), (ch 's', 0), (ch '\n', 0)]

/-- Memory and variables all zero, nothing sent. -/
def blankBoard : Machine Aarch64.aarch64 := ⟨fun _ => 0, [], 0, []⟩

theorem ls_ok : Along Session.onEvent (SessionOk lowBoard) (Session.start Aarch64.lowLayout blankBoard)
    lsTyped :=
  ⟨⟨⟨255, rfl⟩, trivial⟩, ⟨⟨255, rfl⟩, trivial⟩, ⟨⟨255, rfl⟩, ⟨255, rfl⟩, by decide +kernel, fun a h => by
    cases h⟩, trivial⟩

theorem session_refines_ls : ∃ s₀ s', shell_init Aarch64.lowLayout blankBoard = some s₀ ∧
    runs (onEvent Aarch64.lowLayout) lsTyped s₀ = some s' ∧
      s'.dev = ['>', 'l', 'l', 's', '\n', 'U', 'n', 'k', 'n', 'o', 'w', 'n', ' ', 'c', 'o', 'm', 'm', 'a',
        'n', 'd', ':', ' ', 'l', 's', '\n', '>'].map ch := by
  obtain ⟨s₀, hs₀, h⟩ := session_refines aarch64_local (Or.inr rfl) lowBoard blankBoard
  obtain ⟨s', hs', hin⟩ := h lsTyped ls_ok
  exact ⟨s₀, s', hs₀, hs', hin.alike.dev⟩

def pokeTyped : List Event := ['p', 'o', 'k', 'e', ' ', '9', ' ', '7', '\n'].map fun c => (ch c, 0)

theorem nine_free : lowComputer.Free 9 where
  shell x := by
    cases x <;> simp only [I386.lowLayout, Addresses.addr, I386.lowAddresses] <;> omega
  olds := by decide
  rest h := by
    change computerRest 9 at h
    unfold computerRest at h
    omega

theorem poke_ok : Along Session.onEvent (SessionOk lowComputer) (Session.start I386.lowLayout I386.cleared)
    pokeTyped := by
  have hkey : ∀ {t : Session (I386.i386 I386.lowDrivers)} {c : Byte}, t.view (.shellbuf 255) = 0 →
      t.view .shellptr ≠ 255 → c ≠ ch '\n' → SessionOk lowComputer t (c, 0) := by
    intro t c h0 hp hc
    have hk : (I386.i386 I386.lowDrivers).key c 0 = .char c := key_char _ hc
    rw [SessionOk, hk]
    refine ⟨⟨255, ?_⟩, trivial⟩
    simp only [View.step, View.append, Function.update_apply, Static.shellbuf.injEq, reduceCtorEq, if_false,
      h0, if_neg (Ne.symm hp)]
  refine ⟨hkey rfl (by decide) (by decide), hkey rfl (by decide) (by decide),
    hkey rfl (by decide) (by decide), hkey rfl (by decide) (by decide), hkey rfl (by decide) (by decide),
    hkey rfl (by decide) (by decide), hkey rfl (by decide) (by decide), hkey rfl (by decide) (by decide),
    ⟨⟨255, rfl⟩, ⟨255, rfl⟩, by decide +kernel, fun a ha => ?_⟩, trivial⟩
  have h9 : some 9 = some a := by
    rw [← ha]
    decide +kernel
  exact Option.some.inj h9 ▸ nine_free

theorem session_memory_poke : ∃ s₀ s', shell_init I386.lowLayout I386.cleared = some s₀ ∧
    runs (onEvent I386.lowLayout) pokeTyped s₀ = some s' ∧ s'.mem 9 = 7 := by
  obtain ⟨s₀, hs₀, h⟩ := session_memory (i386_local _) (Or.inl rfl) lowComputer I386.cleared
  obtain ⟨s', hs', hmem⟩ := h pokeTyped poke_ok
  have hwindow : ¬I386.window 9 := by
    unfold I386.window I386.VGA_MEM
    omega
  exact ⟨s₀, s', hs₀, hs', (hmem 9 hwindow nine_free).trans (by decide +kernel)⟩

end Targets

end Osdev2.Kernel
