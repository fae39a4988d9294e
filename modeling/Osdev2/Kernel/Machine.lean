import Osdev2.Libk.Prints

/-!
# The machine the shell runs on

`Platform` is what `arch/` gives the shell: the word size, the key bits of
`kbd.h`, the console functions over memory and the driver's own variables, and
the addresses the console may write (`window`). `Layout` places the shell's
static variables in memory, outside the window and without overlap; `Static`
names their bytes. `Machine` is memory, the driver's variables, `olds` of
`strtok`, and the trace of accesses to the two history arrays.

A variable of the shell is read and written in memory (`Machine.read`, `Machine.write`),
so a `poke` may hit it like any other byte. The drivers' variables and `olds` are beside
memory: the bytes at their addresses are not theirs, and a store gets to the drivers'
through `storeDev`. The `read_` lemmas give every variable after each operation.
-/

namespace Osdev2.Kernel

open Osdev2.Lib Osdev2.Libk

structure Platform where
  W : Nat
  wide : 32 ≤ W
  KBD_BCKSP : Byte
  KBD_UP : Byte
  KBD_DOWN : Byte
  /-- The variables of the drivers. -/
  Dev : Type
  putc : Byte → Mem × Dev → Mem × Dev
  setpos_x : Byte → Mem × Dev → Mem × Dev
  clrline : Mem × Dev → Mem × Dev
  /-- A byte stored over the drivers' variables. -/
  storeDev : Nat → Byte → Dev → Dev
  window : Nat → Prop
  putc_frame : ∀ c t a, ¬window a → (putc c t).1 a = t.1 a
  setpos_x_frame : ∀ x t a, ¬window a → (setpos_x x t).1 a = t.1 a
  clrline_frame : ∀ t a, ¬window a → (clrline t).1 a = t.1 a

/-- The console functions keep `I` of the drivers' variables. -/
structure Platform.Keeps (P : Platform) (I : P.Dev → Prop) : Prop where
  putc : ∀ c t, I t.2 → I (P.putc c t).2
  setpos_x : ∀ x t, I t.2 → I (P.setpos_x x t).2
  clrline : ∀ t, I t.2 → I (P.clrline t).2

/-- The console `printf` runs on. -/
def Platform.console (P : Platform) : Console (Mem × P.Dev) where
  mem t := t.1
  putc := P.putc
  store a v t := (Function.update t.1 a v, P.storeDev a v t.2)

/-- The bytes of the shell's static variables. -/
inductive Static where
  | shellbuf (i : Byte)
  | shellhist (row i : Byte)
  | shellptr_hist (row : Byte)
  | shellptr
  | histptr
  deriving DecidableEq

/-- A value for each of them. -/
abbrev View := Static → Byte

/-- Where the variables are. -/
structure Addresses where
  shellbuf : Nat
  shellhist : Nat
  shellptr_hist : Nat
  shellptr : Nat
  histptr : Nat

def Addresses.addr (A : Addresses) : Static → Nat
  | .shellbuf i => A.shellbuf + i.toNat
  | .shellhist row i => A.shellhist + 256 * row.toNat + i.toNat
  | .shellptr_hist row => A.shellptr_hist + row.toNat
  | .shellptr => A.shellptr
  | .histptr => A.histptr

/-- The row before `shellhist` and the row after it are addresses too. -/
structure Layout (P : Platform) extends Addresses where
  inj : ∀ x y, toAddresses.addr x = toAddresses.addr y → x = y
  mapped : ∀ x, toAddresses.addr x < 2 ^ P.W
  outside : ∀ x, ¬P.window (toAddresses.addr x)
  nonnull : 0 < shellbuf
  room : 256 ≤ shellhist ∧ shellhist + 257 * 256 ≤ 2 ^ P.W

inductive HistArray where
  | shellhist
  | shellptr_hist
  deriving DecidableEq

/-- An access to one of the history arrays, the index as the source computes it. -/
structure Access where
  array : HistArray
  row : Int
  deriving DecidableEq

structure Machine (P : Platform) where
  mem : Mem
  dev : P.Dev
  olds : Nat
  trace : List Access

/-- `&shellhist[row]`. -/
def Addresses.row (A : Addresses) (row : Int) : Nat := (A.shellhist + 256 * row).toNat

namespace Machine

variable {P : Platform}

/-- Run the console on the machine. -/
def console (s : Machine P) (f : Mem × P.Dev → Mem × P.Dev) : Machine P :=
  { s with mem := (f (s.mem, s.dev)).1, dev := (f (s.mem, s.dev)).2 }

def putc (c : Byte) (s : Machine P) : Machine P := s.console (P.putc c)

def setpos_x (x : Byte) (s : Machine P) : Machine P := s.console (P.setpos_x x)

def clrline (s : Machine P) : Machine P := s.console P.clrline

/-- `puts` of a string in memory. -/
def puts (p : Nat) (s : Machine P) : Option (Machine P) :=
  if p = 0 then some s
  else (forEachChar (fun t => t.1.at P.W p) P.putc (2 ^ P.W) 0 (s.mem, s.dev)).map fun t =>
    s.console fun _ => t

/-- `puts` of a literal. -/
def putsLit (l : List Char) (s : Machine P) : Option (Machine P) :=
  (forEachChar (fun _ => lit l) P.putc (2 ^ P.W) 0 (s.mem, s.dev)).map fun t => s.console fun _ => t

def printf (format : List Char) (args : List Nat) (s : Machine P) : Option (Machine P) :=
  (Libk.printf P.console P.W (lit format) (fun i => args.getD i 0) (s.mem, s.dev)).map fun t =>
    s.console fun _ => t

/-- `strtok(s, " ")`: the token, and the machine after. -/
def strtok (p : Nat) (s : Machine P) : Option (Nat × Machine P) :=
  (Libk.strtok P.W p [ch ' '] s.olds s.mem).map fun t =>
    (t.token, { s with mem := t.mem, olds := t.olds })

/-- `*(uint8_t*)a = v`. -/
def poke (a : Nat) (v : Byte) (s : Machine P) : Machine P :=
  { s with mem := Function.update s.mem a v, dev := P.storeDev a v s.dev }

def read (L : Layout P) (s : Machine P) : View := fun x => s.mem (L.addr x)

def write (L : Layout P) (x : Static) (v : Byte) (s : Machine P) : Machine P :=
  { s with mem := Function.update s.mem (L.addr x) v }

/-- `memset(shellbuf, 0, 256)`. -/
def clearbuf (L : Layout P) (s : Machine P) : Machine P :=
  { s with mem := memset L.shellbuf 0 s.mem 256 }

/-- `memcpy(shellbuf, &shellhist[row], 256)`. -/
def loadRow (L : Layout P) (row : Int) (s : Machine P) : Machine P :=
  { s with mem := memcpy L.shellbuf (L.row row) s.mem 256, trace := s.trace ++ [⟨.shellhist, row⟩] }

/-- `memcpy(&shellhist[row], shellbuf, 256)`. -/
def saveRow (L : Layout P) (row : Int) (s : Machine P) : Machine P :=
  { s with mem := memcpy (L.row row) L.shellbuf s.mem 256, trace := s.trace ++ [⟨.shellhist, row⟩] }

/-- `shellptr = shellptr_hist[row]`. -/
def loadCursor (L : Layout P) (row : Byte) (s : Machine P) : Machine P :=
  { s.write L .shellptr (s.read L (.shellptr_hist row)) with
    trace := s.trace ++ [⟨.shellptr_hist, row.toNat⟩] }

/-- `shellptr_hist[row] = shellptr`. -/
def saveCursor (L : Layout P) (row : Byte) (s : Machine P) : Machine P :=
  { s.write L (.shellptr_hist row) (s.read L .shellptr) with
    trace := s.trace ++ [⟨.shellptr_hist, row.toNat⟩] }

/-! ## What each operation leaves in the variables -/

/-- Only the console's part of the machine has changed. -/
structure Quiet (s s' : Machine P) : Prop where
  mem : ∀ a, ¬P.window a → s'.mem a = s.mem a
  olds : s'.olds = s.olds
  trace : s'.trace = s.trace
  dev : ∀ I, P.Keeps I → I s.dev → I s'.dev

variable {L : Layout P} {s s' s'' : Machine P}

theorem Quiet.refl (s : Machine P) : Quiet s s := ⟨fun _ _ => rfl, rfl, rfl, fun _ _ h => h⟩

theorem Quiet.trans (h : Quiet s s') (h' : Quiet s' s'') : Quiet s s'' :=
  ⟨fun a ha => (h'.mem a ha).trans (h.mem a ha), h'.olds.trans h.olds, h'.trace.trans h.trace,
    fun I hI hs => h'.dev I hI (h.dev I hI hs)⟩

theorem Quiet.read (h : Quiet s s') : s'.read L = s.read L :=
  funext fun x => h.mem _ (L.outside x)

theorem console_quiet {f : Mem × P.Dev → Mem × P.Dev}
    (hf : ∀ a, ¬P.window a → (f (s.mem, s.dev)).1 a = s.mem a)
    (hdev : ∀ I, P.Keeps I → I s.dev → I (f (s.mem, s.dev)).2) : Quiet s (s.console f) :=
  ⟨hf, rfl, rfl, hdev⟩

theorem putc_quiet (c : Byte) (s : Machine P) : Quiet s (s.putc c) :=
  console_quiet (P.putc_frame c (s.mem, s.dev)) fun _ hI => hI.putc c (s.mem, s.dev)

theorem setpos_x_quiet (x : Byte) (s : Machine P) : Quiet s (s.setpos_x x) :=
  console_quiet (P.setpos_x_frame x (s.mem, s.dev)) fun _ hI => hI.setpos_x x (s.mem, s.dev)

/-- The start of the next line. -/
theorem newline_quiet (s : Machine P) : Quiet s ((s.setpos_x 0).putc (ch '\n')) :=
  (setpos_x_quiet 0 s).trans (putc_quiet _ _)

theorem clrline_quiet (s : Machine P) : Quiet s s.clrline :=
  console_quiet (P.clrline_frame (s.mem, s.dev)) fun _ hI => hI.clrline (s.mem, s.dev)

theorem forEachChar_quiet {rd : Mem × P.Dev → CStr} {t : Mem × P.Dev}
    (h : forEachChar rd P.putc (2 ^ P.W) 0 (s.mem, s.dev) = some t) :
    Quiet s (s.console fun _ => t) := by
  refine console_quiet ?_ fun I hI hs => ?_
  · let I : Mem × P.Dev → Prop := fun t => ∀ a, ¬P.window a → t.1 a = s.mem a
    exact forEachChar_preserves (I := I) (fun c t hI a ha => (P.putc_frame c t a ha).trans (hI a ha))
      (fun _ _ => rfl) h
  · exact forEachChar_preserves (I := fun t => I t.2) hI.putc hs h

theorem puts_quiet {p : Nat} (h : s.puts p = some s') : Quiet s s' := by
  unfold puts at h
  split at h
  · cases h
    exact Quiet.refl s
  · obtain ⟨t, ht, rfl⟩ := Option.map_eq_some_iff.mp h
    exact forEachChar_quiet ht

theorem putsLit_quiet {l : List Char} (h : s.putsLit l = some s') : Quiet s s' := by
  obtain ⟨t, ht, rfl⟩ := Option.map_eq_some_iff.mp h
  exact forEachChar_quiet ht

end Machine

end Osdev2.Kernel
