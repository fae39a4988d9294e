import Osdev2.Kernel.Machine

/-!
# The shell (`kernel/shell.c`)

`kcallback` is the handler of one key event. `none` is a handler that never
returns: a console or string loop has found no NUL in the whole address space.
-/

namespace Osdev2.Kernel

open Osdev2.Lib Osdev2.Libk

def PROMPT_LEN : Byte := 1#8

def CMD_PEEK : Byte := 1#8
def CMD_POKE : Byte := 2#8

section Shell

variable {P : Platform} (L : Layout P)

def shell_init (s : Machine P) : Option (Machine P) := (s.clearbuf L).putsLit ['>']

def shell_hash (W : Nat) (cmd : CStr) : Option Byte := do
  if (← strcmp W cmd (lit ['p', 'e', 'e', 'k'])) = 0 then return CMD_PEEK
  if (← strcmp W cmd (lit ['p', 'o', 'k', 'e'])) = 0 then return CMD_POKE
  return 0#8

/-- `(uint8_t*)mem` of an `int`: sign-extended to a pointer. -/
def intPtr (W : Nat) (mem : BitVec 32) : Nat := (mem.signExtend W).toNat

/-- `int n = strtoul(arg, &end, 16)`. -/
def parseInt (W : Nat) (arg : CStr) : Option (BitVec 32) :=
  (strtoul W arg 16).map fun r => BitVec.ofNat 32 r.1

def cmd_peek (s : Machine P) : Option (Machine P) := do
  let (arg, s) ← s.strtok 0
  if arg = 0 then
    s.printf ['U', 's', 'a', 'g', 'e', ':', ' ', 'p', 'e', 'e', 'k', ' ', '<', 'l', 'o', 'c', 'a',
      't', 'i', 'o', 'n', '>'] []
  else
    let mem ← parseInt P.W (s.mem.at P.W arg)
    s.printf ['%', '0', '8', 'X', ':', ' ', '%', '0', '2', 'X']
      [mem.toNat, (s.mem (intPtr P.W mem)).toNat]

def usage_poke (s : Machine P) : Option (Machine P) :=
  s.printf ['U', 's', 'a', 'g', 'e', ':', ' ', 'p', 'o', 'k', 'e', ' ', '<', 'l', 'o', 'c', 'a',
    't', 'i', 'o', 'n', '>', ' ', '<', 'v', 'a', 'l', 'u', 'e', '>'] []

def cmd_poke (s : Machine P) : Option (Machine P) := do
  let (arg, s) ← s.strtok 0
  if arg = 0 then usage_poke s
  else
    let mem ← parseInt P.W (s.mem.at P.W arg)
    let (arg, s) ← s.strtok 0
    if arg = 0 then usage_poke s
    else
      let val ← parseInt P.W (s.mem.at P.W arg)
      let s ← s.printf ['%', '0', '8', 'X', ' ', '=', ' ', '%', '0', '2', 'X'] [mem.toNat, val.toNat]
      return s.poke (intPtr P.W mem) (val.setWidth 8)

/-- The `switch` of `shell_proc`. -/
def shell_command (s : Machine P) : Option (Machine P) := do
  let (word, s) ← s.strtok L.shellbuf
  let cmd ← shell_hash P.W (s.mem.at P.W word)
  if cmd = CMD_PEEK then cmd_peek s
  else if cmd = CMD_POKE then cmd_poke s
  else
    s.printf ['U', 'n', 'k', 'n', 'o', 'w', 'n', ' ', 'c', 'o', 'm', 'm', 'a', 'n', 'd', ':', ' ',
      '%', 's'] [word]

/-- The line goes into the history, and the next one starts. -/
def shell_record (s : Machine P) : Machine P :=
  let s := s.saveRow L (s.read L .histptr).toNat
  let s := s.saveCursor L (s.read L .histptr)
  let s := s.clearbuf L
  let s := s.write L .shellptr 0
  s.write L .histptr (s.read L .histptr + 1#8)

def shell_proc (s : Machine P) : Option (Machine P) := do
  let s ← shell_command L s
  let s ← s.printf ['\n'] []
  return shell_record L s

/-! ## The keyboard callback -/

def kbd_bcksp (s : Machine P) : Option (Machine P) :=
  let s := if 0 < (s.read L .shellptr).toNat then
    s.write L .shellptr (s.read L .shellptr - 1#8) else s
  let s := s.write L (.shellbuf (s.read L .shellptr)) 0
  (s.clrline.setpos_x 0).putsLit ['>']

def kbd_up (s : Machine P) : Machine P :=
  let s := s.loadRow L ((s.read L .histptr).toNat - 1)
  let s := s.write L .histptr (s.read L .histptr - 1#8)
  (s.loadCursor L (s.read L .histptr)).setpos_x PROMPT_LEN

def kbd_down (s : Machine P) : Machine P :=
  let s := s.loadRow L ((s.read L .histptr).toNat + 1)
  let s := s.write L .histptr (s.read L .histptr + 1#8)
  (s.loadCursor L (s.read L .histptr)).setpos_x PROMPT_LEN

def kbd_char (c : Byte) (s : Machine P) : Machine P :=
  let p := s.read L .shellptr
  let s := s.write L .shellptr (p + 1#8)
  (s.write L (.shellbuf p) c).setpos_x PROMPT_LEN

/-- `kstate & bit`. -/
def held (kstate bit : Byte) : Bool := kstate &&& bit != 0

def kcallback (c kstate : Byte) (s : Machine P) : Option (Machine P) :=
  if c = ch '\n' then do
    let s ← shell_proc L ((s.setpos_x 0).putc (ch '\n'))
    s.putsLit ['>']
  else do
    let s ←
      if held kstate P.KBD_BCKSP then kbd_bcksp L s
      else if held kstate P.KBD_UP then some (kbd_up L s)
      else if held kstate P.KBD_DOWN then some (kbd_down L s)
      else some (kbd_char L c s)
    s.puts L.shellbuf

end Shell

end Osdev2.Kernel
