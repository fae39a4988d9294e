import Osdev2.Lib.Words

/-!
# The AArch64 instructions of the exception entries

The general registers, the stack pointer, the system registers that the entry
code reads and a byte memory, with the handful of instructions
`kernel/arch/aarch64/boot.asm` saves and restores them by. `call` is the C
function a `bl` reaches and `link` the return address it leaves in `x30`.
-/

namespace Osdev2.Aarch64

open Osdev2.Lib

inductive SysReg where
  | ESR_EL1
  | FAR_EL1
  | ELR_EL1

instance instNeZeroRegs : NeZero 31 := ⟨by decide⟩

structure Cpu where
  x : Fin 31 → BitVec 64
  sp : BitVec 64
  sys : SysReg → BitVec 64
  mem : Mem64

/-- A register operand; `xzr` reads as zero and ignores writes. -/
inductive Reg where
  | x (n : Fin 31)
  | xzr

def Cpu.get (s : Cpu) : Reg → BitVec 64
  | .x n => s.x n
  | .xzr => 0

def Cpu.set (s : Cpu) : Reg → BitVec 64 → Cpu
  | .x n, v => { s with x := Function.update s.x n v }
  | .xzr, _ => s

inductive Ins where
  | subSp (imm : Nat)
  | addSp (imm : Nat)
  | stp (t1 t2 : Reg) (off : Nat)
  | ldp (t1 t2 : Reg) (off : Nat)
  | mrs (t : Reg) (r : SysReg)
  | movSp (t : Reg)
  | bl
  | eret

/-- `[sp, #off]`. -/
def Cpu.slot (s : Cpu) (off : Nat) : BitVec 64 := s.sp + BitVec.ofNat 64 off

def Ins.exec (call : Cpu → Cpu) (link : BitVec 64) (s : Cpu) : Ins → Cpu
  | .subSp imm => { s with sp := s.sp - BitVec.ofNat 64 imm }
  | .addSp imm => { s with sp := s.sp + BitVec.ofNat 64 imm }
  | .stp t1 t2 off =>
    { s with mem := store64 (store64 s.mem (s.slot off) (s.get t1)) (s.slot (off + 8)) (s.get t2) }
  | .ldp t1 t2 off =>
    (s.set t1 (load64 s.mem (s.slot off))).set t2 (load64 s.mem (s.slot (off + 8)))
  | .mrs t r => s.set t (s.sys r)
  | .movSp t => s.set t s.sp
  | .bl => call (s.set (.x 30) link)
  | .eret => s

def execs (call : Cpu → Cpu) (link : BitVec 64) (is : List Ins) (s : Cpu) : Cpu :=
  is.foldl (Ins.exec call link) s

theorem execs_append (call : Cpu → Cpu) (link : BitVec 64) (is js : List Ins) (s : Cpu) :
    execs call link (is ++ js) s = execs call link js (execs call link is s) := by
  rw [execs, List.foldl_append]
  rfl

/-- What the procedure call standard and the frame's owner ask of a C handler:
it keeps the callee-saved registers and SP, and does not write the `n`-byte
frame that `x0` points to. -/
structure Aapcs64 (n : Nat) (call : Cpu → Cpu) : Prop where
  saved : ∀ s r, 19 ≤ r.val → r.val ≤ 29 → (call s).x r = s.x r
  sp : ∀ s, (call s).sp = s.sp
  frame : ∀ s a, InRange (s.x 0) n a → (call s).mem a = s.mem a

end Osdev2.Aarch64
