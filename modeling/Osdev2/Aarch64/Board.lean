import Osdev2.Lib.Program
import Osdev2.Aarch64.Uart

/-!
# The board under the AArch64 kernel

`Op` is what one step of the kernel does: it reads or writes a static variable,
accesses a register of the UART or of the interrupt controller's CPU interface, or
calls a function pointer. `Board` is what the steps act on: the variables of `uart.c`
and `arch.c`, the receive side of a PL011 as a queue, and the interrupts pending and
active in the GIC.

Everything else is the environment: before each step bytes may arrive, the receive
interrupt may be raised and interrupts may be signalled, and what the board leaves
open in a register reads as it likes (`Env`).
-/

namespace Osdev2.Aarch64

open Osdev2.Lib

/-! ## The interrupt controller -/

/-- An INTID, the low bits of `ICC_IAR1_EL1`. -/
abbrev Intid := BitVec 24

/-- What `ICC_IAR1_EL1` reads as when there is nothing to take. -/
def spurious : Intid := 1023

/-- The CPU interface of the GIC; a lower `priority` is a more urgent one. -/
structure Gic where
  priority : Intid → Nat
  pending : List Intid
  active : List Intid

namespace Gic

/-- The interrupt is more urgent than every active one. -/
def Accepts (g : Gic) (i : Intid) : Prop := ∀ a ∈ g.active, g.priority i < g.priority a

instance (g : Gic) (i : Intid) : Decidable (g.Accepts i) :=
  inferInstanceAs (Decidable (∀ a ∈ g.active, g.priority i < g.priority a))

/-- The interrupt that is signalled to the CPU, if any. -/
def highest (g : Gic) : Option Intid := (g.pending.filter fun i => g.Accepts i).argmin g.priority

def signal (g : Gic) (is : List Intid) : Gic := { g with pending := g.pending ++ is }

/-- A read of `ICC_IAR1_EL1`: the interrupt becomes active. -/
def acknowledge (g : Gic) : Intid × Gic :=
  match g.highest with
  | some i => (i, { g with pending := g.pending.erase i, active := i :: g.active })
  | none => (spurious, g)

/-- A write of `ICC_EOIR1_EL1`. -/
def complete (g : Gic) (i : Intid) : Gic := { g with active := g.active.erase i }

end Gic

/-! ## The kernel's variables and the UART -/

/-- The static variables of `uart.c` and `arch.c`. -/
inductive Var where
  | uart_ns
  | uart_pl
  | uart_fallback
  | kcallback
  deriving DecidableEq

/-- The type of a register block: `ns16550_t`, `pl011_t`, or the one word of the fallback. -/
inductive Block where
  | ns
  | pl
  | fallback
  deriving DecidableEq

structure Board where
  vars : Var → BitVec 64
  /-- The receive FIFO of the PL011. -/
  fifo : List Byte
  /-- Its receive interrupt is pending, masked or not. -/
  pending : Bool
  imsc : BitVec 32
  gic : Gic
  /-- The number of steps so far. -/
  time : Nat

/-- What happens before a step, and what the board leaves open in it. -/
structure Env where
  arrived : List Byte
  raised : Bool
  signalled : List Intid
  bits : BitVec 32

/-- A call of the function at `f`. -/
structure Call where
  f : BitVec 64
  c : Byte
  kstate : Byte
  deriving DecidableEq

def pl_mis : Nat := 0x40
def pl_icr : Nat := 0x44

inductive Op where
  | read (x : Var)
  | write (x : Var) (v : BitVec 64)
  | load (b : Block) (p : BitVec 64) (off : Nat)
  | store (b : Block) (p : BitVec 64) (off size : Nat) (v : BitVec 64)
  | call (c : Call)
  /-- `mrs ICC_IAR1_EL1`. -/
  | iar
  /-- `msr ICC_EOIR1_EL1`. -/
  | eoir (i : Intid)
  /-- `shellbuf[i] = 0`. -/
  | clear (i : Nat)
  /-- A loop still polling. -/
  | spin
  deriving DecidableEq

/-- What the step answers. -/
def Op.Answer : Op → Type
  | .read _ => BitVec 64
  | .load _ _ _ => BitVec 32
  | .iar => BitVec 64
  | .write _ _ | .store _ _ _ _ _ | .call _ | .eoir _ | .clear _ | .spin => Unit

abbrev Code (α : Type) := Program Op.Answer α

namespace Board

def write (x : Var) (v : BitVec 64) (s : Board) : Board := { s with vars := Function.update s.vars x v }

/-- Bit 4 of `mis`. -/
def mis (s : Board) : Bool := s.pending && s.imsc.getLsbD 4

/-- Time passes. -/
def elapse (e : Env) (s : Board) : Board where
  vars := s.vars
  fifo := s.fifo ++ e.arrived
  pending := s.pending || e.raised
  imsc := s.imsc
  gic := s.gic.signal e.signalled
  time := s.time + 1

end Board

/-- `bits` with bit 4 set or cleared. -/
def withBit4 (bits : BitVec 32) (b : Bool) : BitVec 32 :=
  bits &&& ~~~0x10#32 ||| if b then 0x10#32 else 0#32

/-- A register of the PL011. -/
def loadPl (off : Nat) (bits : BitVec 32) (s : Board) : BitVec 32 × Board :=
  if off = pl_dr then
    match s.fifo with
    | [] => (bits, s)
    | c :: cs => (c.setWidth 32, { s with fifo := cs })
  else if off = pl_fr then (withBit4 bits s.fifo.isEmpty, s)
  else if off = pl_imsc then (s.imsc, s)
  else if off = pl_mis then (withBit4 bits s.mis, s)
  else (bits, s)

def storePl (off : Nat) (v : BitVec 64) (s : Board) : Board :=
  if off = pl_imsc then { s with imsc := v.setWidth 32 }
  else if off = pl_icr then { s with pending := s.pending && !v.getLsbD 4 }
  else s

abbrev Kernel := Traced Board Polling Call

/-- The step on the board. -/
def Op.effect (bits : BitVec 32) : (op : Op) → Kernel op.Answer
  | .read x, s => some (.ok (s.vars x), s, [])
  | .write x v, s => some (.ok (), s.write x v, [])
  | .load .pl _ off, s => some (.ok (loadPl off bits s).1, (loadPl off bits s).2, [])
  | .load _ _ _, s => some (.ok bits, s, [])
  | .store .pl _ off _ v, s => some (.ok (), storePl off v s, [])
  | .store _ _ _ _ _, s => some (.ok (), s, [])
  | .call c, s => some (.ok (), s, [c])
  | .iar, s => some (.ok (s.gic.acknowledge.1.setWidth 64), { s with gic := s.gic.acknowledge.2 }, [])
  | .eoir i, s => some (.ok (), { s with gic := s.gic.complete i }, [])
  | .clear _, s => some (.ok (), s, [])
  | .spin, s => some (.error .mk, s, [])

/-- The step in its environment. -/
def Op.exec (env : Nat → Env) (op : Op) : Kernel op.Answer := fun s =>
  op.effect (env s.time).bits (s.elapse (env s.time))

end Osdev2.Aarch64
