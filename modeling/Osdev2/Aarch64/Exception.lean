import Osdev2.Aarch64.Interrupt

/-!
# `exception_entry` (`kernel/arch/aarch64/boot.asm`)

A synchronous exception (`takeException`), the saves that it shares with an interrupt, and
the frame they leave as `exception_handler` reads it (`InterruptFrame.load`).
`exception_frame_iff`: the frame is the interrupted state exactly if the link
register is the address of the faulting instruction, since `elr` is where the
saves put `x30`.
-/

namespace Osdev2.Aarch64

open Osdev2.Lib

/-! ## The entry -/

/-- The registers and the interrupt masks D, A, I and F. -/
structure Core where
  cpu : Cpu
  daif : BitVec 4

/-- The instruction at `pc` faults: what the exception sets before the first instruction of the
entry. -/
def takeException (pc esr far : BitVec 64) (s : Cpu) : Core where
  cpu := { s with
    sys := fun
      | .ESR_EL1 => esr
      | .FAR_EL1 => far
      | .ELR_EL1 => pc }
  daif := 0xF

inductive EntryIns where
  | daifset (imm : BitVec 4)
  | ins (i : Ins)

def EntryIns.exec (call : Cpu → Cpu) (link : BitVec 64) (s : Core) : EntryIns → Core
  | .daifset imm => { s with daif := s.daif ||| imm }
  | .ins i => { s with cpu := i.exec call link s.cpu }

/-- After the handler; behind it the entry waits for good. -/
def unwind : List Ins := restore ++ [.addSp 192]

def exception_entry : List EntryIns :=
  .daifset 0xF :: (save ++ [Ins.movSp (.x 0), Ins.bl] ++ unwind).map .ins

def exception (call : Cpu → Cpu) (link : BitVec 64) (s : Core) : Core :=
  exception_entry.foldl (EntryIns.exec call link) s

/-- `u` is the machine that the handler is called in, whatever the handler is. -/
def HandlerIn (link : BitVec 64) (s : Core) (u : Cpu) : Prop :=
  ∀ call : Cpu → Cpu, (exception call link s).cpu = execs call link unwind (call u)

theorem foldl_ins (call : Cpu → Cpu) (link : BitVec 64) (is : List Ins) (s : Core) :
    (is.map EntryIns.ins).foldl (EntryIns.exec call link) s =
      { s with cpu := execs call link is s.cpu } := by
  induction is generalizing s with
  | nil => rfl
  | cons i is ih => exact ih _

theorem handlerIn_entered (link : BitVec 64) (s : Core) : HandlerIn link s (entered link s.cpu) := by
  intro call
  rw [exception, exception_entry, List.foldl_cons, foldl_ins]
  simp only [EntryIns.exec]
  rw [execs_append, execs_append, execs_save]
  rfl

/-! ## The frame as C reads it -/

/-- `interrupt_frame_t`; `x` are its members `x0` to `x18`. -/
structure InterruptFrame where
  x : Fin 19 → BitVec 64
  fp : BitVec 64
  elr : BitVec 64
  xzr : BitVec 64
  esr : BitVec 64
  far : BitVec 64

/-- The `uint64_t` member with index `k`. -/
def member (m : Mem64) (p : BitVec 64) (k : Nat) : BitVec 64 := load64 m (p + BitVec.ofNat 64 (8 * k))

/-- `*p`. -/
def InterruptFrame.load (m : Mem64) (p : BitVec 64) : InterruptFrame where
  x i := member m p i
  fp := member m p 19
  elr := member m p 20
  xzr := member m p 21
  esr := member m p 22
  far := member m p 23

/-- The frame is the state `s` that the instruction at `pc` has faulted in. -/
structure InterruptFrame.Agrees (f : InterruptFrame) (s : Cpu) (pc esr far : BitVec 64) : Prop where
  x : ∀ i : Fin 19, f.x i = s.x (i.castLE (by decide))
  fp : f.fp = s.x 29
  esr : f.esr = esr
  far : f.far = far
  elr : f.elr = pc

section Frame

variable (link : BitVec 64) (s : Cpu)

/-- What the saves have put in each slot. -/
theorem member_entered {k : Nat} (hk : k < (frameWords s).length) :
    member (entered link s).mem ((entered link s).x 0) k = (frameWords s)[k] := by
  have hlen : (frameWords s).length = 24 := rfl
  have hw : load64 (storeWords (s.sp - 192#64) 0 (frameWords s) s.mem)
      (s.sp - 192#64 + BitVec.ofNat 64 (0 + 8 * k)) = (frameWords s)[k] :=
    load64_storeWords (by omega) (by omega)
  rw [Nat.zero_add] at hw
  exact hw

theorem member_x (i : Fin 19) :
    member (entered link s).mem ((entered link s).x 0) i = s.x (i.castLE (by decide)) := by
  have hlen : (frameWords s).length = 24 := rfl
  have hi := i.isLt
  rw [member_entered link s (show i.val < (frameWords s).length by omega)]
  exact frameWords_get s (r := i.castLE (by decide)) (Nat.le_of_lt_succ hi)
    (by simp only [Fin.val_castLE]; omega)

theorem member_elr : member (entered link s).mem ((entered link s).x 0) 20 = s.x 30 :=
  member_entered link s (show 20 < 24 by decide)

end Frame

/-- **The exception frame.** Whatever state an instruction faults in, the frame that the handler is
called with agrees with it exactly if the link register was the address of the instruction. -/
theorem exception_frame_iff (pc esr far link : BitVec 64) (s : Cpu) :
    ∃ u, HandlerIn link (takeException pc esr far s) u ∧
      ((InterruptFrame.load u.mem (u.x 0)).Agrees s pc esr far ↔ s.x 30 = pc) := by
  refine ⟨_, handlerIn_entered link (takeException pc esr far s), ⟨fun h => ?_, fun h => ?_⟩⟩
  · exact (member_elr link (takeException pc esr far s).cpu).symm.trans h.elr
  · exact {
      x := member_x link (takeException pc esr far s).cpu
      fp := member_entered link (takeException pc esr far s).cpu (show 19 < 24 by decide)
      esr := member_entered link (takeException pc esr far s).cpu (show 22 < 24 by decide)
      far := member_entered link (takeException pc esr far s).cpu (show 23 < 24 by decide)
      elr := (member_elr link (takeException pc esr far s).cpu).trans h }

/-- A fault at 0x40080000 in code that returns to 0x40081234: the frame names the caller. -/
theorem exception_frame_elr : ∃ u,
    HandlerIn 0
      (takeException 0x40080000 0x96000000 0 ⟨fun _ => 0x40081234, 0x4000, fun _ => 0, fun _ => 0⟩) u ∧
      (InterruptFrame.load u.mem (u.x 0)).elr = 0x40081234 ∧
      ¬(InterruptFrame.load u.mem (u.x 0)).Agrees ⟨fun _ => 0x40081234, 0x4000, fun _ => 0, fun _ => 0⟩
        0x40080000 0x96000000 0 := by
  have helr := member_elr 0
    (takeException 0x40080000 0x96000000 0 ⟨fun _ => 0x40081234, 0x4000, fun _ => 0, fun _ => 0⟩).cpu
  refine ⟨_, handlerIn_entered _ _, helr, fun h => ?_⟩
  exact absurd (helr.symm.trans h.elr) (by decide)

end Osdev2.Aarch64
