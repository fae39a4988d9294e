import Osdev2.I386.Idt

/-!
# The interrupt stubs (`kernel/arch/i386/boot.asm`)

The registers, a stack in byte memory, and the few instructions of the stubs. `interrupt` is what
the processor does when it takes a gate: it pushes the flags, `cs` and `eip`, and for some
exceptions an error code, and clears some of the flags.

`keyboard_stub_transparent`: whatever C function the stub calls, any number of keyboard
interrupts give back every register, `eip` and the flags, and leave what lies above the stack
pointer to the C functions.
-/

namespace Osdev2.I386

open Osdev2.Lib

/-! ## The processor -/

/-- In the order of `pusha`. -/
inductive Reg where
  | eax
  | ecx
  | edx
  | ebx
  | esp
  | ebp
  | esi
  | edi
  deriving DecidableEq

structure Cpu where
  reg : Reg → BitVec 32
  eip : BitVec 32
  cs : BitVec 32
  eflags : BitVec 32
  mem : Mem

namespace Cpu

def set (s : Cpu) (r : Reg) (v : BitVec 32) : Cpu := { s with reg := Function.update s.reg r v }

def push (s : Cpu) (v : BitVec 32) : Cpu :=
  { s.set .esp (s.reg .esp - 4#32) with mem := s.mem.put (s.reg .esp - 4#32).toNat (le32 v) }

/-- The word at `esp + off`. -/
def top (s : Cpu) (off : Nat) : BitVec 32 := load32 s.mem ((s.reg .esp).toNat + off)

@[simp] theorem push_esp (s : Cpu) (v : BitVec 32) : (s.push v).reg .esp = s.reg .esp - 4#32 := by
  simp only [push, set, Function.update_self]

@[simp] theorem push_reg (s : Cpu) (v : BitVec 32) {r : Reg} (h : r ≠ .esp) : (s.push v).reg r = s.reg r := by
  simp only [push, set, Function.update_of_ne h]

def pushes (s : Cpu) (ws : List (BitVec 32)) : Cpu := ws.foldl push s

end Cpu

/-- TF, NT, RF and VM are cleared, and at an interrupt gate IF too. -/
def gateFlags (type : BitVec 5) (eflags : BitVec 32) : BitVec 32 :=
  if type = interruptGate then eflags &&& ~~~0x34300#32 else eflags &&& ~~~0x34100#32

/-- The processor takes the gate. -/
def interrupt (g : Gate) (code : Option (BitVec 32)) (s : Cpu) : Cpu :=
  { s.pushes ([s.eflags, s.cs, s.eip] ++ code.toList) with
    eip := g.offset
    cs := g.selector.setWidth 32
    eflags := gateFlags g.type s.eflags }

inductive Ins where
  | push (imm : BitVec 32)
  | pusha
  | popa
  | call
  | addEsp (n : BitVec 32)
  | hlt
  | iret
  deriving DecidableEq

/-- The general registers, as `pusha` pushes them. -/
def pushaWords (s : Cpu) : List (BitVec 32) :=
  [s.reg .eax, s.reg .ecx, s.reg .edx, s.reg .ebx, s.reg .esp, s.reg .ebp, s.reg .esi, s.reg .edi]

/-- One instruction; `call` runs the C function up to its `ret`, and `link` is the address behind
it. The next `eip` matters only where `iret` sets it. -/
def Ins.exec (f : Cpu → Cpu) (link : BitVec 32) (s : Cpu) : Ins → Cpu
  | .push imm => s.push imm
  | .pusha => s.pushes (pushaWords s)
  | .popa =>
    { s with
      reg := fun
        | .edi => s.top 0
        | .esi => s.top 4
        | .ebp => s.top 8
        | .esp => s.reg .esp + 32#32
        | .ebx => s.top 16
        | .edx => s.top 20
        | .ecx => s.top 24
        | .eax => s.top 28 }
  | .call => f (s.push link)
  | .addEsp n => s.set .esp (s.reg .esp + n)
  | .hlt => s
  | .iret =>
    { s.set .esp (s.reg .esp + 12#32) with eip := s.top 0, cs := s.top 4, eflags := s.top 8 }

def execs (f : Cpu → Cpu) (link : BitVec 32) (is : List Ins) (s : Cpu) : Cpu := is.foldl (Ins.exec f link) s

/-- What a stub relies on of the C function it calls: it takes its return address off the stack, and
does not write the `n` bytes above that, which are the stub's. -/
structure Cdecl (n : Nat) (f : Cpu → Cpu) : Prop where
  esp : ∀ s, (f s).reg .esp = s.reg .esp + 4#32
  frame : ∀ s k, k < n → (f s).mem ((s.reg .esp).toNat + 4 + k) = s.mem ((s.reg .esp).toNat + 4 + k)

def keyboard_stub : List Ins := [.pusha, .call, .popa, .iret]

/-! ## The stack -/

section Stack

variable {s : Cpu} {ws : List (BitVec 32)}

theorem toNat_sub {e : BitVec 32} {n : Nat} (h : n ≤ e.toNat) :
    (e - BitVec.ofNat 32 n).toNat = e.toNat - n := by
  have he := e.isLt
  rw [BitVec.toNat_sub, BitVec.toNat_ofNat]
  omega

/-- Words pushed are below where the stack was, the first one on top. -/
structure OnStack (ws : List (BitVec 32)) (s t : Cpu) : Prop where
  esp : t.reg .esp = s.reg .esp - BitVec.ofNat 32 (4 * ws.length)
  reg : ∀ r, r ≠ .esp → t.reg r = s.reg r
  word : ∀ i, i < ws.length → load32 t.mem ((s.reg .esp).toNat - 4 * (i + 1)) = ws.getD i 0
  mem : ∀ a, a < (s.reg .esp).toNat - 4 * ws.length ∨ (s.reg .esp).toNat ≤ a → t.mem a = s.mem a

theorem onStack_pushes (h : 4 * ws.length ≤ (s.reg .esp).toNat) : OnStack ws s (s.pushes ws) := by
  induction ws generalizing s with
  | nil =>
    exact ⟨(BitVec.sub_zero _).symm, fun _ _ => rfl, fun _ hi => absurd hi (Nat.not_lt_zero _),
      fun _ _ => rfl⟩
  | cons w ws ih =>
    rw [List.length_cons] at h
    have hesp := s.push_esp w
    have hto : ((s.push w).reg .esp).toNat = (s.reg .esp).toNat - 4 := by
      rw [hesp]
      exact toNat_sub (n := 4) (by omega)
    have hput : (s.push w).mem = s.mem.put ((s.reg .esp).toNat - 4) (le32 w) := by
      rw [← hto, hesp]
      rfl
    have hrest := ih (s := s.push w) (by omega)
    have hout : ∀ a, a < (s.reg .esp).toNat - 4 ∨ (s.reg .esp).toNat ≤ a → (s.push w).mem a = s.mem a :=
      fun a ha => by
        rw [hput]
        refine (Stored.put _ _ _).outside fun hin => ?_
        have hlen : (le32 w).length = 4 := rfl
        omega
    refine ⟨?_, fun r hr => ?_, fun i hi => ?_, fun a ha => ?_⟩
    · rw [Cpu.pushes, List.foldl_cons, ← Cpu.pushes, hrest.esp, hesp, List.length_cons, Nat.mul_succ,
        Nat.add_comm, BitVec.ofNat_add]
      exact sub_sub _ _ _
    · exact (hrest.reg r hr).trans (s.push_reg w hr)
    · rw [Cpu.pushes, List.foldl_cons, ← Cpu.pushes]
      cases i with
      | zero =>
        have hkeep : load32 ((s.push w).pushes ws).mem ((s.reg .esp).toNat - 4) =
            load32 (s.push w).mem ((s.reg .esp).toNat - 4) :=
          load32_congr fun k _ => hrest.mem _ (Or.inr (by omega))
        rw [Nat.zero_add, Nat.mul_one, hkeep, hput, load32_put]
        rfl
      | succ i =>
        rw [List.length_cons] at hi
        have hword := hrest.word i (by omega)
        rw [hto] at hword
        rw [List.getD_cons_succ, ← hword]
        congr 1
        omega
    · rw [List.length_cons] at ha
      rw [Cpu.pushes, List.foldl_cons, ← Cpu.pushes, hrest.mem a (by omega), hout a (by omega)]

theorem OnStack.top {t : Cpu} (h : OnStack ws s t) (hesp : 4 * ws.length ≤ (s.reg .esp).toNat) {i : Nat}
    (hi : i < ws.length) : t.top (4 * (ws.length - 1 - i)) = ws.getD i 0 := by
  have hlt := (s.reg .esp).isLt
  rw [Cpu.top, h.esp, toNat_sub hesp, ← h.word i hi]
  congr 1
  omega

theorem pushes_append (s : Cpu) (ws vs : List (BitVec 32)) :
    s.pushes (ws ++ vs) = (s.pushes ws).pushes vs :=
  List.foldl_append

theorem pushes_with (s : Cpu) (ws : List (BitVec 32)) (eip cs eflags : BitVec 32) :
    ({ s with eip := eip, cs := cs, eflags := eflags } : Cpu).pushes ws =
      { s.pushes ws with eip := eip, cs := cs, eflags := eflags } := by
  induction ws generalizing s with
  | nil => rfl
  | cons w ws ih => exact ih (s.push w)

end Stack

/-! ## The keyboard's stub -/

section Keyboard

/-- One keyboard interrupt, from the instruction it comes before to that instruction again. -/
def irq (g : Gate) (f : Cpu → Cpu) (link : BitVec 32) (s : Cpu) : Cpu :=
  execs f link keyboard_stub (interrupt g none s)

/-- What is on the stack when `keyboard` is entered. -/
def stubFrame (link : BitVec 32) (s : Cpu) : List (BitVec 32) :=
  [s.eflags, s.cs, s.eip, s.reg .eax, s.reg .ecx, s.reg .edx, s.reg .ebx, s.reg .esp - 12#32,
    s.reg .ebp, s.reg .esi, s.reg .edi, link]

variable {g : Gate} {f : Cpu → Cpu} {link : BitVec 32} {s : Cpu}

/-- The processor as `keyboard` is entered. -/
def atHandler (g : Gate) (link : BitVec 32) (s : Cpu) : Cpu :=
  { s.pushes (stubFrame link s) with
    eip := g.offset
    cs := g.selector.setWidth 32
    eflags := gateFlags g.type s.eflags }

theorem interrupt_none : interrupt g none s =
    { s.pushes [s.eflags, s.cs, s.eip] with
      eip := g.offset
      cs := g.selector.setWidth 32
      eflags := gateFlags g.type s.eflags } := by
  rw [interrupt, Option.toList_none, List.append_nil]

theorem pushaWords_interrupt (hesp : 48 ≤ (s.reg .esp).toNat) :
    [s.eflags, s.cs, s.eip] ++ (pushaWords (interrupt g none s) ++ [link]) = stubFrame link s := by
  have h : OnStack [s.eflags, s.cs, s.eip] s (s.pushes [s.eflags, s.cs, s.eip]) :=
    onStack_pushes (by simp only [List.length_cons, List.length_nil]; omega)
  have hreg : ∀ r, r ≠ .esp → (interrupt g none s).reg r = s.reg r := fun r hr => by
    rw [interrupt_none]
    exact h.reg r hr
  have hesp' : (interrupt g none s).reg .esp = s.reg .esp - 12#32 := by
    rw [interrupt_none]
    exact h.esp
  simp only [pushaWords, stubFrame, hesp', hreg .eax (by decide), hreg .ecx (by decide),
    hreg .edx (by decide), hreg .ebx (by decide), hreg .ebp (by decide), hreg .esi (by decide),
    hreg .edi (by decide)]
  rfl

theorem execs_keyboard_stub (t : Cpu) : execs f link keyboard_stub t =
    execs f link [.popa, .iret] (f ((t.pushes (pushaWords t)).push link)) := rfl

theorem execs_return_mem (t : Cpu) : (execs f link [.popa, .iret] t).mem = t.mem := rfl

theorem atHandler_mem : (atHandler g link s).mem = (s.pushes (stubFrame link s)).mem := by
  rw [atHandler]

theorem irq_eq (hesp : 48 ≤ (s.reg .esp).toNat) :
    irq g f link s = execs f link [.popa, .iret] (f (atHandler g link s)) := by
  have hcalled : ((interrupt g none s).pushes (pushaWords (interrupt g none s))).push link =
      atHandler g link s :=
    calc ((interrupt g none s).pushes (pushaWords (interrupt g none s))).push link
      _ = (interrupt g none s).pushes (pushaWords (interrupt g none s) ++ [link]) :=
        (pushes_append _ _ [link]).symm
      _ = { s.pushes ([s.eflags, s.cs, s.eip] ++ (pushaWords (interrupt g none s) ++ [link])) with
            eip := g.offset
            cs := g.selector.setWidth 32
            eflags := gateFlags g.type s.eflags } := by
        generalize pushaWords (interrupt g none s) ++ [link] = ws
        rw [pushes_append, interrupt_none, pushes_with]
      _ = atHandler g link s := by rw [pushaWords_interrupt hesp, atHandler]
  rw [irq, execs_keyboard_stub, hcalled]

/-- **One interrupt.** -/
theorem irq_transparent (h : Cdecl 44 f) (hesp : 48 ≤ (s.reg .esp).toNat) :
    (irq g f link s).reg = s.reg ∧ (irq g f link s).eip = s.eip ∧ (irq g f link s).cs = s.cs ∧
      (irq g f link s).eflags = s.eflags ∧
      ∀ a, (∀ t, (f t).mem a = t.mem a) → a < (s.reg .esp).toNat - 48 ∨ (s.reg .esp).toNat ≤ a →
        (irq g f link s).mem a = s.mem a := by
  have hlt := (s.reg .esp).isLt
  have hlen : (stubFrame link s).length = 12 := rfl
  have hp : OnStack (stubFrame link s) s (s.pushes (stubFrame link s)) :=
    onStack_pushes (by rw [hlen]; omega)
  have hesp3 : ((atHandler g link s).reg .esp).toNat = (s.reg .esp).toNat - 48 := by
    have he : (atHandler g link s).reg .esp = s.reg .esp - BitVec.ofNat 32 48 := hp.esp
    rw [he, toNat_sub (by omega)]
  have hesp4 : (f (atHandler g link s)).reg .esp = s.reg .esp - 44#32 := by
    have he : (atHandler g link s).reg .esp = s.reg .esp - BitVec.ofNat 32 48 := hp.esp
    rw [h.esp, he]
    bv_omega
  have hto : ((f (atHandler g link s)).reg .esp).toNat = (s.reg .esp).toNat - 44 := by
    rw [hesp4]
    exact toNat_sub (n := 44) (by omega)
  -- the words above the return address are still there
  have hword : ∀ i, i < 11 → (f (atHandler g link s)).top (4 * (10 - i)) = (stubFrame link s).getD i 0 := by
    intro i hi
    have hload := hp.word i (by rw [hlen]; omega)
    rw [Cpu.top, hto, ← hload]
    rw [show (s.reg .esp).toNat - 44 + 4 * (10 - i) = (s.reg .esp).toNat - 4 * (i + 1) by omega]
    refine load32_congr fun k hk => ?_
    have hframe := h.frame (atHandler g link s)
      ((s.reg .esp).toNat - 4 * (i + 1) + k - ((s.reg .esp).toNat - 48 + 4)) (by omega)
    rw [hesp3, show (s.reg .esp).toNat - 48 + 4 +
      ((s.reg .esp).toNat - 4 * (i + 1) + k - ((s.reg .esp).toNat - 48 + 4)) =
        (s.reg .esp).toNat - 4 * (i + 1) + k by omega, atHandler_mem] at hframe
    exact hframe
  rw [irq_eq hesp]
  have hiret : (s.reg .esp) - 44#32 + 32#32 = s.reg .esp - 12#32 := by bv_omega
  have hto12 : (s.reg .esp - 12#32).toNat = (s.reg .esp).toNat - 12 := toNat_sub (n := 12) (by omega)
  have htop : ∀ off, off ≤ 8 → load32 (f (atHandler g link s)).mem ((s.reg .esp).toNat - 12 + off) =
      (f (atHandler g link s)).top (32 + off) := fun off _ => by
    rw [Cpu.top, hto]
    congr 1
    omega
  refine ⟨funext fun r => ?_, ?_, ?_, ?_, fun a hf ha => ?_⟩
  · cases r with
    | esp =>
      simp only [execs, List.foldl_cons, List.foldl_nil, Ins.exec, Cpu.set, Function.update_self, hesp4]
      bv_omega
    | edi => exact hword 10 (by decide)
    | esi => exact hword 9 (by decide)
    | ebp => exact hword 8 (by decide)
    | ebx => exact hword 6 (by decide)
    | edx => exact hword 5 (by decide)
    | ecx => exact hword 4 (by decide)
    | eax => exact hword 3 (by decide)
  · simp only [execs, List.foldl_cons, List.foldl_nil, Ins.exec, Cpu.top, hesp4, hiret, hto12]
    rw [htop 0 (by decide)]
    exact hword 2 (by decide)
  · simp only [execs, List.foldl_cons, List.foldl_nil, Ins.exec, Cpu.top, hesp4, hiret, hto12]
    rw [htop 4 (by decide)]
    exact hword 1 (by decide)
  · simp only [execs, List.foldl_cons, List.foldl_nil, Ins.exec, Cpu.top, hesp4, hiret, hto12]
    rw [htop 8 (by decide)]
    exact hword 0 (by decide)
  · rw [execs_return_mem, hf, atHandler_mem, hp.mem a (by rw [hlen]; exact ha)]

/-- `n` interrupts at one instruction, the `i`-th handled by `call i`. -/
def irqs (g : Gate) (call : Nat → Cpu → Cpu) (link : BitVec 32) : Nat → Cpu → Cpu
  | 0, s => s
  | n + 1, s => irq g (call n) link (irqs g call link n s)

/-- **Transparent.** The interrupted program finds its registers, its stack pointer, its flags and
its next instruction as they were, and in memory, outside the 48 bytes below its stack, only what
the handlers stored. -/
theorem keyboard_stub_transparent (g : Gate) {call : Nat → Cpu → Cpu} (h : ∀ i, Cdecl 44 (call i))
    (link : BitVec 32) {s : Cpu} (hesp : 48 ≤ (s.reg .esp).toNat) (n : Nat) :
    (irqs g call link n s).reg = s.reg ∧ (irqs g call link n s).eip = s.eip ∧
      (irqs g call link n s).cs = s.cs ∧ (irqs g call link n s).eflags = s.eflags ∧
      ∀ a, (∀ i t, (call i t).mem a = t.mem a) → a < (s.reg .esp).toNat - 48 ∨ (s.reg .esp).toNat ≤ a →
        (irqs g call link n s).mem a = s.mem a := by
  induction n with
  | zero => exact ⟨rfl, rfl, rfl, rfl, fun _ _ _ => rfl⟩
  | succ n ih =>
    obtain ⟨hreg, heip, hcs, hflags, hmem⟩ := ih
    have hesp' : 48 ≤ ((irqs g call link n s).reg .esp).toNat := by rw [hreg]; exact hesp
    obtain ⟨hreg1, heip1, hcs1, hflags1, hmem1⟩ := irq_transparent (h n) hesp'
    refine ⟨hreg1.trans hreg, heip1.trans heip, hcs1.trans hcs, hflags1.trans hflags, fun a hcall ha => ?_⟩
    refine (hmem1 a (hcall n) ?_).trans (hmem a hcall ha)
    rw [hreg]
    exact ha

/-- A handler that only returns. -/
def returning (s : Cpu) : Cpu := s.set .esp (s.reg .esp + 4#32)

theorem returning_cdecl : Cdecl 44 returning :=
  ⟨fun s => by simp only [returning, Cpu.set, Function.update_self], fun _ _ _ => rfl⟩

/-- In `kmain`, its stack at `0x12000`. -/
def interrupted : Cpu := ⟨fun _ => 0x12000, 0x10500, 8, 0x202, fun _ => 0⟩

theorem keyboard_stub_three :
    (irqs (kernelGate 0x10200) (fun _ => returning) 0x10208 3 interrupted).reg = interrupted.reg ∧
      (irqs (kernelGate 0x10200) (fun _ => returning) 0x10208 3 interrupted).eflags = 0x202 := by
  have hesp : (interrupted.reg .esp).toNat = 0x12000 := rfl
  have h := keyboard_stub_transparent (kernelGate 0x10200) (fun _ => returning_cdecl) 0x10208
    (s := interrupted) (by omega) 3
  exact ⟨h.1, h.2.2.2.1⟩

end Keyboard

end Osdev2.I386
