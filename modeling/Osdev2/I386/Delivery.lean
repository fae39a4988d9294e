import Osdev2.I386.Boot
import Osdev2.I386.Idt
import Osdev2.I386.Requests
import Osdev2.Lib.Emits

/-!
# From the keyboard to `keyboard` (`kernel/arch/i386/arch.c`, `kbd.c`)

A byte the keyboard sends waits in the output buffer of its controller, which holds up line 1 of
the master; the processor takes the interrupt through the gate of its vector, and the handler
reads the byte at port 0x60, acts on it, writes the EOI and returns. `Computer` is all of this
with what is left of `arch_init` and of `kmain`. In `Computer.step` the keyboard, its controller,
the other seven lines and the processor take their steps in any order.

The vector of line 1 comes from the master (`Master.vector`).

`delivery`: any run is one of `bootStep`, with the keyboard's bytes as its interrupts, each once
and in order, and no interrupt but the keyboard's is ever taken. `delivery_live`: nothing is left
to do only when each byte has been handled, unless the buffer was full when `pic_remap` began:
the ICW1 forgets the line's rise, so no byte is ever handled then.
-/

namespace Osdev2.I386

open Osdev2.Lib Osdev2.Libk Osdev2.Kernel

/-! ## The rest of `arch_init` -/

/-- What of `arch_init` bears on interrupts. -/
inductive Setup where
  | store (f : Mem → Mem)
  | lidt (r : tabreg_t)
  | outb (w : PortByte)
  | sti

/-- Where the linker puts the table and the handlers. -/
structure Linked where
  idt : BitVec 32
  isr_stub_table : Nat → BitVec 32
  keyboard_stub : BitVec 32

/-- From the filling of the table to `sti`. -/
def arch_init (A : Linked) : List Setup :=
  [Setup.store (fill_idt A.idt A.isr_stub_table), Setup.lidt (idt_r A.idt)] ++
    (pic_init 0x20 0x28).map Setup.outb ++
      [Setup.store (add_idt_entry A.idt 0x21 A.keyboard_stub 0x8E), Setup.sti]

/-- The first byte of `pic_remap`, an ICW1 for the master. -/
def icw1 : Setup := .outb (0x20, 0x11)

/-! ## The machine -/

/-- Where an interrupt's handler is. -/
inductive Stage where
  | entered
  /-- `sc` has been read. -/
  | took (sc : Byte)
  | handled
  /-- Behind the EOI. -/
  | returning
  /-- The gate led elsewhere. -/
  | lost
  deriving DecidableEq

structure Computer (A : DriverAddresses) where
  /-- What the keyboard has yet to send. -/
  queue : List Byte
  /-- The output buffer, and the byte read last. -/
  out : Option Byte
  last : Byte
  master : Master
  slave : Pic
  idtr : tabreg_t
  program : List Setup
  iflag : Bool
  /-- The handlers entered, the innermost first. -/
  frames : List Stage
  booting : Booting A

inductive Turn where
  /-- A key: one byte more to send. -/
  | key (sc : Byte)
  /-- The buffer takes the next byte. -/
  | send
  /-- A line of another device goes up or down. -/
  | line (k : Fin 8) (up : Bool)
  /-- The processor takes an interrupt. -/
  | intr
  /-- The processor's next instruction. -/
  | cpu
  deriving DecidableEq

/-- The bytes typed. -/
def Turn.typed : Turn → List Byte
  | .key sc => [sc]
  | _ => []

def Tick.scancode : Tick → Option Byte
  | .irq sc => some sc
  | .main => none

namespace Computer

variable {D : DriverAddresses} (A : Linked) (L : Layout (i386 D))

def setMem (s : Computer D) (m : Mem) : Computer D :=
  { s with booting := { s.booting with machine := { s.booting.machine with mem := m } } }

def mem (s : Computer D) : Mem := s.booting.machine.mem

def exec (s : Computer D) : Setup → Computer D
  | .store f => s.setMem (f s.mem)
  | .lidt r => { s with idtr := r }
  | .outb w => { s with master := s.master.outb w, slave := (heard 0xA0 w).elim s.slave s.slave.write }
  | .sti => { s with iflag := true }

/-- `inb(0x60)`: the buffer is empty after it, and its line down. -/
def inb (s : Computer D) : Byte × Computer D :=
  (s.out.getD s.last, { s with out := none, last := s.out.getD s.last, master := s.master.lower 1 })

/-- The interrupt of line `k` is acknowledged and its gate taken. -/
def accept (s : Computer D) (k : Fin 8) : Computer D :=
  let s' := { s with master := s.master.acknowledge k }
  match s.idtr.gate s.mem (s.master.vector k) with
  | none => { s' with frames := .lost :: s.frames }
  | some g =>
    if g.present ∧ g.offset = A.keyboard_stub ∧ g.selector = 0x0008 then
      { s' with iflag := s.iflag && g.type != interruptGate, frames := .entered :: s.frames }
    else { s' with frames := .lost :: s.frames }

/-- The processor's next instruction, or the body of the handler. -/
def cpu (s : Computer D) : Option (Computer D) :=
  match s.frames with
  | .entered :: fs => some { s.inb.2 with frames := .took s.inb.1 :: fs }
  | .took sc :: fs => (keyboard L sc s.booting.machine).map fun m =>
    { s with frames := .handled :: fs, booting := { s.booting with machine := m } }
  | .handled :: fs => some { s.exec (.outb (0x20, 0x20)) with frames := .returning :: fs }
  | .returning :: fs => some { s with frames := fs, iflag := true }
  | .lost :: _ => none
  | [] =>
    match s.program with
    | i :: rest => some ({ s with program := rest }.exec i)
    | [] =>
      -- behind `kmain`'s last line it halts until an interrupt comes
      if s.booting.rest = [] then some s
      else (bootStep L .main s.booting).map fun b => { s with booting := b }

def step (e : Turn) (s : Computer D) : Option (Computer D) :=
  match e with
  | .key sc => some { s with queue := s.queue ++ [sc] }
  | .send =>
    match s.queue, s.out with
    | sc :: queue, none => some { s with queue := queue, out := some sc, master := s.master.raise 1 }
    | _, _ => none
  | .line k up =>
    if k = 1 then none else some { s with master := if up then s.master.raise k else s.master.lower k }
  | .intr => if s.iflag then s.master.request.map (s.accept A) else none
  | .cpu => s.cpu L

/-! ## What is in it and what comes out -/

/-- Bytes on the way, the oldest first. -/
def held (s : Computer D) : List Byte :=
  (s.frames.reverse.filterMap fun | .took sc => some sc | _ => none) ++ s.out.toList ++ s.queue

/-- The master has a request of the keyboard. -/
def requested (s : Computer D) : Bool := s.master.irr 1

/-- The steps of the boot. -/
def ticks : Turn → Computer D → List Tick
  | .cpu, s =>
    match s.frames, s.program with
    | .took sc :: _, _ => [.irq sc]
    | [], [] => if s.booting.rest = [] then [] else [.main]
    | _, _ => []
  | _, _ => []

end Computer

/-! ## What the setup comes to -/

/-- The state it works on. -/
structure Config where
  pics : Pics
  idtr : tabreg_t
  mem : Mem

def Setup.apply (c : Config) : Setup → Config
  | .store f => { c with mem := f c.mem }
  | .lidt r => { c with idtr := r }
  | .outb w => { c with pics := c.pics.outb w }
  | .sti => c

def Setup.toMem (m : Mem) : Setup → Mem
  | .store f => f m
  | _ => m

/-- The master is set up for the keyboard alone, and the gate of its vector is in place. -/
structure Configured (A : Linked) (c : Config) : Prop where
  master : c.pics.master = ⟨.mask, 0x11, 0x20, 0x2, 0x01, 0xFD⟩
  idtr : c.idtr = idt_r A.idt
  gate : c.idtr.gate c.mem 0x21 = some (kernelGate A.keyboard_stub)

theorem foldl_outb (ws : List PortByte) (c : Config) :
    (ws.map Setup.outb).foldl Setup.apply c = { c with pics := ws.foldl Pics.outb c.pics } := by
  induction ws generalizing c with
  | nil => rfl
  | cons w ws ih => exact ih _

theorem arch_init_configured (A : Linked) (c : Config) :
    Configured A ((arch_init A).foldl Setup.apply c) := by
  rw [arch_init, List.foldl_append, List.foldl_append, foldl_outb, pic_init_eq]
  refine ⟨rfl, rfl, ?_⟩
  have hgate := arch_idt_gate A.idt A.isr_stub_table A.keyboard_stub c.mem 0x21
  rwa [if_neg (by decide), if_pos rfl] at hgate

namespace Computer

variable {D : DriverAddresses}

def config (s : Computer D) : Config := ⟨⟨s.master.pic, s.slave⟩, s.idtr, s.mem⟩

/-- The state once the rest of the setup is done. -/
def settled (s : Computer D) : Config := s.program.foldl Setup.apply s.config

/-- The boot as `bootStep` sees it: the table is there from the beginning. -/
def boot (s : Computer D) : Booting D :=
  ⟨s.booting.rest, { s.booting.machine with mem := s.program.foldl (fun m i => i.toMem m) s.mem }⟩

theorem config_exec (s : Computer D) (i : Setup) : (s.exec i).config = Setup.apply s.config i := by
  cases i with
  | outb w =>
    simp only [exec, config, Setup.apply, Pics.outb, Master.outb_pic]
    rfl
  | _ => rfl

@[simp] theorem exec_program (s : Computer D) (i : Setup) : (s.exec i).program = s.program := by
  cases i <;> rfl

@[simp] theorem exec_frames (s : Computer D) (i : Setup) : (s.exec i).frames = s.frames := by cases i <;> rfl

@[simp] theorem exec_out (s : Computer D) (i : Setup) : (s.exec i).out = s.out := by cases i <;> rfl

theorem boot_of_done {s : Computer D} (h : s.program = []) : s.boot = s.booting := by
  rw [boot, h]
  rfl

end Computer

/-! ## The invariant -/

/-- The handler has not written its EOI. -/
def Stage.serving : Stage → Bool
  | .entered | .took _ | .handled => true
  | .returning | .lost => false

/-- What the master knows, once `pic_remap` has begun. -/
structure Working {D : DriverAddresses} (s : Computer D) : Prop where
  isr : ∀ k, s.master.isr k = (decide (k = 1) && s.frames.any Stage.serving)
  request : s.master.irr 1 = true → s.out.isSome = true
  entered : s.frames = [.entered] → s.out.isSome = true

/-- A handler runs alone, with interrupts off. -/
structure Sound {D : DriverAddresses} (A : Linked) (s : Computer D) : Prop where
  suffix : s.program <:+ arch_init A
  configured : Configured A s.settled
  frames : (s.frames = [] ∧ (s.iflag = true ↔ s.program = [])) ∨
    ∃ f, s.frames = [f] ∧ f ≠ .lost ∧ s.iflag = false ∧ s.program = []
  line : s.master.lines 1 = s.out.isSome
  working : icw1 ∉ s.program → Working s

/-- Where `arch_init` begins; the controller of the keyboard drives line 1. -/
structure Start {D : DriverAddresses} (A : Linked) (s : Computer D) : Prop where
  program : s.program = arch_init A
  iflag : s.iflag = false
  frames : s.frames = []
  line : s.master.lines 1 = s.out.isSome

/-- The linker keeps the table apart from the screen and the shell's variables. -/
def Apart {D : DriverAddresses} (A : Linked) (L : Layout (i386 D)) : Prop :=
  ∀ k, k < 8 * 256 → ¬window (A.idt.toNat + k) ∧ ∀ x, L.addr x ≠ A.idt.toNat + k

/-- No handler writes to the table: a `poke` could. -/
def Spares {D : DriverAddresses} (A : Linked) (_ : Turn) (s s' : Computer D) : Prop :=
  s.frames ≠ [] → ∀ k, k < 8 * 256 → s'.mem (A.idt.toNat + k) = s.mem (A.idt.toNat + k)

section Sound

variable {D : DriverAddresses} {A : Linked} {L : Layout (i386 D)} {s s' : Computer D} {e : Turn}

theorem Start.sound (h : Start A s) : Sound A s where
  suffix := h.program ▸ List.suffix_refl _
  configured := by
    rw [Computer.settled, h.program]
    exact arch_init_configured A _
  frames := by
    refine Or.inl ⟨h.frames, ?_⟩
    rw [h.iflag, h.program]
    exact iff_of_false Bool.false_ne_true (by simp [arch_init])
  line := h.line
  working hnot := absurd (by rw [h.program]; simp [arch_init, icw1, pic_init, pic_remap]) hnot

/-- Only the keyboard's line gets through. -/
theorem request_eq_one {m : Master} (hm : m.pic = ⟨.mask, 0x11, 0x20, 0x2, 0x01, 0xFD⟩) {k : Fin 8}
    (h : m.request = some k) : k = 1 ∧ m.irr 1 = true := by
  obtain ⟨hasks, hmask, -⟩ := Master.request_some m h
  rw [hm] at hmask
  have hk : ∀ k : Fin 8, (0xFD : Byte).getLsbD k = false → k = 1 := by decide
  obtain rfl := hk k hmask
  rw [Master.asks, hm] at hasks
  exact ⟨rfl, hasks⟩

theorem Configured.congr {c : Config} {m : Mem} (h : Configured A c)
    (hm : ∀ k, k < 8 * 256 → m (A.idt.toNat + k) = c.mem (A.idt.toNat + k)) :
    Configured A { c with mem := m } := by
  refine ⟨h.master, h.idtr, ?_⟩
  rw [← h.gate, h.idtr, idt_r_gate, idt_r_gate]
  refine congrArg some (gateAt_congr fun k hk => ?_)
  rw [Nat.add_assoc]
  have h21 : (0x21 : Byte).toNat = 33 := rfl
  exact hm _ (by omega)

theorem Sound.withMaster (h : Sound A s) {m : Master} (hpic : m.pic = s.master.pic)
    (hline : m.lines 1 = s.master.lines 1) (hisr : m.isr = s.master.isr) (hirr : m.irr 1 = s.master.irr 1) :
    Sound A { s with master := m } where
  suffix := h.suffix
  configured := by
    have hconfig := h.configured
    rw [Computer.settled, Computer.config, ← hpic] at hconfig
    exact hconfig
  frames := h.frames
  line := hline.trans h.line
  working hn := ⟨fun k => hisr ▸ (h.working hn).isr k, fun hr => (h.working hn).request (hirr ▸ hr),
    (h.working hn).entered⟩

theorem Sound.line_step (h : Sound A s) {k : Fin 8} (hk : k ≠ 1) (up : Bool) :
    Sound A { s with master := if up then s.master.raise k else s.master.lower k } := by
  have hne : (1 : Fin 8) ≠ k := Ne.symm hk
  cases up with
  | false =>
    exact h.withMaster rfl (Function.update_of_ne hne _ _) rfl (Function.update_of_ne hne _ _)
  | true =>
    simp only [if_true, Master.raise]
    split
    · exact h
    · exact h.withMaster rfl (Function.update_of_ne hne _ _) rfl (Function.update_of_ne hne _ _)

/-- The buffer takes a byte, and its line goes up. -/
theorem Sound.send_step (h : Sound A s) (hout : s.out = none) (sc : Byte) (queue : List Byte) :
    Sound A { s with queue := queue, out := some sc, master := s.master.raise 1 } := by
  have hlow : s.master.lines 1 = false := by rw [h.line, hout]; rfl
  have hraise : s.master.raise 1 = { s.master with
      lines := Function.update s.master.lines 1 true
      irr := Function.update s.master.irr 1 true } := by
    rw [Master.raise, hlow]
    rfl
  rw [hraise]
  exact ⟨h.suffix, h.configured, h.frames, Function.update_self (1 : Fin 8) true s.master.lines,
    fun hn => ⟨(h.working hn).isr, fun _ => rfl, fun _ => rfl⟩⟩

/-- **The interrupt.** It is the keyboard's, and its gate leads to the keyboard's handler with
interrupts off. -/
theorem Sound.intr_step (h : Sound A s) (hif : s.iflag = true) {k : Fin 8} (hk : s.master.request = some k) :
    s.program = [] ∧ s.frames = [] ∧ s.master.irr 1 = true ∧
      s.accept A k =
        { s with master := s.master.acknowledge 1, iflag := false, frames := [.entered] } ∧
      Sound A (s.accept A k) := by
  obtain ⟨hframes, hprogram⟩ : s.frames = [] ∧ s.program = [] := by
    rcases h.frames with ⟨hf, hi⟩ | ⟨f, -, -, hoff, -⟩
    · exact ⟨hf, hi.mp hif⟩
    · rw [hoff] at hif
      cases hif
  have hw := h.working (by rw [hprogram]; exact List.not_mem_nil)
  have hconfig := h.configured
  rw [Computer.settled, hprogram, List.foldl_nil] at hconfig
  have hpic : s.master.pic = _ := hconfig.master
  obtain ⟨rfl, hirr⟩ := request_eq_one hpic hk
  have hvector : s.master.vector 1 = 0x21 := by
    rw [Master.vector, hpic]
    rfl
  have haccept : s.accept A 1 =
      { s with master := s.master.acknowledge 1, iflag := false, frames := [.entered] } := by
    have hgate : s.idtr.gate s.mem 0x21 = some (kernelGate A.keyboard_stub) := hconfig.gate
    rw [Computer.accept, hvector, hgate]
    simp only [kernelGate, and_self, if_true, hif, hframes, bne_self_eq_false, Bool.and_false]
  have hisr : (s.master.acknowledge 1).isr = Function.update s.master.isr 1 true := by
    rw [Master.acknowledge, hpic]
    rfl
  refine ⟨hprogram, hframes, hirr, haccept, ?_⟩
  rw [haccept]
  refine ⟨h.suffix, h.configured, Or.inr ⟨.entered, rfl, by decide, rfl, hprogram⟩, h.line,
    fun _ => ⟨?_, ?_, ?_⟩⟩
  · intro j
    simp only [hisr, Function.update_apply, hw.isr, hframes, List.any_nil, Bool.and_false]
    by_cases hj : j = 1
    · rw [if_pos hj, decide_eq_true hj]
      rfl
    · rw [if_neg hj, decide_eq_false hj]
      rfl
  · intro hr
    simp only [Master.acknowledge, Function.update_self] at hr
    cases hr
  · exact fun _ => hw.request hirr

theorem sti_iff {i : Setup} {rest : List Setup} (h : i :: rest <:+ arch_init A) : i = .sti ↔ rest = [] := by
  have hinit : ∃ init, arch_init A = init ++ [.sti] ∧ Setup.sti ∉ init := by
    refine ⟨_, (List.append_assoc _ [_] [_]).symm, ?_⟩
    simp [pic_init, pic_remap]
  obtain ⟨init, heq, hnot⟩ := hinit
  rw [heq, List.suffix_concat_iff] at h
  obtain h | ⟨t, ht, hsuf⟩ := h
  · cases h
  cases t with
  | nil =>
    rw [List.nil_append, List.cons.injEq] at ht
    exact iff_of_true ht.1 ht.2
  | cons j t =>
    rw [List.cons_append, List.cons.injEq] at ht
    refine iff_of_false ?_ ?_
    · rintro rfl
      exact hnot (hsuf.subset (by rw [ht.1]; exact List.mem_cons_self))
    · rw [ht.2]
      exact List.append_ne_nil_of_right_ne_nil _ (List.cons_ne_nil _ _)

theorem outb_of_ne_icw1 {w : PortByte} (h : .outb w ∈ arch_init A) (hne : Setup.outb w ≠ icw1) :
    w.1 ≠ 0x20 := by
  have hall : ∀ w ∈ pic_init 0x20 0x28, w = (0x20, 0x11) ∨ w.1 ≠ 0x20 := by
    simp [pic_init, pic_remap, iowait]
  have hw : w ∈ pic_init 0x20 0x28 := by
    simpa [arch_init] using h
  exact (hall w hw).resolve_left fun he => hne (by rw [he]; rfl)

theorem Sound.setup_step (h : Sound A s) (hf : s.frames = []) {i : Setup} {rest : List Setup}
    (hp : s.program = i :: rest) : Sound A ({ s with program := rest }.exec i) := by
  have hsuf := h.suffix
  rw [hp] at hsuf
  have hmem : i ∈ arch_init A := hsuf.subset List.mem_cons_self
  have hoff : s.iflag = false := by
    rcases h.frames with ⟨-, hi⟩ | ⟨f, hframe, -⟩
    · rw [hp] at hi
      exact Bool.eq_false_iff.mpr fun ht => absurd (hi.mp ht) (List.cons_ne_nil _ _)
    · rw [hf] at hframe
      cases hframe
  have hprogram : ({ s with program := rest }.exec i).program = rest := Computer.exec_program _ i
  have hframes : ({ s with program := rest }.exec i).frames = [] := (Computer.exec_frames _ i).trans hf
  have hout : ({ s with program := rest }.exec i).out = s.out := Computer.exec_out _ i
  refine ⟨?_, ?_, Or.inl ⟨hframes, ?_⟩, ?_, fun hn => ?_⟩
  · rw [hprogram]
    exact (List.suffix_cons i rest).trans hsuf
  · have hconfig := h.configured
    rw [Computer.settled, hp, List.foldl_cons] at hconfig
    rw [Computer.settled, hprogram, Computer.config_exec]
    exact hconfig
  · rw [hprogram, ← sti_iff hsuf]
    cases i with
    | sti => exact iff_of_true rfl rfl
    | _ =>
      refine iff_of_false ?_ (fun he => by cases he)
      rw [Computer.exec]
      exact fun ht => by cases hoff.symm.trans ht
  · rw [hout, ← h.line]
    cases i with
    | outb w => exact congrFun (Master.outb_lines s.master w) 1
    | _ => rfl
  · rw [hprogram] at hn
    by_cases hi : i = icw1
    · -- a fresh start for the master
      obtain ⟨hirr, hisr⟩ := s.master.outb_icw1 (b := 0x11) (by decide)
      subst hi
      refine ⟨fun k => ?_, fun hr => ?_, fun he => ?_⟩
      · rw [hframes, List.any_nil, Bool.and_false]
        exact congrFun hisr k
      · exact absurd ((congrFun hirr 1).symm.trans hr) Bool.false_ne_true
      · rw [hframes] at he
        cases he
    · have hw := h.working (by
        rw [hp, List.mem_cons, not_or]
        exact ⟨Ne.symm hi, hn⟩)
      have hsame : ({ s with program := rest }.exec i).master.irr = s.master.irr ∧
          ({ s with program := rest }.exec i).master.isr = s.master.isr := by
        cases i with
        | outb w => exact s.master.outb_of_not_command (outb_of_ne_icw1 hmem hi)
        | _ => exact ⟨rfl, rfl⟩
      refine ⟨fun k => ?_, fun hr => ?_, fun he => ?_⟩
      · rw [hsame.2, hframes, hw.isr, hf]
      · rw [hout]
        exact hw.request (hsame.1 ▸ hr)
      · rw [hframes] at he
        cases he

/-- What can happen, and what comes of it. -/
inductive Moves (A : Linked) (L : Layout (i386 D)) (s : Computer D) : Turn → Computer D → Prop
  | key (sc : Byte) : Moves A L s (.key sc) { s with queue := s.queue ++ [sc] }
  | send {sc : Byte} {queue : List Byte} (hqueue : s.queue = sc :: queue) (hout : s.out = none) :
    Moves A L s .send { s with queue := queue, out := some sc, master := s.master.raise 1 }
  | line {k : Fin 8} (hk : k ≠ 1) (up : Bool) :
    Moves A L s (.line k up) { s with master := if up then s.master.raise k else s.master.lower k }
  | intr {k : Fin 8} (hif : s.iflag = true) (hk : s.master.request = some k) :
    Moves A L s .intr (s.accept A k)
  | setup {i : Setup} {rest : List Setup} (hf : s.frames = []) (hp : s.program = i :: rest) :
    Moves A L s .cpu ({ s with program := rest }.exec i)
  | idle (hf : s.frames = []) (hp : s.program = []) (hb : s.booting.rest = []) : Moves A L s .cpu s
  | main {b : Booting D} (hf : s.frames = []) (hp : s.program = []) (hb : s.booting.rest ≠ [])
    (hs : bootStep L .main s.booting = some b) : Moves A L s .cpu { s with booting := b }
  | inb {fs : List Stage} (hf : s.frames = .entered :: fs) :
    Moves A L s .cpu { s.inb.2 with frames := .took s.inb.1 :: fs }
  | body {sc : Byte} {fs : List Stage} {m : Machine (i386 D)} (hf : s.frames = .took sc :: fs)
    (hs : keyboard L sc s.booting.machine = some m) :
    Moves A L s .cpu { s with frames := .handled :: fs, booting := { s.booting with machine := m } }
  | eoi {fs : List Stage} (hf : s.frames = .handled :: fs) :
    Moves A L s .cpu { s.exec (.outb (0x20, 0x20)) with frames := .returning :: fs }
  | iret {fs : List Stage} (hf : s.frames = .returning :: fs) :
    Moves A L s .cpu { s with frames := fs, iflag := true }

theorem moves_of_step (h : s.step A L e = some s') : Moves A L s e s' := by
  cases e with
  | key sc =>
    cases h
    exact .key sc
  | send =>
    simp only [Computer.step] at h
    split at h
    · rename_i sc queue hq ho
      cases h
      exact .send hq ho
    · cases h
  | line k up =>
    simp only [Computer.step] at h
    split at h
    · cases h
    · rename_i hk
      cases h
      exact .line hk up
  | intr =>
    simp only [Computer.step] at h
    split at h
    · rename_i hif
      obtain ⟨k, hk, rfl⟩ := Option.map_eq_some_iff.mp h
      exact .intr hif hk
    · cases h
  | cpu =>
    simp only [Computer.step, Computer.cpu] at h
    split at h
    · rename_i fs hf
      cases h
      exact .inb hf
    · rename_i sc fs hf
      obtain ⟨m, hm, rfl⟩ := Option.map_eq_some_iff.mp h
      exact .body hf hm
    · rename_i fs hf
      cases h
      exact .eoi hf
    · rename_i fs hf
      cases h
      exact .iret hf
    · cases h
    · rename_i hf
      split at h
      · rename_i i rest hp
        cases h
        exact .setup hf hp
      · rename_i hp
        split at h
        · rename_i hb
          cases h
          exact .idle hf hp hb
        · rename_i hb
          obtain ⟨b, hs, rfl⟩ := Option.map_eq_some_iff.mp h
          exact .main hf hp hb hs

theorem main_spares (hA : Apart A L) {b b' : Booting D} (h : bootStep L .main b = some b') {k : Nat}
    (hk : k < 8 * 256) : b'.machine.mem (A.idt.toNat + k) = b.machine.mem (A.idt.toNat + k) := by
  obtain ⟨hwindow, haddr⟩ := hA k hk
  simp only [bootStep] at h
  split at h
  · cases h
  · rename_i st rest hrest
    cases h
    cases st with
    | console f => exact f.frame (b.machine.mem, b.machine.dev) _ hwindow
    | store i => exact Function.update_of_ne (Ne.symm (haddr _)) _ _

/-- A handler is entered only once the setup is done. -/
theorem Sound.handler (h : Sound A s) {f : Stage} {fs : List Stage} (hf : s.frames = f :: fs) :
    fs = [] ∧ s.iflag = false ∧ s.program = [] := by
  rcases h.frames with ⟨hnil, -⟩ | ⟨g, hg, -, hoff, hp⟩
  · rw [hf] at hnil
    cases hnil
  · rw [hf, List.cons.injEq] at hg
    exact ⟨hg.2, hoff, hp⟩

theorem Sound.working_of_done (h : Sound A s) (hp : s.program = []) : Working s :=
  h.working (by rw [hp]; exact List.not_mem_nil)

/-- **One step.** -/
theorem Sound.step (hA : Apart A L) (h : Sound A s) (hs : s.step A L e = some s') (hspare : Spares A e s s') :
    Sound A s' := by
  cases moves_of_step hs with
  | key sc =>
    exact ⟨h.suffix, h.configured, h.frames, h.line, fun hn => ⟨(h.working hn).isr, (h.working hn).request,
      (h.working hn).entered⟩⟩
  | send hqueue hout => exact h.send_step hout _ _
  | line hk up => exact h.line_step hk up
  | intr hif hk => exact (h.intr_step hif hk).2.2.2.2
  | setup hf hp => exact h.setup_step hf hp
  | idle => exact h
  | main hf hp hb hmain =>
    refine ⟨h.suffix, ?_, h.frames, h.line, fun hn => ⟨(h.working hn).isr, (h.working hn).request,
      (h.working hn).entered⟩⟩
    have hconfig := h.configured
    rw [Computer.settled, hp, List.foldl_nil] at hconfig
    rw [Computer.settled, hp, List.foldl_nil]
    exact hconfig.congr fun k hk => main_spares hA hmain hk
  | inb hf =>
    obtain ⟨rfl, hoff, hp⟩ := h.handler hf
    have hw := h.working_of_done hp
    refine ⟨h.suffix, h.configured, Or.inr ⟨_, rfl, Stage.noConfusion, hoff, hp⟩, ?_,
      fun _ => ⟨fun k => ?_, fun hr => ?_, fun he => ?_⟩⟩
    · exact Function.update_self (1 : Fin 8) false s.master.lines
    · exact (hw.isr k).trans (by rw [hf]; rfl)
    · have hlow : Function.update s.master.irr 1 false 1 = false := Function.update_self _ _ _
      exact absurd (hlow.symm.trans hr) Bool.false_ne_true
    · cases he
  | body hf hm =>
    obtain ⟨rfl, hoff, hp⟩ := h.handler hf
    have hw := h.working_of_done hp
    refine ⟨h.suffix, ?_, Or.inr ⟨_, rfl, Stage.noConfusion, hoff, hp⟩, h.line,
      fun _ => ⟨fun k => ?_, hw.request, fun he => ?_⟩⟩
    · have hconfig := h.configured
      rw [Computer.settled, hp, List.foldl_nil] at hconfig
      rw [Computer.settled, hp, List.foldl_nil]
      exact hconfig.congr fun k hk => hspare (by rw [hf]; exact List.cons_ne_nil _ _) k hk
    · exact (hw.isr k).trans (by rw [hf]; rfl)
    · cases he
  | eoi hf =>
    obtain ⟨rfl, hoff, hp⟩ := h.handler hf
    have hw := h.working_of_done hp
    refine ⟨h.suffix, h.configured, Or.inr ⟨_, rfl, Stage.noConfusion, hoff, hp⟩, h.line,
      fun _ => ⟨fun k => ?_, hw.request, fun he => ?_⟩⟩
    · -- line 1 was the only one in service
      have heoi : (s.exec (.outb (0x20, 0x20))).master.isr k =
          (s.master.isr k && decide (∃ j < k, s.master.isr j = true)) := rfl
      refine heoi.trans ?_
      rw [List.any_cons, List.any_nil, Stage.serving, Bool.or_false, Bool.and_false, Bool.and_eq_false_iff]
      by_cases hk : k = 1
      · refine Or.inr (decide_eq_false ?_)
        rintro ⟨j, hj, hserved⟩
        rw [hw.isr, Bool.and_eq_true, decide_eq_true_eq] at hserved
        rw [hserved.1, hk] at hj
        exact lt_irrefl _ hj
      · refine Or.inl ?_
        rw [hw.isr, decide_eq_false hk, Bool.false_and]
    · cases he
  | iret hf =>
    obtain ⟨rfl, hoff, hp⟩ := h.handler hf
    have hw := h.working_of_done hp
    refine ⟨h.suffix, h.configured, Or.inl ⟨rfl, iff_of_true rfl hp⟩, h.line,
      fun _ => ⟨fun k => ?_, hw.request, fun he => ?_⟩⟩
    · exact (hw.isr k).trans (by rw [hf]; rfl)
    · cases he

/-! ## Safety -/

theorem always_sound (hA : Apart A L) (h0 : Start A s) {es : List Turn}
    (hspare : EveryStep (Computer.step A L) (Spares A) es s) : Always (Computer.step A L) (Sound A) es s :=
  EveryStep.always (fun _ _ _ h hs hspare => h.step hA hs hspare) h0.sound hspare

theorem Sound.boot_step (h : Sound A s) (hs : s.step A L e = some s') :
    runs (bootStep L) (Computer.ticks e s) s.boot = some s'.boot := by
  cases moves_of_step hs with
  | key | send | line => rfl
  | intr hif hk =>
    rw [(h.intr_step hif hk).2.2.2.1]
    rfl
  | @setup i rest hf hp =>
    have hticks : Computer.ticks .cpu s = [] := by simp only [Computer.ticks, hf, hp]
    rw [hticks, runs_nil, Computer.boot, Computer.boot, hp]
    cases i <;> rfl
  | idle hf hp hb =>
    have hticks : Computer.ticks .cpu s = [] := by simp only [Computer.ticks, hf, hp, hb, if_true]
    rw [hticks]
    rfl
  | @main b hf hp hb hmain =>
    have hticks : Computer.ticks .cpu s = [.main] := by simp only [Computer.ticks, hf, hp, if_neg hb]
    have hboot : ({ s with booting := b } : Computer D).boot = b := Computer.boot_of_done hp
    rw [hticks, Computer.boot_of_done hp, hboot, runs_cons, hmain]
    rfl
  | inb hf =>
    have hticks : Computer.ticks .cpu s = [] := by simp only [Computer.ticks, hf]
    rw [hticks]
    rfl
  | @body sc fs m hf hm =>
    have hticks : Computer.ticks .cpu s = [.irq sc] := by simp only [Computer.ticks, hf]
    have hp := (h.handler hf).2.2
    let s' : Computer D := { s with frames := .handled :: fs, booting := { s.booting with machine := m } }
    have hboot : s'.boot = { s.booting with machine := m } := Computer.boot_of_done hp
    rw [hticks, Computer.boot_of_done hp, hboot, runs_cons, bootStep, hm]
    rfl
  | eoi hf =>
    have hticks : Computer.ticks .cpu s = [] := by simp only [Computer.ticks, hf]
    rw [hticks]
    rfl
  | iret hf =>
    have hticks : Computer.ticks .cpu s = [] := by simp only [Computer.ticks, hf]
    rw [hticks]
    rfl

/-- What was on the way and what is typed is handled or on the way. -/
theorem Sound.held_step (h : Sound A s) (hs : s.step A L e = some s') :
    s.held ++ e.typed = (Computer.ticks e s).filterMap Tick.scancode ++ s'.held := by
  cases moves_of_step hs with
  | key sc => exact List.append_assoc _ _ _
  | send hqueue hout =>
    simp only [Computer.held, hqueue, hout, Option.toList_none, Option.toList_some, Turn.typed,
      Computer.ticks, List.filterMap_nil, List.nil_append, List.append_nil, List.append_assoc,
      List.singleton_append]
  | line => exact List.append_nil _
  | intr hif hk =>
    obtain ⟨-, hf, -, haccept, -⟩ := h.intr_step hif hk
    rw [haccept]
    simp only [Computer.held, hf, Turn.typed, Computer.ticks, List.reverse_nil, List.reverse_singleton,
      List.filterMap_nil, List.filterMap_cons, List.nil_append, List.append_nil]
  | @setup i rest hf hp =>
    have hticks : Computer.ticks .cpu s = [] := by simp only [Computer.ticks, hf, hp]
    rw [hticks]
    cases i <;> exact List.append_nil s.held
  | idle hf hp hb =>
    have hticks : Computer.ticks .cpu s = [] := by simp only [Computer.ticks, hf, hp, hb, if_true]
    rw [hticks]
    exact List.append_nil s.held
  | main hf hp hb hmain =>
    have hticks : Computer.ticks .cpu s = [.main] := by simp only [Computer.ticks, hf, hp, if_neg hb]
    rw [hticks]
    exact List.append_nil s.held
  | inb hf =>
    obtain ⟨rfl, -, hp⟩ := h.handler hf
    -- the byte whose line went up is there
    obtain ⟨b, hb⟩ := Option.isSome_iff_exists.mp ((h.working_of_done hp).entered hf)
    simp only [Computer.held, Computer.inb, Computer.ticks, hf, hb, Turn.typed, List.reverse_singleton,
      List.filterMap_cons, List.filterMap_nil, Option.getD_some, Option.toList_some, Option.toList_none,
      List.nil_append, List.append_nil]
  | body hf hm =>
    obtain ⟨rfl, -⟩ := h.handler hf
    simp only [Computer.held, Computer.ticks, hf, Turn.typed, Tick.scancode, List.reverse_singleton,
      List.filterMap_cons, List.filterMap_nil, List.nil_append, List.append_nil, List.append_assoc]
  | eoi hf =>
    obtain ⟨rfl, -⟩ := h.handler hf
    simp only [Computer.held, Computer.exec, Computer.ticks, hf, Turn.typed, List.reverse_singleton,
      List.filterMap_cons, List.filterMap_nil, List.nil_append, List.append_nil]
  | iret hf =>
    obtain ⟨rfl, -⟩ := h.handler hf
    simp only [Computer.held, Computer.ticks, hf, Turn.typed, List.reverse_singleton, List.reverse_nil,
      List.filterMap_cons, List.filterMap_nil, List.nil_append, List.append_nil]

/-- The steps of the boot in a run, and the scancodes that were handled. -/
def ticksOf (A : Linked) (L : Layout (i386 D)) (es : List Turn) (s : Computer D) : List Tick :=
  emits (Computer.step A L) Computer.ticks es s

def handledBy (A : Linked) (L : Layout (i386 D)) (es : List Turn) (s : Computer D) : List Byte :=
  (ticksOf A L es s).filterMap Tick.scancode

theorem held_conserved {es : List Turn} (hI : Always (Computer.step A L) (Sound A) es s)
    (h : runs (Computer.step A L) es s = some s') :
    s.held ++ es.flatMap Turn.typed = handledBy A L es s ++ s'.held := by
  rw [handledBy, ticksOf, filterMap_emits, ← emits_eq_flatMap h]
  exact emits_conserve hI (fun e t t' hI ht => hI.held_step ht) h

/-- Bytes whose handlers leave the table alone do so whenever they come. -/
theorem spares_of_bytes {P : Byte → Prop} (hA : Apart A L) (h0 : Start A s)
    (hP : ∀ sc m m', P sc → keyboard L sc m = some m' →
      ∀ k, k < 8 * 256 → m'.mem (A.idt.toNat + k) = m.mem (A.idt.toNat + k))
    {es : List Turn} (hes : ∀ sc ∈ s.held ++ es.flatMap Turn.typed, P sc) :
    EveryStep (Computer.step A L) (Spares A) es s := by
  have hstep : ∀ e t t', (∀ sc ∈ t.held, P sc) → t.step A L e = some t' → Spares A e t t' := by
    intro e t t' hheld ht hframes k hk
    cases moves_of_step ht with
    | @body sc fs m hf hm =>
      refine hP sc _ m (hheld sc ?_) hm k hk
      simp [Computer.held, hf]
    | setup hf | main hf | idle hf => exact absurd hf hframes
    | intr hif hk' =>
      simp only [Computer.accept]
      split
      · rfl
      · split <;> rfl
    | _ => rfl
  have hall : ∀ {pre : List Turn} {t : Computer D}, runs (Computer.step A L) pre s = some t → pre <+: es →
      Sound A t ∧ ∀ sc ∈ t.held, P sc := by
    intro pre t
    refine runs_history
      (I := fun pre t => pre <+: es → Sound A t ∧ ∀ sc ∈ t.held, P sc)
      (fun _ => ⟨h0.sound, fun sc hsc => hes sc (List.mem_append_left _ hsc)⟩)
      (fun pre e t t' ht ih he hp => ?_)
    obtain ⟨hsound, hheld⟩ := ih ((List.prefix_append pre [e]).trans hp)
    refine ⟨hsound.step hA he (hstep e t t' hheld he), fun sc hsc => ?_⟩
    have hin : sc ∈ t.held ++ e.typed := by
      rw [hsound.held_step he]
      exact List.mem_append_right _ hsc
    rcases List.mem_append.mp hin with h | h
    · exact hheld sc h
    · refine hes sc (List.mem_append_right _ (List.mem_flatMap.mpr ⟨e, hp.subset ?_, h⟩))
      exact List.mem_append_right _ List.mem_cons_self
  exact fun pre e t t' hp ht he => hstep e t t' (hall ht ((List.prefix_append pre [e]).trans hp)).2 he

/-- **Delivery.** Whatever the order in which the keyboard, its controller, the other lines and the
processor take their steps, the run is one of the boot and its interrupts; the bytes handled are
those sent, each once and in order, but for the last ones still on the way; and the processor
never enters a second handler or one that is not the keyboard's. -/
theorem delivery {es : List Turn} (hA : Apart A L) (h0 : Start A s)
    (hspare : EveryStep (Computer.step A L) (Spares A) es s) (h : runs (Computer.step A L) es s = some s') :
    runs (bootStep L) (ticksOf A L es s) s.boot = some s'.boot ∧
      s.held ++ es.flatMap Turn.typed = handledBy A L es s ++ s'.held ∧
      (s'.frames = [] ∨ ∃ f, s'.frames = [f] ∧ f ≠ .lost ∧ s'.iflag = false) := by
  have hI := always_sound hA h0 hspare
  refine ⟨runs_emits hI (fun _ _ _ hI ht => hI.boot_step ht) h, held_conserved hI h, ?_⟩
  rcases (hI.last h).frames with ⟨hf, -⟩ | ⟨f, hf, hlost, hoff, -⟩
  · exact Or.inl hf
  · exact Or.inr ⟨f, hf, hlost, hoff⟩

end Sound

/-! ## Shift, typed during the setup -/

def lowLinked : Linked := ⟨0x13000, fun i => 0x10100 + 8 * BitVec.ofNat 32 i, 0x10200⟩

/-- As the boot loader leaves it, with no byte on the way. -/
def switchedOn : Computer lowDrivers where
  queue := []
  out := none
  last := 0
  master := ⟨⟨.mask, 0, 0, 0, 0, 0⟩, fun _ => false, fun _ => false, fun _ => false⟩
  slave := ⟨.mask, 0, 0, 0, 0, 0⟩
  idtr := ⟨0, 0⟩
  program := arch_init lowLinked
  iflag := false
  frames := []
  booting := ⟨kmainFlow, cleared⟩

/-- Pressed while `pic_remap` runs, released while its handler does; a timer ticks. -/
def shiftTyped : List Turn :=
  List.replicate 5 Turn.cpu ++ [Turn.key 0x2A, Turn.send, Turn.line 0 true] ++ List.replicate 17 Turn.cpu ++
    [Turn.intr, Turn.key 0xAA] ++ List.replicate 4 Turn.cpu ++ [Turn.send, Turn.intr] ++
      List.replicate 4 Turn.cpu

theorem switchedOn_start : Start lowLinked switchedOn := ⟨rfl, rfl, rfl, rfl⟩

theorem low_apart : Apart lowLinked lowLayout := by
  intro k hk
  have hidt : lowLinked.idt.toNat = 0x13000 := rfl
  rw [hidt]
  refine ⟨by simp only [window, VGA_MEM]; omega, fun x => ?_⟩
  cases x <;> simp only [lowLayout, Addresses.addr, lowAddresses, ne_eq] <;> omega

theorem shift_spares :
    EveryStep (Computer.step lowLinked lowLayout) (Spares lowLinked) shiftTyped switchedOn := by
  refine spares_of_bytes (P := fun sc => sc = 0x2A#8 ∨ sc = 0xAA#8) low_apart switchedOn_start
    (fun sc m m' hsc hm k _ => ?_) (by decide)
  rcases hsc with rfl | rfl <;> (cases hm; rfl)

theorem shift_runs : ∃ s', runs (Computer.step lowLinked lowLayout) shiftTyped switchedOn = some s' :=
  ⟨_, rfl⟩

theorem delivery_shift : ∃ s', runs (Computer.step lowLinked lowLayout) shiftTyped switchedOn = some s' ∧
    runs (bootStep lowLayout) (ticksOf lowLinked lowLayout shiftTyped switchedOn) switchedOn.boot =
      some s'.boot ∧
    [0x2A, 0xAA] = handledBy lowLinked lowLayout shiftTyped switchedOn ++ s'.held := by
  obtain ⟨s', h⟩ := shift_runs
  obtain ⟨hboot, hheld, -⟩ := delivery low_apart switchedOn_start shift_spares h
  exact ⟨s', h, hboot, hheld⟩

end Osdev2.I386
