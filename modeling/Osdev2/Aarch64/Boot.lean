import Osdev2.Aarch64.Gic
import Osdev2.Libk.Render

/-!
# Booting with interrupts unmasked

`jmp_el1` unmasks interrupts and then calls `parse_boot_info` and `kmain`. `boot` is
this code step by step, and `bootStep` lets an interrupt fall between any two of its
steps. Run whole, `uart_init` and `puts` are the driver's of `Osdev2.Aarch64.Uart`
(`run_uart_init`, `run_puts`).

`uart_init` sets `uart_pl` before it turns the receive interrupt on, but the callback
is not set before `arch_init`. `callback_ready_iff`: the handler never calls through
null exactly if no receive interrupt comes in between.
-/

namespace Osdev2.Aarch64

open Osdev2.Lib Osdev2.Libk Osdev2.Efi

/-! ## The code -/

namespace Code

variable (fuel : Nat)

def uart_putc (c : Byte) : Code Unit := do
  let ns ← read .uart_ns
  if ns ≠ 0 then do
    poll .ns ns ns_lsr (fun v => v &&& 0x20#32 != 0) fuel
    store .ns ns ns_tx 4 (c.setWidth 64)
  else do
    let pl ← read .uart_pl
    if pl ≠ 0 then do
      poll .pl pl pl_fr (fun v => v &&& 0x20#32 == 0) fuel
      store .pl pl pl_dr 4 (c.setWidth 64)
    else do
      let fallback ← read .uart_fallback
      store .fallback fallback 0 8 (c.setWidth 64)

def puts : List Byte → Code Unit
  | [] => pure ()
  | c :: cs => do
    uart_putc fuel c
    puts cs

def uart_init (serial : SerialInfo) : Code Unit := do
  write .uart_fallback serial.base
  if serial.model = 0x00#16 ∨ serial.model = 0x01#16 ∨ serial.model = 0x05#16 then do
    write .uart_ns serial.base
    store .ns serial.base ns_lcr 4 0x03
    puts fuel ("[AArch64] UART type is NS16550\n".toList.map ch)
  else if serial.model = 0x03#16 then do
    write .uart_pl serial.base
    store .pl serial.base pl_cr 4 0x00
    store .pl serial.base pl_lcr 4 0x70
    let v ← load .pl serial.base pl_imsc
    store .pl serial.base pl_imsc 4 ((v ||| 0x10#32).setWidth 64)
    store .pl serial.base pl_cr 4 0x0301
    puts fuel ("[AArch64] UART type is PL011\n".toList.map ch)
  else pure ()

def parse_boot_info (serial : SerialInfo) : Code Unit := uart_init fuel serial

def arch_init (kcall : BitVec 64) : Code Unit := do
  write .kcallback kcall
  puts fuel ("Press any key...".toList.map ch)
  let c ← uart_getc fuel
  uart_putc fuel c

/-- A format without arguments. -/
def printf (format : List Char) : Code Unit :=
  match Libk.printf recorder 64 (lit format) (fun _ => 0) [] with
  | some out => puts fuel out
  | none => spin

/-- `memset(shellbuf, 0, n)`. -/
def clearbuf : Nat → Code Unit
  | 0 => pure ()
  | n + 1 => do
    clearbuf n
    .instr (Op.clear n)

def shell_init : Code Unit := do
  clearbuf 256
  puts fuel [ch '>']

/-- Up to the idle loop; `kcall` is the address of the shell's `kcallback`. -/
def kmain (kcall : BitVec 64) : Code Unit := do
  arch_init fuel kcall
  printf fuel "Hello World!\n".toList
  shell_init fuel

/-- `jmp_el1` after `msr daifclr`. -/
def boot (serial : SerialInfo) (kcall : BitVec 64) : Code Unit := do
  parse_boot_info fuel serial
  kmain fuel kcall

end Code

/-! ## The driver's part, run whole -/

section Driver

variable (device : Nat → BitVec 64 → BitVec 32)

/-- The steps of the driver on its pointers. -/
def Op.drive : (op : Op) → Driver op.Answer
  | .read .uart_ns => fun u => some (.ok u.uart_ns, u, [])
  | .read .uart_pl => fun u => some (.ok u.uart_pl, u, [])
  | .read .uart_fallback => fun u => some (.ok u.uart_fallback, u, [])
  | .write .uart_ns p => modifyUart fun u => { u with uart_ns := p }
  | .write .uart_pl p => modifyUart fun u => { u with uart_pl := p }
  | .write .uart_fallback p => modifyUart fun u => { u with uart_fallback := p }
  | .load _ p off => Aarch64.load device p off
  | .store _ p off size v => Aarch64.store p off size v
  | _ => Traced.throw .mk

variable {device} {fuel : Nat}

theorem run_poll (b : Block) (p : BitVec 64) (off : Nat) (ready : BitVec 32 → Bool) : ∀ fuel,
    (Code.poll b p off ready fuel).run (Op.drive device) = Aarch64.poll device p off ready fuel
  | 0 => rfl
  | fuel + 1 => by
    unfold Code.poll Aarch64.poll
    rw [Program.run_bind]
    refine bind_congr fun v => ?_
    split
    · rfl
    · exact run_poll b p off ready fuel

theorem run_putc (c : Byte) :
    (Code.uart_putc fuel c).run (Op.drive device) = Aarch64.uart_putc device fuel c := by
  funext u
  have hget : getUart u = some (.ok u, u, []) := rfl
  have hns : (Code.read .uart_ns).run (Op.drive device) u = some (.ok u.uart_ns, u, []) := rfl
  have hpl : (Code.read .uart_pl).run (Op.drive device) u = some (.ok u.uart_pl, u, []) := rfl
  have hfb : (Code.read .uart_fallback).run (Op.drive device) u =
      some (.ok u.uart_fallback, u, []) := rfl
  unfold Code.uart_putc Aarch64.uart_putc
  rw [Program.run_bind, Traced.bind_quiet hns, Traced.bind_quiet hget]
  split
  · rw [Program.run_bind, run_poll]
    rfl
  · rw [Program.run_bind, Traced.bind_quiet hpl]
    split
    · rw [Program.run_bind, run_poll]
      rfl
    · rw [Program.run_bind, Traced.bind_quiet hfb]
      rfl

theorem run_puts : ∀ cs, (Code.puts fuel cs).run (Op.drive device) = Aarch64.puts device fuel cs
  | [] => rfl
  | c :: cs => by
    unfold Code.puts Aarch64.puts
    rw [Program.run_bind, run_putc]
    exact bind_congr fun _ => run_puts cs

theorem run_uart_init (serial : SerialInfo) :
    (Code.uart_init fuel serial).run (Op.drive device) = Aarch64.uart_init device fuel serial := by
  unfold Code.uart_init Aarch64.uart_init
  rw [Program.run_bind]
  refine bind_congr fun _ => ?_
  split
  · rw [Program.run_bind]
    refine bind_congr fun _ => ?_
    rw [Program.run_bind]
    exact bind_congr fun _ => run_puts _
  · split
    · simp only [Program.run_bind, run_puts]
      rfl
    · rfl

end Driver

/-! ## Interrupts in between -/

/-- A step of the boot code, or an interrupt. -/
inductive Tick where
  | main
  | irq
  deriving DecidableEq

/-- What is left of the boot code, the steps it has made, and the board. -/
structure Booting where
  rest : Code Unit
  done : List Op
  board : Board

section Interleaving

variable (env : Nat → Env) (fuel : Nat)

def bootStep (e : Tick) (b : Booting) : Option Booting :=
  match e with
  | .main =>
    match b.rest with
    -- the idle loop
    | .ret _ => some { b with board := b.board.elapse (env b.board.time) }
    | .step op k =>
      match op.exec env b.board with
      | some (.ok r, s, _) => some ⟨k r, b.done ++ [op], s⟩
      | _ => none
  | .irq => (handled env fuel b.board).map fun s => { b with board := s }

/-- At `jmp_el1`, with the kernel's variables cleared. -/
def Booting.start (serial : SerialInfo) (kcall : BitVec 64) (s : Board) : Booting :=
  ⟨.boot fuel serial kcall, [], { s with vars := fun _ => 0 }⟩

/-- An interrupt handled now calls through no null pointer. -/
def NonNull (e : Tick) (b : Booting) : Prop :=
  e = .irq → ∀ r s calls, (Code.interrupt_handler fuel).on env b.board = some (r, s, calls) →
    ∀ c ∈ calls, c.f ≠ 0

/-- The boot code has set `uart_pl`, to a port, and not yet `kcallback`. -/
structure Early (done : List Op) : Prop where
  pl : ∃ p, p ≠ 0 ∧ .write .uart_pl p ∈ done
  kcallback : ∀ f, .write .kcallback f ∉ done

/-- An interrupt handled now finds the receive interrupt pending, and a byte for it. -/
structure Received (s : Board) : Prop where
  mis : s.misAfter env 4 = true
  byte : ∃ n < fuel, s.fifo ++ arrivals env s.time (n + 7) ≠ []

end Interleaving

/-! ## What the boot code assigns -/

/-- The steps of the boot code. -/
def Op.Boots (serial : SerialInfo) (kcall : BitVec 64) : Op → Prop
  | .write .uart_ns p => p = serial.base ∧ serial.model ≠ 0x03#16
  | .write .uart_pl p => p = serial.base ∧ serial.model = 0x03#16
  | .write .kcallback f => f = kcall
  | .eoir _ => False
  | _ => True

section Uses

variable {serial : SerialInfo} {kcall : BitVec 64} (fuel : Nat)

theorem Op.Handles.boots {op : Op} (h : op.Handles) : op.Boots serial kcall := by
  cases op with
  | write | eoir | clear => exact h.elim
  | read | load | store | call | iar | spin => trivial

theorem uses_putc (c : Byte) : (Code.uart_putc fuel c).Uses Op.Handles := by
  unfold Code.uart_putc
  refine .bind (.instr trivial) fun ns => .ite (fun _ => ?_) fun _ => ?_
  · exact .bind (uses_poll _ _ _ _ fuel) fun _ => .instr trivial
  · refine .bind (.instr trivial) fun pl => .ite (fun _ => ?_) fun _ => ?_
    · exact .bind (uses_poll _ _ _ _ fuel) fun _ => .instr trivial
    · exact .bind (.instr trivial) fun _ => .instr trivial

theorem uses_puts : ∀ cs, (Code.puts fuel cs).Uses Op.Handles
  | [] => .pure _
  | c :: cs => .bind (uses_putc fuel c) fun _ => uses_puts cs

theorem boots_puts (cs : List Byte) : (Code.puts fuel cs).Uses (Op.Boots serial kcall) :=
  (uses_puts fuel cs).mono fun _ h => h.boots

theorem boots_init : (Code.uart_init fuel serial).Uses (Op.Boots serial kcall) := by
  unfold Code.uart_init
  refine .bind (.instr trivial) fun _ => .ite (fun hns => ?_) fun _ => .ite (fun hpl => ?_) fun _ => ?_
  · have hmodel : serial.model ≠ 0x03#16 := by
      rintro h
      rw [h] at hns
      exact absurd hns (by decide)
    refine .bind (.instr ⟨rfl, hmodel⟩) fun _ => ?_
    exact .bind (.instr trivial) fun _ => boots_puts fuel _
  · refine .bind (.instr ⟨rfl, hpl⟩) fun _ => ?_
    refine .bind (.instr trivial) fun _ => .bind (.instr trivial) fun _ => ?_
    refine .bind (.instr trivial) fun v => .bind (.instr trivial) fun _ => ?_
    exact .bind (.instr trivial) fun _ => boots_puts fuel _
  · exact .pure _

theorem boots_clearbuf : ∀ n, (Code.clearbuf n).Uses (Op.Boots serial kcall)
  | 0 => .pure _
  | n + 1 => .bind (boots_clearbuf n) fun _ => .instr trivial

theorem boots_printf (format : List Char) :
    (Code.printf fuel format).Uses (Op.Boots serial kcall) := by
  unfold Code.printf
  split
  · exact boots_puts fuel _
  · exact .instr trivial

theorem boots_shell_init : (Code.shell_init fuel).Uses (Op.Boots serial kcall) := by
  unfold Code.shell_init
  generalize 256 = n
  exact .bind (boots_clearbuf n) fun _ => boots_puts fuel _

theorem boots_arch_init : (Code.arch_init fuel kcall).Uses (Op.Boots serial kcall) := by
  unfold Code.arch_init
  refine .bind (.instr rfl) fun _ => .bind (boots_puts fuel _) fun _ => ?_
  refine .bind ((uses_getc fuel).mono fun _ h => h.boots) fun c => ?_
  exact (uses_putc fuel c).mono fun _ h => h.boots

theorem boots_boot : (Code.boot fuel serial kcall).Uses (Op.Boots serial kcall) := by
  unfold Code.boot Code.parse_boot_info Code.kmain
  apply Program.Uses.bind (boots_init fuel)
  intro _
  apply Program.Uses.bind (boots_arch_init fuel)
  intro _
  apply Program.Uses.bind (boots_printf fuel _)
  intro _
  exact boots_shell_init fuel

end Uses

/-! ## The variables -/

/-- What a step makes of the variables. -/
def Op.assign : Op → (Var → BitVec 64) → Var → BitVec 64
  | .write x v, m => Function.update m x v
  | _, m => m

theorem exec_vars {env : Nat → Env} {op : Op} {s t : Board} {r : Except Polling op.Answer}
    {calls : List Call} (h : op.exec env s = some (r, t, calls)) : t.vars = op.assign s.vars := by
  cases op with
  | load b p off =>
    cases b with
    | pl =>
      cases h
      unfold loadPl
      repeat' split
      all_goals rfl
    | ns | fallback => cases h; rfl
  | store b p off size v =>
    cases b with
    | pl =>
      cases h
      unfold storePl
      repeat' split
      all_goals rfl
    | ns | fallback => cases h; rfl
  | read | write | call | iar | eoir | clear | spin => cases h; rfl

theorem assign_handles {op : Op} (h : op.Handles) (m : Var → BitVec 64) : op.assign m = m := by
  cases op with
  | write => exact h.elim
  | read | load | store | call | iar | eoir | clear | spin => rfl

theorem handled_vars {env : Nat → Env} {fuel : Nat} {s t : Board}
    (h : handled env fuel s = some t) : t.vars = s.vars := by
  obtain ⟨calls, hrun⟩ := handled_eq h
  have hkeeps : Keeps (fun s t _ => t.vars = s.vars) ((Code.interrupt_handler fuel).on env) :=
    Program.keeps_run (fun _ => rfl) (fun _ _ _ _ _ h h' => h'.trans h) (uses_handler fuel)
      fun op hop _ _ _ _ hexec => (exec_vars hexec).trans (assign_handles hop _)
  exact hkeeps _ _ _ _ hrun

/-- `x` is null until the steps `done` set it, and `v` after it. -/
structure Tracks (x : Var) (v : BitVec 64) (done : List Op) (m : Var → BitVec 64) : Prop where
  set : ∀ w, .write x w ∈ done → m x = v
  unset : (∀ w, .write x w ∉ done) → m x = 0

theorem Tracks.step {x : Var} {v : BitVec 64} {done : List Op} {m : Var → BitVec 64} {op : Op}
    (h : Tracks x v done m) (hop : ∀ w, op = .write x w → w = v) :
    Tracks x v (done ++ [op]) (op.assign m) := by
  by_cases hw : ∃ w, op = .write x w
  · obtain ⟨w, rfl⟩ := hw
    obtain rfl := hop w rfl
    have hself : (Op.write x w).assign m x = w := by rw [Op.assign, Function.update_self]
    exact ⟨fun _ _ => hself, fun hno => absurd (by simp) (hno w)⟩
  · rw [not_exists] at hw
    have hassign : op.assign m x = m x := by
      cases op with
      | write y w => exact Function.update_of_ne (fun hxy : x = y => hw w (by rw [hxy])) w m
      | read | load | store | call | iar | eoir | clear | spin => rfl
    have hmem : ∀ w, .write x w ∈ done ++ [op] ↔ .write x w ∈ done := fun w => by
      rw [List.mem_append, List.mem_singleton, or_iff_left fun heq => hw w heq.symm]
    refine ⟨fun w h' => hassign.trans (h.set w ((hmem w).mp h')), fun hno => ?_⟩
    exact hassign.trans (h.unset fun w h' => hno w ((hmem w).mpr h'))

section Invariant

variable {env : Nat → Env} {fuel : Nat} {serial : SerialInfo} {kcall : BitVec 64} {b b' : Booting}

/-- How far the boot has come. -/
structure Inv (serial : SerialInfo) (kcall : BitVec 64) (b : Booting) : Prop where
  rest : b.rest.Uses (Op.Boots serial kcall)
  done : ∀ op ∈ b.done, op.Boots serial kcall
  ns : Tracks .uart_ns serial.base b.done b.board.vars
  pl : Tracks .uart_pl serial.base b.done b.board.vars
  kcallback : Tracks .kcallback kcall b.done b.board.vars

theorem Inv.start (s : Board) : Inv serial kcall (.start fuel serial kcall s) where
  rest := boots_boot fuel
  done _ h := absurd h List.not_mem_nil
  ns := ⟨fun _ h => absurd h List.not_mem_nil, fun _ => rfl⟩
  pl := ⟨fun _ h => absurd h List.not_mem_nil, fun _ => rfl⟩
  kcallback := ⟨fun _ h => absurd h List.not_mem_nil, fun _ => rfl⟩

theorem Inv.step {e : Tick} (h : Inv serial kcall b) (hb : bootStep env fuel e b = some b') :
    Inv serial kcall b' := by
  obtain ⟨rest, done, s⟩ := b
  cases e with
  | irq =>
    obtain ⟨t, ht, rfl⟩ := Option.map_eq_some_iff.mp hb
    have hvars := handled_vars ht
    exact ⟨h.rest, h.done, hvars ▸ h.ns, hvars ▸ h.pl, hvars ▸ h.kcallback⟩
  | main =>
    cases rest with
    | ret a =>
      cases hb
      exact ⟨h.rest, h.done, h.ns, h.pl, h.kcallback⟩
    | step op k =>
      simp only [bootStep] at hb
      split at hb
      · rename_i r t calls hop
        cases hb
        have hvars := exec_vars hop
        obtain ⟨hboots, hk⟩ := h.rest.head
        refine ⟨hk r, fun op' hop' => ?_, ?_, ?_, ?_⟩
        · rcases List.mem_append.mp hop' with h' | h'
          · exact h.done _ h'
          · rw [List.mem_singleton.mp h']
            exact hboots
        · rw [hvars]
          exact h.ns.step fun w hw => (hw ▸ hboots : Op.Boots serial kcall (.write .uart_ns w)).1
        · rw [hvars]
          exact h.pl.step fun w hw => (hw ▸ hboots : Op.Boots serial kcall (.write .uart_pl w)).1
        · rw [hvars]
          exact h.kcallback.step fun w hw => (hw ▸ hboots : Op.Boots serial kcall (.write .kcallback w))
      · cases hb

theorem Inv.onPl011 (h : Inv serial kcall b) (hpl : b.board.vars .uart_pl ≠ 0) :
    OnPl011 b.board ∧ ∃ p, p ≠ 0 ∧ .write .uart_pl p ∈ b.done := by
  obtain ⟨p, hp⟩ : ∃ p, .write .uart_pl p ∈ b.done := by
    by_contra hno
    exact hpl (h.pl.unset (not_exists.mp hno))
  have hmodel : p = serial.base ∧ serial.model = 0x03#16 := h.done _ hp
  refine ⟨⟨h.ns.unset fun q hq => ?_, hpl⟩, p, ?_, hp⟩
  · have hns : q = serial.base ∧ serial.model ≠ 0x03#16 := h.done _ hq
    exact hns.2 hmodel.2
  · rw [hmodel.1, ← h.pl.set p hp]
    exact hpl

theorem Inv.nonNull_iff (h : Inv serial kcall b) (hk : kcall ≠ 0) :
    NonNull env fuel .irq b ↔ ¬(Early b.done ∧ Received env fuel b.board) := by
  by_cases hidle : b.board.vars .uart_pl = 0 ∨ b.board.misAfter env 4 = false
  · -- the handler finds nothing to do
    obtain ⟨t, -, hrun⟩ := handler_idle fuel hidle
    refine iff_of_true (fun _ r s calls hr c hc => ?_) fun ⟨hearly, hrecv⟩ => ?_
    · cases hrun.symm.trans hr
      cases hc
    · rcases hidle with hpl | hmis
      · obtain ⟨p, hp, hmem⟩ := hearly.pl
        have hbase : p = serial.base := (h.done _ hmem).1
        exact hp (hbase.trans ((h.pl.set p hmem).symm.trans hpl))
      · exact absurd hrecv.mis (by rw [hmis]; decide)
  · rw [not_or, Bool.not_eq_false] at hidle
    obtain ⟨hon, hset⟩ := h.onPl011 hidle.1
    rcases handler_spec fuel hon hidle.2 with ⟨n, c, t, hn, hbyte, -, hrun⟩ | ⟨hnone, t, hrun⟩
    · -- the call is made
      have hcall : NonNull env fuel .irq b ↔ b.board.vars .kcallback ≠ 0 := by
        constructor
        · intro hno
          exact hno rfl _ _ _ hrun _ List.mem_cons_self
        · intro hne _ r s calls hr c' hc'
          cases hrun.symm.trans hr
          rw [List.mem_singleton.mp hc']
          exact hne
      rw [hcall, not_iff_not.symm, not_not, not_not]
      constructor
      · intro hnull
        refine ⟨⟨hset, fun f hf => ?_⟩, hidle.2, n, hn, hbyte⟩
        exact hk ((h.kcallback.set f hf).symm.trans hnull)
      · rintro ⟨hearly, -⟩
        exact h.kcallback.unset hearly.kcallback
    · -- it waits for a byte
      refine iff_of_true (fun _ r s calls hr c hc => ?_) fun ⟨_, hrecv⟩ => ?_
      · cases hrun.symm.trans hr
        cases hc
      · obtain ⟨n, hn, hbyte⟩ := hrecv.byte
        exact hbyte (hnone n hn)

/-- **The callback during the boot.** Whichever way interrupts fall between the steps from
`msr daifclr` on, the handler never calls through a null pointer exactly if no receive interrupt
with a byte comes after `uart_init` has set `uart_pl` and before `arch_init` sets `kcallback`. -/
theorem callback_ready_iff (env : Nat → Env) (fuel : Nat) (serial : SerialInfo) {kcall : BitVec 64}
    (hk : kcall ≠ 0) (s : Board) (es : List Tick) :
    AtEvery (bootStep env fuel) (NonNull env fuel) es (.start fuel serial kcall s) ↔
      AtEvery (bootStep env fuel)
        (fun e b => e = .irq → ¬(Early b.done ∧ Received env fuel b.board)) es
        (.start fuel serial kcall s) := by
  refine atEvery_iff_of (I := fun _ b => Inv serial kcall b) ?_ ?_ (Inv.start s)
  · intro e _ b h
    cases e with
    | main => exact iff_of_true (fun he => by cases he) fun he => by cases he
    | irq => exact (h.nonNull_iff hk).trans ⟨fun hno _ => hno, fun hno => hno rfl⟩
  · intro e _ b b' h _ hb
    exact h.step hb

end Invariant

/-! ## Which boards boot safely -/

section Boards

variable {serial : SerialInfo} {kcall : BitVec 64}

/-- The first steps on a PL011, up to the one that turns the receive interrupt on. -/
theorem boot_pl011 (fuel : Nat) (kcall : BitVec 64) (h : serial.model = 0x03#16) : ∃ rest : Code Unit,
    Code.boot fuel serial kcall =
      .step (.write .uart_fallback serial.base) fun _ =>
      .step (.write .uart_pl serial.base) fun _ =>
      .step (.store .pl serial.base pl_cr 4 0x00) fun _ =>
      .step (.store .pl serial.base pl_lcr 4 0x70) fun _ =>
      .step (.load .pl serial.base pl_imsc) fun (v : BitVec 32) =>
      .step (.store .pl serial.base pl_imsc 4 ((v ||| 0x10#32).setWidth 64)) fun _ => rest := by
  have hns : ¬(serial.model = 0x00#16 ∨ serial.model = 0x01#16 ∨ serial.model = 0x05#16) := by
    rw [h]
    decide
  unfold Code.boot Code.parse_boot_info Code.uart_init
  rw [if_neg hns, if_pos h]
  exact ⟨_, rfl⟩

/-- A byte comes at every step, and the interrupt with it. -/
def busy : Env := ⟨[0x61], true, [], 0⟩

/-- The receive interrupt as soon as it is on. -/
def eager : List Tick := List.replicate 6 .main ++ [.irq]

theorem pl011_early (hmodel : serial.model = 0x03#16) (hbase : serial.base ≠ 0) (kcall : BitVec 64)
    (s : Board) : ∃ b, runs (bootStep (fun _ => busy) 1) (List.replicate 6 .main)
        (.start 1 serial kcall s) = some b ∧ Early b.done ∧ Received (fun _ => busy) 1 b.board := by
  obtain ⟨rest, hboot⟩ := boot_pl011 1 kcall hmodel
  rw [Booting.start, hboot]
  refine ⟨_, rfl, ⟨⟨serial.base, hbase, ?_⟩, ?_⟩, ⟨?_, 0, Nat.zero_lt_one, ?_⟩⟩
  · simp
  · simp
  · rw [Board.misAfter, Bool.and_eq_true]
    refine ⟨Bool.or_eq_true_iff.mpr (Or.inr rfl), ?_⟩
    change (((s.imsc ||| 0x10#32).setWidth 64).setWidth 32).getLsbD 4 = true
    rw [BitVec.setWidth_setWidth_of_le _ (by decide), BitVec.setWidth_eq, BitVec.getLsbD_or]
    exact Bool.or_eq_true_iff.mpr (Or.inr rfl)
  · exact List.append_ne_nil_of_right_ne_nil _ (List.cons_ne_nil _ _)

theorem pl011_unready (hmodel : serial.model = 0x03#16) (hbase : serial.base ≠ 0) (hk : kcall ≠ 0)
    (s : Board) : ¬AtEvery (bootStep (fun _ => busy) 1) (NonNull (fun _ => busy) 1) eager
      (.start 1 serial kcall s) := by
  intro hall
  obtain ⟨b, hrun, hearly, hrecv⟩ := pl011_early hmodel hbase kcall s
  have hinv : Inv serial kcall b := runs_preserves (fun _ _ _ h => h.step) (Inv.start s) hrun
  exact (hinv.nonNull_iff hk).mp (hall _ .irq b (List.prefix_refl _) hrun) ⟨hearly, hrecv⟩

/-- **The boards that are safe** whatever interrupts come: those without a PL011. -/
theorem board_ready_iff (serial : SerialInfo) (hk : kcall ≠ 0) :
    (∀ env fuel s es, AtEvery (bootStep env fuel) (NonNull env fuel) es
      (.start fuel serial kcall s)) ↔ ¬(serial.model = 0x03#16 ∧ serial.base ≠ 0) := by
  constructor
  · rintro h ⟨hmodel, hbase⟩
    exact pl011_unready hmodel hbase hk (receiving []) (h _ _ _ _)
  · intro hno env fuel s es pre e b _ hrun
    cases e with
    | main => exact fun he => by cases he
    | irq =>
      have hinv : Inv serial kcall b := runs_preserves (fun _ _ _ h => h.step) (Inv.start s) hrun
      refine (hinv.nonNull_iff hk).mpr fun ⟨hearly, _⟩ => ?_
      obtain ⟨p, hp, hmem⟩ := hearly.pl
      have hboots : p = serial.base ∧ serial.model = 0x03#16 := hinv.done _ hmem
      exact hno ⟨hboots.2, hboots.1 ▸ hp⟩

/-- A PL011. -/
def pl011Port : SerialInfo := ⟨0x9000000, 115200, 1, 3⟩

theorem callback_ready_iff_first :
    AtEvery (bootStep (fun _ => busy) 1) (NonNull (fun _ => busy) 1) [.irq]
      (.start 1 pl011Port 0x1000 (receiving [])) := by
  refine (callback_ready_iff _ 1 pl011Port (by decide) _ _).mpr fun pre e b hp hrun _ => ?_
  obtain rfl : pre = [] := by
    cases pre with
    | nil => rfl
    | cons a pre => exact absurd hp.length_le (by simp)
  cases hrun
  exact fun ⟨hearly, _⟩ => absurd hearly.pl (by simp [Booting.start])

theorem callback_not_ready :
    ¬∀ env fuel serial kcall s es, kcall ≠ 0 →
      AtEvery (bootStep env fuel) (NonNull env fuel) es (.start fuel serial kcall s) := fun H => by
  have hmodel : pl011Port.model = 0x03#16 := rfl
  have hk : (0x1000 : BitVec 64) ≠ 0 := by decide
  exact pl011_unready hmodel (by decide) hk (receiving []) (H _ _ _ _ _ _ hk)

end Boards

end Osdev2.Aarch64
