import Osdev2.Lib.Memory
import Osdev2.Lib.Traced
import Osdev2.Efi.Uart

/-!
# The AArch64 serial driver (`kernel/arch/aarch64/uart.c`)

`uart_init` takes the port the loader found, and `uart_putc` writes to it. Both
are programs over the driver's three pointers that log their stores, each with
the pointer it goes through. What a register reads is up to the device, any
sequence of values; a polling loop that has not ended after `fuel` reads stops
the program, so every store of a run is one of a run that stops.

`handover_iff`: loader and driver together stay within the block of registers the
table describes exactly if there is a table, and it names memory other than
address 0.
-/

namespace Osdev2.Aarch64

open Osdev2.Lib Osdev2.Efi

/-- The driver's pointers, and the number of register reads so far. -/
structure Uart where
  uart_ns : BitVec 64
  uart_pl : BitVec 64
  uart_fallback : BitVec 64
  reads : Nat

def Uart.init : Uart := ⟨0, 0, 0, 0⟩

/-- A store of `size` bytes at `off` from a pointer. -/
structure Store where
  through : BitVec 64
  off : Nat
  size : Nat
  value : BitVec 64

/-- A loop still polling. -/
inductive Polling where
  | mk

abbrev Driver := Traced Uart Polling Store

/-! ## `ns16550_t` and `pl011_t` -/

def ns_tx : Nat := 0x00
def ns_lcr : Nat := 0x10
def ns_lsr : Nat := 0x18

def pl_dr : Nat := 0x00
def pl_fr : Nat := 0x18
def pl_lcr : Nat := 0x2C
def pl_cr : Nat := 0x30
def pl_imsc : Nat := 0x38

section Code

variable (device : Nat → BitVec 64 → BitVec 32) (fuel : Nat)

def getUart : Driver Uart := fun u => some (.ok u, u, [])

def modifyUart (f : Uart → Uart) : Driver Unit := fun u => some (.ok (), f u, [])

/-- A 32-bit register. -/
def load (p : BitVec 64) (off : Nat) : Driver (BitVec 32) := fun u =>
  some (.ok (device u.reads (p + BitVec.ofNat 64 off)), { u with reads := u.reads + 1 }, [])

def store (p : BitVec 64) (off size : Nat) (v : BitVec 64) : Driver Unit := fun u =>
  some (.ok (), u, [⟨p, off, size, v⟩])

/-- Read the register until it is `ready`. -/
def poll (p : BitVec 64) (off : Nat) (ready : BitVec 32 → Bool) : Nat → Driver Unit
  | 0 => Traced.throw .mk
  | fuel + 1 => do
    let v ← load device p off
    if ready v then pure () else poll p off ready fuel

def uart_putc (c : Byte) : Driver Unit := do
  let u ← getUart
  if u.uart_ns ≠ 0 then do
    poll device u.uart_ns ns_lsr (fun v => v &&& 0x20#32 != 0) fuel
    store u.uart_ns ns_tx 4 (c.setWidth 64)
  else if u.uart_pl ≠ 0 then do
    poll device u.uart_pl pl_fr (fun v => v &&& 0x20#32 == 0) fuel
    store u.uart_pl pl_dr 4 (c.setWidth 64)
  else store u.uart_fallback 0 8 (c.setWidth 64)

/-- `puts`, character by character. -/
def puts : List Byte → Driver Unit
  | [] => pure ()
  | c :: cs => do
    uart_putc device fuel c
    puts cs

def uart_init (serial : SerialInfo) : Driver Unit := do
  modifyUart fun u => { u with uart_fallback := serial.base }
  if serial.model = 0x00#16 ∨ serial.model = 0x01#16 ∨ serial.model = 0x05#16 then do
    modifyUart fun u => { u with uart_ns := serial.base }
    store serial.base ns_lcr 4 0x03
    puts device fuel ("[AArch64] UART type is NS16550\n".toList.map ch)
  else if serial.model = 0x03#16 then do
    modifyUart fun u => { u with uart_pl := serial.base }
    store serial.base pl_cr 4 0x00
    store serial.base pl_lcr 4 0x70
    let v ← load device serial.base pl_imsc
    store serial.base pl_imsc 4 ((v ||| 0x10#32).setWidth 64)
    store serial.base pl_cr 4 0x0301
    puts device fuel ("[AArch64] UART type is PL011\n".toList.map ch)
  else pure ()

/-- The kernel: `uart_init`, then any characters. -/
def session (serial : SerialInfo) (cs : List Byte) : Driver Unit := do
  uart_init device fuel serial
  puts device fuel cs

end Code

/-! ## Every store goes through the base -/

section Stores

variable {device : Nat → BitVec 64 → BitVec 32} {fuel : Nat} {base : BitVec 64} {u : Uart}

/-- The driver's pointers, from the first assignment of `uart_init` on. -/
structure Pointed (base : BitVec 64) (u : Uart) : Prop where
  ns : u.uart_ns = 0 ∨ u.uart_ns = base
  pl : u.uart_pl = 0 ∨ u.uart_pl = base
  fallback : u.uart_fallback = base

/-- From pointers set to `base` the program stores through it alone, and leaves them set. -/
def Through (base : BitVec 64) (x : Driver α) : Prop :=
  ∀ u, Pointed base u → Spec (fun op : Store => op.through = base) x u True fun _ u' => Pointed base u'

theorem through_store (off size : Nat) (v : BitVec 64) : Through base (store base off size v) :=
  fun _ h => Spec.of_eq rfl (by simp) fun _ => h

theorem through_load (p : BitVec 64) (off : Nat) : Through base (load device p off) :=
  fun _ h => Spec.of_eq rfl (by simp) fun _ => ⟨h.ns, h.pl, h.fallback⟩

theorem through_poll (p : BitVec 64) (off : Nat) (ready : BitVec 32 → Bool) :
    ∀ fuel, Through base (poll device p off ready fuel)
  | 0, _, h => Spec.of_eq rfl (by simp) fun _ => h
  | fuel + 1, u, h => by
    refine (through_load p off u h).seq fun v u' h' => ?_
    split
    · exact Spec.of_eq rfl (by simp) fun _ => h'
    · exact through_poll p off ready fuel u' h'

theorem through_putc (c : Byte) : Through base (uart_putc device fuel c) := by
  intro u h
  unfold uart_putc
  have hget : Spec (fun op : Store => op.through = base) getUart u True
      fun r t => r = .ok u ∧ t = u := Spec.of_eq rfl (by simp) fun _ => ⟨rfl, rfl⟩
  refine hget.bind_known trivial ?_
  by_cases hns : u.uart_ns = 0
  · rw [if_neg (not_not_intro hns)]
    by_cases hpl : u.uart_pl = 0
    · rw [if_neg (not_not_intro hpl), h.fallback]
      exact through_store _ _ _ u h
    · rw [if_pos hpl, h.pl.resolve_left hpl]
      exact (through_poll _ _ _ _ u h).seq fun _ u' h' => through_store _ _ _ u' h'
  · rw [if_pos hns, h.ns.resolve_left hns]
    exact (through_poll _ _ _ _ u h).seq fun _ u' h' => through_store _ _ _ u' h'

theorem through_puts : ∀ cs, Through base (puts device fuel cs)
  | [], _, h => Spec.of_eq rfl (by simp) fun _ => h
  | c :: cs, u, h => by
    unfold puts
    exact (through_putc c u h).seq fun _ u' h' => through_puts cs u' h'

theorem through_ns : Through base (modifyUart fun u => { u with uart_ns := base }) :=
  fun _ h => Spec.of_eq rfl (by simp) fun _ => ⟨.inr rfl, h.pl, h.fallback⟩

theorem through_pl : Through base (modifyUart fun u => { u with uart_pl := base }) :=
  fun _ h => Spec.of_eq rfl (by simp) fun _ => ⟨h.ns, .inr rfl, h.fallback⟩

theorem through_init (serial : SerialInfo) : Spec (fun op : Store => op.through = serial.base)
    (uart_init device fuel serial) Uart.init True fun _ u' => Pointed serial.base u' := by
  unfold uart_init
  have hset : Spec (fun op : Store => op.through = serial.base)
      (modifyUart fun u => { u with uart_fallback := serial.base }) Uart.init True
      fun _ u' => Pointed serial.base u' :=
    Spec.of_eq rfl (by simp) fun _ => ⟨.inl rfl, .inl rfl, rfl⟩
  refine hset.seq fun _ u h => ?_
  split
  · refine (through_ns u h).seq fun _ u h => ?_
    refine (through_store _ _ _ u h).seq fun _ u h => ?_
    exact through_puts _ u h
  · split
    · refine (through_pl u h).seq fun _ u h => ?_
      refine (through_store _ _ _ u h).seq fun _ u h => ?_
      refine (through_store _ _ _ u h).seq fun _ u h => ?_
      refine (through_load _ _ u h).seq fun _ u h => ?_
      refine (through_store _ _ _ u h).seq fun _ u h => ?_
      refine (through_store _ _ _ u h).seq fun _ u h => ?_
      exact through_puts _ u h
    · exact Spec.of_eq rfl (by simp) fun _ => h

theorem through_session (serial : SerialInfo) (cs : List Byte) :
    Spec (fun op : Store => op.through = serial.base) (session device fuel serial cs) Uart.init True
      fun _ u' => Pointed serial.base u' := by
  unfold session
  exact (through_init serial).seq fun _ u h => through_puts cs u h

end Stores

/-! ## The hand-over -/

/-- A store through memory that the table gives as the UART's registers. -/
def Described (spcr : Option Spcr) (op : Store) : Prop :=
  op.through ≠ 0 ∧ ∃ t, spcr = some t ∧ t.AddressSpaceId = 0 ∧ op.through = t.Address

/-- The loader's result depends on the table alone, and the kernel that gets it stores through
the table's registers alone. -/
structure HandedOver (spcr : Option Spcr) : Prop where
  agree : ∀ g g', find_uart g spcr = find_uart g' spcr
  stores : ∀ g device fuel cs,
    Sound (Described spcr) (session device fuel (find_uart g spcr) cs) Uart.init

/-- Every run of the program makes a store. -/
def Stores (x : Driver α) (u : Uart) : Prop := ∀ r u' ops, x u = some (r, u', ops) → ops ≠ []

theorem Stores.first {x : Driver α} {f : α → Driver β} {u : Uart} (h : Stores x u) :
    Stores (x >>= f) u := by
  intro r u' ops hrun hnil
  rcases bind_eq_some hrun with ⟨e, -, hx⟩ | ⟨a, t, l, l', hx, -, rfl⟩
  · exact h _ _ _ hx hnil
  · exact h _ _ _ hx (List.append_eq_nil_iff.mp hnil).1

theorem Stores.later {x : Driver α} {f : α → Driver β} {u u' : Uart} {a : α} {ops : List Store}
    (hx : x u = some (.ok a, u', ops)) (h : Stores (f a) u') : Stores (x >>= f) u := by
  intro r t l hrun hnil
  rcases bind_eq_some hrun with ⟨e, -, hx'⟩ | ⟨b, t', l₁, l₂, hx', hf, rfl⟩
  · cases hx.symm.trans hx'
  · cases hx.symm.trans hx'
    exact h _ _ _ hf (List.append_eq_nil_iff.mp hnil).2

theorem stores_store (p : BitVec 64) (off size : Nat) (v : BitVec 64) (u : Uart) :
    Stores (store p off size v) u := by
  intro r u' ops h
  cases h
  exact List.cons_ne_nil _ _

/-- `uart_init` stores for a model it knows, and else the first character does. -/
theorem session_stores (device : Nat → BitVec 64 → BitVec 32) (fuel : Nat) (serial : SerialInfo)
    (c : Byte) : Stores (session device fuel serial [c]) Uart.init := by
  unfold session
  by_cases hns : serial.model = 0x00#16 ∨ serial.model = 0x01#16 ∨ serial.model = 0x05#16
  · apply Stores.first
    unfold uart_init
    rw [if_pos hns]
    exact .later rfl (.later rfl (.first (stores_store _ _ _ _ _)))
  · by_cases hpl : serial.model = 0x03#16
    · apply Stores.first
      unfold uart_init
      rw [if_neg hns, if_pos hpl]
      exact .later rfl (.later rfl (.first (stores_store _ _ _ _ _)))
    · have hinit : uart_init device fuel serial Uart.init =
          some (.ok (), { Uart.init with uart_fallback := serial.base }, []) := by
        unfold uart_init
        rw [if_neg hns, if_neg hpl]
        rfl
      refine .later hinit ?_
      unfold puts uart_putc
      apply Stores.first
      exact .later rfl (stores_store _ _ _ _ _)

/-- **The serial hand-over.** -/
theorem handover_iff (spcr : Option Spcr) :
    HandedOver spcr ↔ ∃ t, spcr = some t ∧ t.AddressSpaceId = 0 ∧ t.Address ≠ 0 := by
  constructor
  · intro h
    cases spcr with
    | none => exact absurd rfl ((find_uart_agrees_iff none).mp h.agree)
    | some t =>
      obtain ⟨r, u, ops, hs, hok⟩ := h.stores ⟨0, 0, 0, 0⟩ (fun _ _ => 0) 0 [0]
      obtain ⟨op, hop⟩ := List.exists_mem_of_ne_nil ops (session_stores _ _ _ _ _ _ _ hs)
      obtain ⟨hne, t', ht, hspace, hbase⟩ := hok op hop
      cases ht
      exact ⟨t, rfl, hspace, hbase ▸ hne⟩
  · rintro ⟨t, rfl, hspace, hne⟩
    refine ⟨(find_uart_agrees_iff _).mpr (by simp), fun g device fuel cs => ?_⟩
    have hs : Sound (fun op : Store => op.through = t.Address)
        (session device fuel (find_uart g (some t)) cs) Uart.init :=
      (through_session (find_uart g (some t)) cs).sound.mpr trivial
    refine hs.mono fun op hop => ?_
    have hbase : op.through = t.Address := hop
    exact ⟨hbase ▸ hne, t, rfl, hspace, hbase⟩

/-- Without a table the driver is picked by what was on the stack. -/
theorem handover_garbage : ¬∀ spcr, HandedOver spcr := by
  intro h
  exact (find_uart_agrees_iff none).mp (h none).agree rfl

end Osdev2.Aarch64
