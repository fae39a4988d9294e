import Osdev2.I386.Pic

/-!
# The master controller at work

`Master` is an 8259 with the levels of its eight inputs, the requests that the rises of
these have left (`irr`), and what the processor is serving (`isr`). It passes on the most
urgent request that is not masked and that nothing as urgent is being served before.
The processor acknowledges it and, at the end of its handler, writes an EOI.

Whatever it was doing, an ICW1 starts it afresh: a line that is up stays up without a
request, until it falls and rises again (`outb_icw1`).
-/

namespace Osdev2.I386

open Osdev2.Lib

structure Master where
  pic : Pic
  lines : Fin 8 → Bool
  irr : Fin 8 → Bool
  isr : Fin 8 → Bool

namespace Master

variable (p : Master)

/-- An input goes up. -/
def raise (k : Fin 8) : Master :=
  if p.lines k then p
  else { p with lines := Function.update p.lines k true, irr := Function.update p.irr k true }

/-- An input goes down; a request not yet acknowledged is withdrawn. -/
def lower (k : Fin 8) : Master :=
  { p with lines := Function.update p.lines k false, irr := Function.update p.irr k false }

/-- Bit 3 of ICW1: the inputs are levels, not edges. -/
def asks (k : Fin 8) : Bool := if p.pic.icw1.getLsbD 3 then p.lines k else p.irr k

/-- The request to the processor, if any. -/
def request : Option (Fin 8) :=
  (List.finRange 8).find? fun k =>
    p.asks k && !p.pic.mask.getLsbD k && decide (∀ j ≤ k, p.isr j = false)

/-- The vector that the processor is told, for every line but the cascade's. The slave is wired to
line 2, and the vector of line 1 is taken to be the master's own, though the ICW3 of `pic_remap`
names line 1. -/
def vector (k : Fin 8) : Byte := p.pic.vector ||| BitVec.ofNat 8 k

/-- Bit 1 of ICW4: the EOI is automatic. -/
def acknowledge (k : Fin 8) : Master :=
  { p with
    irr := Function.update p.irr k false
    isr := if p.pic.icw4.getLsbD 1 then p.isr else Function.update p.isr k true }

/-- The most urgent of those in service is done. -/
def eoi : Master := { p with isr := fun k => p.isr k && decide (∃ j < k, p.isr j = true) }

/-- Of the commands but ICW1 only the EOI that names no line. -/
def write : PicWrite → Master
  | .command b =>
    if b.getLsbD 4 then { p with pic := p.pic.command b, irr := fun _ => false, isr := fun _ => false }
    else if b = 0x20 then p.eoi
    else p
  | .data b => { p with pic := p.pic.data b }

/-- A byte on the bus, to the master. -/
def outb (w : PortByte) : Master := (heard 0x20 w).elim p p.write

theorem write_pic (w : PicWrite) : (p.write w).pic = p.pic.write w := by
  cases w with
  | data b => rfl
  | command b =>
    simp only [write, Pic.write, Pic.command]
    by_cases h : b.getLsbD 4 = true
    · rw [if_pos h, if_pos h]
    · rw [if_neg h, if_neg h]
      split <;> rfl

theorem outb_pic (w : PortByte) : (p.outb w).pic = (heard 0x20 w).elim p.pic p.pic.write := by
  unfold outb
  cases heard 0x20 w with
  | none => rfl
  | some x => exact p.write_pic x

@[simp] theorem outb_lines (w : PortByte) : (p.outb w).lines = p.lines := by
  unfold outb
  cases heard 0x20 w with
  | none => rfl
  | some x =>
    cases x with
    | data b => rfl
    | command b =>
      simp only [Option.elim_some, write]
      split
      · rfl
      · split <;> rfl

/-- No byte at its data port touches a request. -/
theorem outb_of_not_command {w : PortByte} (h : w.1 ≠ 0x20) :
    (p.outb w).irr = p.irr ∧ (p.outb w).isr = p.isr := by
  unfold outb heard
  rw [if_neg h]
  split <;> exact ⟨rfl, rfl⟩

theorem outb_icw1 {b : Byte} (h : b.getLsbD 4 = true) :
    (p.outb (0x20, b)).irr = (fun _ => false) ∧ (p.outb (0x20, b)).isr = fun _ => false := by
  unfold outb heard
  rw [if_pos rfl, Option.elim_some, write, if_pos h]
  exact ⟨rfl, rfl⟩

theorem request_some {k : Fin 8} (h : p.request = some k) :
    p.asks k = true ∧ p.pic.mask.getLsbD k = false ∧ ∀ j ≤ k, p.isr j = false := by
  have hk := List.find?_some h
  simpa [Bool.and_eq_true, and_assoc] using hk

theorem request_isSome {k : Fin 8} (ha : p.asks k = true) (hm : p.pic.mask.getLsbD k = false)
    (hs : ∀ j ≤ k, p.isr j = false) : ∃ j, p.request = some j := by
  refine Option.isSome_iff_exists.mp (List.find?_isSome.mpr ⟨k, List.mem_finRange k, ?_⟩)
  rw [ha, hm, decide_eq_true hs]
  rfl

end Master

end Osdev2.I386
