import Osdev2.Aarch64.Cpu

/-!
# `interrupt_entry` (`kernel/arch/aarch64/boot.asm`)

One interrupt is `save`, the call of `interrupt_handler` and `restore`
(`execs_save`, `execs_restore`): every general register comes back
(`irq_x`), and SP comes back 192 lower (`irq_sp`). `irqs` is a run of
interrupts, one handler each.
-/

namespace Osdev2.Aarch64

open Osdev2.Lib

/-- The register saves that `interrupt_entry` and `exception_entry` share. -/
def save : List Ins := [
  .subSp 192,
  .stp (.x 0) (.x 1) (16 * 0),
  .stp (.x 2) (.x 3) (16 * 1),
  .stp (.x 4) (.x 5) (16 * 2),
  .stp (.x 6) (.x 7) (16 * 3),
  .stp (.x 8) (.x 9) (16 * 4),
  .stp (.x 10) (.x 11) (16 * 5),
  .stp (.x 12) (.x 13) (16 * 6),
  .stp (.x 14) (.x 15) (16 * 7),
  .stp (.x 16) (.x 17) (16 * 8),
  .stp (.x 18) (.x 29) (16 * 9),
  .stp (.x 30) .xzr (16 * 10),
  .mrs (.x 0) .ESR_EL1,
  .mrs (.x 1) .FAR_EL1,
  .stp (.x 0) (.x 1) (16 * 11)]

def restore : List Ins := [
  .ldp (.x 0) (.x 1) (16 * 0),
  .ldp (.x 2) (.x 3) (16 * 1),
  .ldp (.x 4) (.x 5) (16 * 2),
  .ldp (.x 6) (.x 7) (16 * 3),
  .ldp (.x 8) (.x 9) (16 * 4),
  .ldp (.x 10) (.x 11) (16 * 5),
  .ldp (.x 12) (.x 13) (16 * 6),
  .ldp (.x 14) (.x 15) (16 * 7),
  .ldp (.x 16) (.x 17) (16 * 8),
  .ldp (.x 18) (.x 29) (16 * 9),
  .ldp (.x 30) .xzr (16 * 10)]

/-- `save`, the call with the frame's address, `restore`, and `eret`. The
`add sp, sp, #192` that ends `exception_entry` has no counterpart here. -/
def interrupt_entry : List Ins := save ++ [.movSp (.x 0), .bl] ++ restore ++ [.eret]

/-- The frame as `save` leaves it: an `interrupt_frame_t` from SP up. -/
def frameWords (s : Cpu) : List (BitVec 64) :=
  [s.x 0, s.x 1, s.x 2, s.x 3, s.x 4, s.x 5, s.x 6, s.x 7, s.x 8, s.x 9, s.x 10, s.x 11, s.x 12,
    s.x 13, s.x 14, s.x 15, s.x 16, s.x 17, s.x 18, s.x 29, s.x 30, 0, s.sys .ESR_EL1,
    s.sys .FAR_EL1]

theorem execs_save (call : Cpu → Cpu) (link : BitVec 64) (s : Cpu) :
    execs call link save s = { s with
      sp := s.sp - 192#64
      x := Function.update (Function.update s.x 0 (s.sys .ESR_EL1)) 1 (s.sys .FAR_EL1)
      mem := storeWords (s.sp - 192#64) 0 (frameWords s) s.mem } := by
  rfl

/-- The slot each register is loaded from, if any. -/
def restoreSlot (r : Fin 31) : Option Nat :=
  if r.val ≤ 18 then some (8 * r.val) else if r = 29 then some 152 else if r = 30 then some 160
  else none

theorem execs_restore (call : Cpu → Cpu) (link : BitVec 64) (s : Cpu) :
    execs call link restore s = { s with x := (execs call link restore s).x } ∧
      ∀ r, (execs call link restore s).x r =
        match restoreSlot r with
        | some off => load64 s.mem (s.slot off)
        | none => s.x r := by
  refine ⟨rfl, fun r => ?_⟩
  fin_cases r <;> rfl

theorem frameWords_get (s : Cpu) {r : Fin 31} (h : r.val ≤ 18) (hr : r.val < (frameWords s).length) :
    (frameWords s)[r.val] = s.x r := by
  obtain ⟨k, hk⟩ := r
  simp only at h
  interval_cases k <;> rfl

/-- One interrupt: the registers and SP after the `eret`. -/
def irq (call : Cpu → Cpu) (link : BitVec 64) (s : Cpu) : Cpu := execs call link interrupt_entry s

section Irq

variable {call : Cpu → Cpu} {link : BitVec 64} (h : Aapcs64 192 call) (s : Cpu)

/-- The machine as the handler is entered. -/
def entered (link : BitVec 64) (s : Cpu) : Cpu where
  x := Function.update (Function.update (Function.update (Function.update s.x 0 (s.sys .ESR_EL1))
    1 (s.sys .FAR_EL1)) 0 (s.sp - 192#64)) 30 link
  sp := s.sp - 192#64
  sys := s.sys
  mem := storeWords (s.sp - 192#64) 0 (frameWords s) s.mem

theorem irq_eq : irq call link s = execs call link restore (call (entered link s)) := by
  unfold irq interrupt_entry
  rw [execs_append, execs_append, execs_append, execs_save]
  rfl

include h

theorem irq_sp : (irq call link s).sp = s.sp - 192#64 := by
  rw [irq_eq, (execs_restore call link _).1]
  exact h.sp _

/-- A slot of the frame still holds what `save` put there. -/
theorem load64_frame {k : Nat} (hk : k < (frameWords s).length) :
    load64 (call (entered link s)).mem ((call (entered link s)).slot (8 * k)) =
      (frameWords s)[k] := by
  have hlen : (frameWords s).length = 24 := rfl
  rw [Cpu.slot, h.sp]
  have hkeep : load64 (call (entered link s)).mem ((entered link s).sp + BitVec.ofNat 64 (8 * k)) =
      load64 (entered link s).mem ((entered link s).sp + BitVec.ofNat 64 (8 * k)) := by
    refine load64_congr fun j hj => h.frame _ _ ?_
    have hx0 : (entered link s).x 0 = (entered link s).sp := rfl
    rw [hx0, BitVec.add_assoc, ← BitVec.ofNat_add]
    exact inRange_add (by omega) (by omega)
  rw [hkeep]
  have hw : load64 (storeWords (s.sp - 192#64) 0 (frameWords s) s.mem)
      (s.sp - 192#64 + BitVec.ofNat 64 (0 + 8 * k)) = (frameWords s)[k] :=
    load64_storeWords (by omega) (by omega)
  rwa [Nat.zero_add] at hw

theorem irq_x : (irq call link s).x = s.x := by
  funext r
  have hlen : (frameWords s).length = 24 := rfl
  rw [irq_eq, (execs_restore call link _).2 r]
  unfold restoreSlot
  by_cases h1 : r.val ≤ 18
  · rw [if_pos h1]
    simp only
    have hr : r.val < (frameWords s).length := by omega
    rw [load64_frame h s hr]
    exact frameWords_get s h1 hr
  · rw [if_neg h1]
    by_cases h29 : r = 29
    · subst h29
      exact load64_frame h s (k := 19) (by omega)
    by_cases h30 : r = 30
    · subst h30
      exact load64_frame h s (k := 20) (by omega)
    -- x19 to x28 are not saved: the handler keeps them
    have h30' : r.val ≠ 30 := fun e => h30 (Fin.ext e)
    rw [if_neg h29, if_neg h30]
    simp only
    rw [h.saved _ r (by omega) (by omega)]
    simp only [entered]
    rw [Function.update_of_ne h30, Function.update_of_ne (by rintro rfl; exact h1 (by decide)),
      Function.update_of_ne (by rintro rfl; exact h1 (by decide)),
      Function.update_of_ne (by rintro rfl; exact h1 (by decide))]

end Irq

/-! ## Runs of interrupts -/

/-- `n` successive interrupts, the `i`-th handled by `call i`. -/
def irqs (call : Nat → Cpu → Cpu) (link : BitVec 64) : Nat → Cpu → Cpu
  | 0, s => s
  | n + 1, s => irq (call n) link (irqs call link n s)

theorem irqs_regs {call : Nat → Cpu → Cpu} {link : BitVec 64} (h : ∀ i, Aapcs64 192 (call i))
    (s : Cpu) (n : Nat) :
    (irqs call link n s).x = s.x ∧ (irqs call link n s).sp = s.sp - BitVec.ofNat 64 (192 * n) := by
  induction n with
  | zero => exact ⟨rfl, (BitVec.sub_zero _).symm⟩
  | succ n ih =>
    refine ⟨(irq_x (h n) _).trans ih.1, ?_⟩
    rw [irqs, irq_sp (h n), ih.2, Nat.mul_succ, BitVec.ofNat_add]
    exact sub_sub _ _ _

/-- Every interrupt of the run returns with the registers and SP it found, and
so does the run. -/
def Transparent (call : Nat → Cpu → Cpu) (link : BitVec 64) (n : Nat) (s : Cpu) : Prop :=
  (∀ i, i < n → (irqs call link (i + 1) s).x = (irqs call link i s).x ∧
    (irqs call link (i + 1) s).sp = (irqs call link i s).sp) ∧
  (irqs call link n s).sp = s.sp

/-- **No interrupt is transparent**: `n` interrupts give back `x0` to `x30` and
leave SP `192 * n` lower, so the run is transparent only if it is empty. -/
theorem interrupt_entry_transparent_iff (call : Nat → Cpu → Cpu) (link : BitVec 64)
    (h : ∀ i, Aapcs64 192 (call i)) (n : Nat) (s : Cpu) :
    (Transparent call link n s ↔ n = 0) ∧
      (irqs call link n s).x = s.x ∧ (irqs call link n s).sp = s.sp - BitVec.ofNat 64 (192 * n) := by
  refine ⟨⟨fun ht => ?_, ?_⟩, irqs_regs h s n⟩
  · by_contra hn
    have h1 := (ht.1 0 (Nat.pos_of_ne_zero hn)).2
    rw [(irqs_regs h s 1).2, irqs] at h1
    have h0 : 192#64 = 0#64 := sub_eq_self.mp h1
    exact absurd h0 (by decide)
  · rintro rfl
    exact ⟨fun i hi => absurd hi (Nat.not_lt_zero i), rfl⟩

theorem aapcs64_id : Aapcs64 192 id := ⟨fun _ _ _ _ => rfl, fun _ => rfl, fun _ _ _ => rfl⟩

theorem interrupt_entry_not_transparent :
    ¬∀ (call : Nat → Cpu → Cpu) (link : BitVec 64), (∀ i, Aapcs64 192 (call i)) →
      ∀ n s, Transparent call link n s := fun H =>
  absurd (H (fun _ => id) 0 (fun _ => aapcs64_id) 1 ⟨fun _ => 0, 0, fun _ => 0, fun _ => 0⟩).2
    (by rw [(irqs_regs (fun _ => aapcs64_id) _ 1).2]; decide)

theorem interrupt_entry_transparent_iff_two :
    ¬Transparent (fun _ => id) 0 2 ⟨fun _ => 0, 0x4000, fun _ => 0, fun _ => 0⟩ ∧
      (irqs (fun _ => id) 0 2 ⟨fun _ => 0, 0x4000, fun _ => 0, fun _ => 0⟩).sp = 0x3E80 := by
  obtain ⟨h1, -, h3⟩ := interrupt_entry_transparent_iff (fun _ => id) 0 (fun _ => aapcs64_id) 2
    ⟨fun _ => 0, 0x4000, fun _ => 0, fun _ => 0⟩
  exact ⟨fun ht => absurd (h1.mp ht) (by decide), h3⟩

end Osdev2.Aarch64
