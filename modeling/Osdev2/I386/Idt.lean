import Osdev2.Lib.Stored

/-!
# The interrupt descriptor table (`kernel/arch/i386/arch.c`)

`add_idt_entry` fills in one `idtent_t`; `arch_init` gives the first 32 vectors the
stubs of `isr_stub_table`, loads `idt_r`, and adds the keyboard's vector before it
enables interrupts. The processor reads eight bytes of memory as a gate (`gateAt`),
if the table is long enough to have it (`tabreg_t.gate`).

`add_idt_entry_gate`: the processor reads there what was meant, and every other gate as
before; `arch_idt_gate`: what the finished table holds at each of the 256 vectors.
-/

namespace Osdev2.I386

open Osdev2.Lib

/-! ## The table as C writes it -/

structure idtent_t where
  offset_l : BitVec 16
  segment : BitVec 16
  reserved : Byte
  flags : Byte
  offset_h : BitVec 16

/-- `IDTR`, as `lidt` loads it. -/
structure tabreg_t where
  limit : BitVec 16
  base : BitVec 32

/-- The two bytes of a word. -/
def le16 (w : BitVec 16) : List Byte := [w.extractLsb' 0 8, w.extractLsb' 8 8]

/-- The structure is packed. -/
def idtent_t.bytes (e : idtent_t) : List Byte :=
  le16 e.offset_l ++ le16 e.segment ++ [e.reserved, e.flags] ++ le16 e.offset_h

def idt_entry (isr : BitVec 32) (flags : Byte) : idtent_t where
  offset_l := (isr &&& 0xFFFF).setWidth 16
  segment := 0x0008
  reserved := 0
  flags := flags
  offset_h := ((isr >>> 16) &&& 0xFFFF).setWidth 16

section Table

variable (idt : BitVec 32)

def add_idt_entry (v : Nat) (isr : BitVec 32) (flags : Byte) (m : Mem) : Mem :=
  m.put (idt.toNat + 8 * v) (idt_entry isr flags).bytes

/-- The loop of `arch_init`. -/
def fill_idt (isr_stub_table : Nat → BitVec 32) (m : Mem) : Mem :=
  (List.range 32).foldl (fun m i => add_idt_entry idt i (isr_stub_table i) 0x8E m) m

def idt_r : tabreg_t := ⟨8 * 256 - 1, idt⟩

end Table

/-! ## The table as the processor reads it -/

structure Gate where
  offset : BitVec 32
  selector : BitVec 16
  present : Bool
  dpl : BitVec 2
  type : BitVec 5
  deriving DecidableEq

def gateAt (m : Mem) (a : Nat) : Gate where
  offset := m (a + 7) ++ m (a + 6) ++ m (a + 1) ++ m a
  selector := m (a + 3) ++ m (a + 2)
  present := (m (a + 5)).getLsbD 7
  dpl := (m (a + 5)).extractLsb' 5 2
  type := (m (a + 5)).extractLsb' 0 5

/-- The gate of a vector; none is beyond the limit. -/
def tabreg_t.gate (r : tabreg_t) (m : Mem) (v : Byte) : Option Gate :=
  if 8 * v.toNat + 7 ≤ r.limit.toNat then some (gateAt m (r.base.toNat + 8 * v.toNat)) else none

/-- A 32-bit interrupt gate: it clears IF on the way. -/
def interruptGate : BitVec 5 := 0x0E

/-- The gate that flags 0x8E make. -/
def kernelGate (isr : BitVec 32) : Gate := ⟨isr, 0x0008, true, 0, interruptGate⟩

section Gates

variable {m m' : Mem} {idt isr : BitVec 32} {flags v : Byte}

theorem gateAt_congr {a : Nat} (h : ∀ k, k < 8 → m' (a + k) = m (a + k)) : gateAt m' a = gateAt m a := by
  have h0 : m' a = m a := h 0 (by decide)
  simp only [gateAt, h0, h 1 (by decide), h 2 (by decide), h 3 (by decide), h 5 (by decide),
    h 6 (by decide), h 7 (by decide)]

theorem offset_bytes (w : BitVec 32) :
    ((w >>> 16 &&& 0xFFFF).setWidth 16).extractLsb' 8 8 ++
      ((w >>> 16 &&& 0xFFFF).setWidth 16).extractLsb' 0 8 ++
      ((w &&& 0xFFFF).setWidth 16).extractLsb' 8 8 ++ ((w &&& 0xFFFF).setWidth 16).extractLsb' 0 8 = w := by
  have hlow : ∀ w : BitVec 32, (w &&& 0xFFFF).setWidth 16 = w.extractLsb' 0 16 := fun w => by
    refine BitVec.eq_of_toNat_eq ?_
    rw [BitVec.toNat_setWidth, BitVec.toNat_and, BitVec.extractLsb'_toNat, Nat.shiftRight_zero,
      show (0xFFFF : BitVec 32).toNat = 2 ^ 16 - 1 by rfl, Nat.and_two_pow_sub_one_eq_mod, Nat.mod_mod]
  have hshift : ∀ k, (w >>> 16).extractLsb' k 8 = w.extractLsb' (16 + k) 8 := fun k => by
    refine BitVec.eq_of_getLsbD_eq fun i hi => ?_
    simp only [BitVec.getLsbD_extractLsb', BitVec.getLsbD_ushiftRight, Nat.add_assoc]
  rw [hlow, hlow, BitVec.extractLsb'_extractLsb'_of_le (by decide),
    BitVec.extractLsb'_extractLsb'_of_le (by decide), BitVec.extractLsb'_extractLsb'_of_le (by decide),
    BitVec.extractLsb'_extractLsb'_of_le (by decide), hshift, hshift,
    BitVec.extractLsb'_append_extractLsb'_eq_extractLsb' (by rfl),
    BitVec.extractLsb'_append_extractLsb'_eq_extractLsb' (by rfl),
    BitVec.extractLsb'_append_extractLsb'_eq_extractLsb' (by rfl)]
  exact BitVec.extractLsb'_eq_self

/-- **One entry.** -/
theorem gateAt_put (a : Nat) : gateAt (m.put a (idt_entry isr flags).bytes) a =
    ⟨isr, 0x0008, flags.getLsbD 7, flags.extractLsb' 5 2, flags.extractLsb' 0 5⟩ := by
  have hstored := Stored.put a (idt_entry isr flags).bytes m
  have hbyte : ∀ k, k < 8 → m.put a (idt_entry isr flags).bytes (a + k) =
      (idt_entry isr flags).bytes.getD k 0 := fun k hk => hstored.inside hk
  have h0 : m.put a (idt_entry isr flags).bytes a = (idt_entry isr flags).bytes.getD 0 0 :=
    hbyte 0 (by decide)
  simp only [gateAt, h0, hbyte 1 (by decide), hbyte 2 (by decide), hbyte 3 (by decide),
    hbyte 5 (by decide), hbyte 6 (by decide), hbyte 7 (by decide)]
  have hoffset : (idt_entry isr flags).bytes.getD 7 0 ++ (idt_entry isr flags).bytes.getD 6 0 ++
      (idt_entry isr flags).bytes.getD 1 0 ++ (idt_entry isr flags).bytes.getD 0 0 = isr :=
    offset_bytes isr
  have hselector : (idt_entry isr flags).bytes.getD 3 0 ++ (idt_entry isr flags).bytes.getD 2 0 =
      (0x0008 : BitVec 16) := by
    change (0x0008#16).extractLsb' 8 8 ++ (0x0008#16).extractLsb' 0 8 = 0x0008#16
    decide
  rw [hoffset, hselector]
  rfl

theorem gateAt_put_ne {a b : Nat} (h : a + 8 ≤ b ∨ b + 8 ≤ a) :
    gateAt (m.put a (idt_entry isr flags).bytes) b = gateAt m b :=
  gateAt_congr fun k hk => (Stored.put a (idt_entry isr flags).bytes m).outside fun hin => by
    have hlen : (idt_entry isr flags).bytes.length = 8 := rfl
    omega

theorem idt_r_gate (m : Mem) (v : Byte) :
    (idt_r idt).gate m v = some (gateAt m (idt.toNat + 8 * v.toNat)) := by
  have hv := v.isLt
  have hlimit : 8 * v.toNat + 7 ≤ (8 * 256 - 1 : BitVec 16).toNat := by
    rw [show (8 * 256 - 1 : BitVec 16).toNat = 2047 by rfl]
    omega
  exact if_pos hlimit

/-- What an `add_idt_entry` makes of the table: its own gate, and every other as it was. -/
theorem add_idt_entry_gate (idt : BitVec 32) (n : Nat) (isr : BitVec 32) (flags : Byte) (m : Mem) (v : Byte) :
    (idt_r idt).gate (add_idt_entry idt n isr flags m) v =
      if v.toNat = n then
        some ⟨isr, 0x0008, flags.getLsbD 7, flags.extractLsb' 5 2, flags.extractLsb' 0 5⟩
      else (idt_r idt).gate m v := by
  rw [idt_r_gate, idt_r_gate, add_idt_entry]
  split
  · rename_i hv
    rw [hv, gateAt_put]
  · rename_i hv
    rw [gateAt_put_ne (by omega)]

theorem fill_idt_gate (idt : BitVec 32) (isr_stub_table : Nat → BitVec 32) (m : Mem) (v : Byte) :
    (idt_r idt).gate (fill_idt idt isr_stub_table m) v =
      if v.toNat < 32 then some (kernelGate (isr_stub_table v.toNat)) else (idt_r idt).gate m v := by
  have hloop : ∀ n, (idt_r idt).gate
      ((List.range n).foldl (fun m i => add_idt_entry idt i (isr_stub_table i) 0x8E m) m) v =
      if v.toNat < n then some (kernelGate (isr_stub_table v.toNat)) else (idt_r idt).gate m v := by
    intro n
    induction n with
    | zero => rfl
    | succ n ih =>
      rw [List.range_succ, List.foldl_append, List.foldl_cons, List.foldl_nil, add_idt_entry_gate, ih]
      by_cases hv : v.toNat = n
      · rw [if_pos hv, if_pos (by omega), hv]
        rfl
      · rw [if_neg hv]
        exact if_congr (by omega) rfl rfl
  exact hloop 32

/-- The table as `arch_init` leaves it. -/
def arch_idt (idt : BitVec 32) (isr_stub_table : Nat → BitVec 32) (keyboard_stub : BitVec 32)
    (m : Mem) : Mem :=
  add_idt_entry idt 0x21 keyboard_stub 0x8E (fill_idt idt isr_stub_table m)

/-- **All 256 gates.** The exceptions have their stubs and the keyboard its own; whether another vector
has a gate is up to what was in memory, which nothing clears. -/
theorem arch_idt_gate (idt : BitVec 32) (isr_stub_table : Nat → BitVec 32) (keyboard_stub : BitVec 32)
    (m : Mem) (v : Byte) :
    (idt_r idt).gate (arch_idt idt isr_stub_table keyboard_stub m) v = some
      (if v.toNat < 32 then kernelGate (isr_stub_table v.toNat)
      else if v = 0x21 then kernelGate keyboard_stub
      else gateAt m (idt.toNat + 8 * v.toNat)) := by
  rw [arch_idt, add_idt_entry_gate, fill_idt_gate, idt_r_gate]
  have hv : v.toNat = 0x21 ↔ v = 0x21 := ⟨fun h => BitVec.eq_of_toNat_eq h, fun h => h ▸ rfl⟩
  by_cases hk : v.toNat = 0x21
  · rw [if_pos hk, if_neg (by omega), if_pos (hv.mp hk)]
    rfl
  · rw [if_neg hk, if_neg (fun h => hk (hv.mpr h))]
    split <;> rfl

end Gates

end Osdev2.I386
