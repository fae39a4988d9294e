import Osdev2.Lib.Memory

/-!
# The interrupt controllers (`kernel/arch/i386/arch.c`)

An 8259 takes an ICW1 at its command port and then, at its data port, ICW2, ICW3 and,
if ICW1 announces one, ICW4; the data bytes after these are masks (`Pic.write`). Each
of the two hears the writes to its own two ports and no others (`outbs_eq`).

`pic_remap` writes both ICW4 to the master. So the slave takes the mask that
`arch_init` writes for its ICW4, and no byte for its mask; and the master's ICW3 is
`0x2`, which names line 1. `not_remapped`: this is so from whatever state.
-/

namespace Osdev2.I386

open Osdev2.Lib

/-! ## One controller -/

/-- The word that the next byte at the data port is. -/
inductive Awaits where
  | icw2
  | icw3
  | icw4
  | mask
  deriving DecidableEq

structure Pic where
  awaits : Awaits
  icw1 : Byte
  vector : Byte
  /-- Of the master the lines with a slave, of a slave its identity. -/
  cascade : Byte
  icw4 : Byte
  mask : Byte
  deriving DecidableEq

/-- A write to one of its ports. -/
inductive PicWrite where
  | command (b : Byte)
  | data (b : Byte)
  deriving DecidableEq

namespace Pic

variable (p : Pic)

/-- Bit 0 of ICW1: there is an ICW4. -/
def afterIcw3 : Awaits := if p.icw1.getLsbD 0 then .icw4 else .mask

/-- Bit 1 of ICW1: there is no cascade, so no ICW3. -/
def afterIcw2 : Awaits := if p.icw1.getLsbD 1 then p.afterIcw3 else .icw3

/-- Bit 4 makes a command an ICW1; it clears the mask, and ICW4 if none will follow. -/
def command (b : Byte) : Pic :=
  if b.getLsbD 4 then
    { p with awaits := .icw2, icw1 := b, mask := 0, icw4 := if b.getLsbD 0 then p.icw4 else 0 }
  else p

def data (b : Byte) : Pic :=
  match p.awaits with
  | .icw2 => { p with vector := b &&& 0xF8, awaits := p.afterIcw2 }
  | .icw3 => { p with cascade := b, awaits := p.afterIcw3 }
  | .icw4 => { p with icw4 := b, awaits := .mask }
  | .mask => { p with mask := b }

def write : PicWrite → Pic
  | .command b => p.command b
  | .data b => p.data b

theorem masks (h : p.awaits = .mask) (ms : List Byte) :
    (ms.map .data).foldl write p = { p with mask := ms.getLastD p.mask } := by
  induction ms generalizing p with
  | nil => rfl
  | cons m ms ih =>
    have hdata : p.data m = { p with mask := m } := by rw [data, h]
    rw [List.map_cons, List.foldl_cons, write, hdata, ih { p with mask := m } h]
    cases ms with
    | nil => rfl
    | cons m' ms => rfl

theorem initialise {b : Byte} (h4 : b.getLsbD 4 = true) (h0 : b.getLsbD 0 = true) (h1 : b.getLsbD 1 = false)
    (icw2 icw3 icw4 : Byte) (ms : List Byte) :
    (.command b :: .data icw2 :: .data icw3 :: .data icw4 :: ms.map .data).foldl write p =
      ⟨.mask, b, icw2 &&& 0xF8, icw3, icw4, ms.getLastD 0⟩ := by
  have hcommand : p.command b = ⟨.icw2, b, p.vector, p.cascade, p.icw4, 0⟩ := by
    rw [command, if_pos h4, if_pos h0]
  have hafter2 : ∀ v c w m, afterIcw2 ⟨.icw2, b, v, c, w, m⟩ = .icw3 := fun v c w m => by
    rw [afterIcw2, h1, if_neg Bool.false_ne_true]
  have hafter3 : ∀ v c w m, afterIcw3 ⟨.icw3, b, v, c, w, m⟩ = .icw4 := fun v c w m => by
    rw [afterIcw3, if_pos h0]
  simp only [List.foldl_cons, write, hcommand, data, hafter2, hafter3]
  exact masks _ rfl ms

end Pic

/-! ## Both on the bus -/

structure Pics where
  master : Pic
  slave : Pic
  deriving DecidableEq

/-- A byte written to a port. -/
abbrev PortByte := BitVec 16 × Byte

/-- What the controller with this command port hears of it; its data port is the next. -/
def heard (port : BitVec 16) (w : PortByte) : Option PicWrite :=
  if w.1 = port then some (.command w.2) else if w.1 = port + 1 then some (.data w.2) else none

namespace Pics

def outb (s : Pics) (w : PortByte) : Pics where
  master := (heard 0x20 w).elim s.master s.master.write
  slave := (heard 0xA0 w).elim s.slave s.slave.write

theorem outbs_eq (ws : List PortByte) (s : Pics) :
    ws.foldl outb s = ⟨(ws.filterMap (heard 0x20)).foldl Pic.write s.master,
      (ws.filterMap (heard 0xA0)).foldl Pic.write s.slave⟩ := by
  have hone : ∀ (port : BitVec 16) (w : PortByte) (ws : List PortByte) (p : Pic),
      ((w :: ws).filterMap (heard port)).foldl Pic.write p =
        (ws.filterMap (heard port)).foldl Pic.write ((heard port w).elim p p.write) := by
    intro port w ws p
    rw [List.filterMap_cons]
    cases heard port w <;> rfl
  induction ws generalizing s with
  | nil => rfl
  | cons w ws ih => rw [List.foldl_cons, ih, hone, hone]; rfl

end Pics

/-! ## The code -/

def iowait : PortByte := (0x80, 0)

def pic_remap (off1 off2 : Byte) : List PortByte :=
  [(0x20, 0x11), iowait, (0xA0, 0x11), iowait,
    (0x21, off1), iowait, (0xA1, off2), iowait,
    (0x21, 0x2), iowait, (0xA1, 0x2), iowait,
    (0x21, 0x01), iowait, (0x21, 0x01), iowait]

/-- `pic_remap` and the masks after it, in `arch_init`. -/
def pic_init (off1 off2 : Byte) : List PortByte :=
  pic_remap off1 off2 ++ [(0x21, 0xFD), (0xA1, 0xFF)]

/-- What is meant to come of it. -/
structure Remapped (off1 off2 : Byte) (s : Pics) : Prop where
  initialised : s.master.awaits = .mask ∧ s.slave.awaits = .mask
  vectors : s.master.vector = off1 ∧ s.slave.vector = off2
  mode : s.master.icw4.getLsbD 0 = true ∧ s.slave.icw4.getLsbD 0 = true
  line : s.master.cascade = (1 : Byte) <<< 2
  identity : s.slave.cascade &&& 7 = 2
  masks : s.master.mask = 0xFD ∧ s.slave.mask = 0xFF

theorem master_heard (off1 off2 : Byte) : (pic_init off1 off2).filterMap (heard 0x20) =
    .command 0x11 :: .data off1 :: .data 0x2 :: .data 0x01 :: [0x01, 0xFD].map .data := rfl

theorem slave_heard (off1 off2 : Byte) : (pic_init off1 off2).filterMap (heard 0xA0) =
    .command 0x11 :: .data off2 :: .data 0x2 :: .data 0xFF :: [].map .data := rfl

/-- What comes of it: a mask for an ICW4, and none for the slave. -/
theorem pic_init_eq (off1 off2 : Byte) (s : Pics) : (pic_init off1 off2).foldl Pics.outb s =
    ⟨⟨.mask, 0x11, off1 &&& 0xF8, 0x2, 0x01, 0xFD⟩, ⟨.mask, 0x11, off2 &&& 0xF8, 0x2, 0xFF, 0⟩⟩ := by
  rw [Pics.outbs_eq, master_heard, slave_heard, Pic.initialise _ (by decide) (by decide) (by decide),
    Pic.initialise _ (by decide) (by decide) (by decide)]
  rfl

/-- **It never does.** The slave's mask is wrong from every state, and so is the cascade. -/
theorem not_remapped (off1 off2 : Byte) (s : Pics) :
    ¬Remapped off1 off2 ((pic_init off1 off2).foldl Pics.outb s) := by
  rw [pic_init_eq]
  intro h
  have hmask : (0 : Byte) = 0xFF := h.masks.2
  exact absurd hmask (by decide)

/-- With the offsets of `arch_init`, on controllers just switched on. -/
theorem slave_unmasked : ¬Remapped 0x20 0x28 ((pic_init 0x20 0x28).foldl Pics.outb
    ⟨⟨.mask, 0, 0, 0, 0, 0⟩, ⟨.mask, 0, 0, 0, 0, 0⟩⟩) :=
  fun h => absurd h.masks.2 (by decide)

end Osdev2.I386
