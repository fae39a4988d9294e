import Osdev2.I386.Vga
import Osdev2.Kernel.Machine

/-!
# The i386 target

The platform of `arch/i386`: the VGA console (`vga.c`) and the key bits of
`kbd.h`. The drivers' variables are those of `vga.c` and `kbd.c`; each is one
byte at an address of its own (`DriverAddresses`), where a store reaches it. The
key tables have addresses too, for the reads past their ends.
`lowLayout` is one placement of the shell's variables.
-/

namespace Osdev2.I386

open Osdev2.Lib Osdev2.Kernel

def KBD_SHIFT : Byte := 0x01#8
def KBD_CAPS : Byte := 0x02#8
def KBD_BCKSP : Byte := 0x04#8
def KBD_UP : Byte := 0x10#8
def KBD_DOWN : Byte := 0x20#8
def KBD_LEFT : Byte := 0x40#8
def KBD_RIGHT : Byte := 0x80#8

structure Drivers where
  tx : Byte
  ty : Byte
  crtc : BitVec 16
  kstate : Byte
  extended : Byte

structure DriverAddresses where
  tx : Nat
  ty : Nat
  kstate : Nat
  extended : Nat
  /-- The key tables. -/
  keymap : Nat
  keymap_shift : Nat

/-- The console's view of memory and the drivers. -/
def vgaOf (t : Mem × Drivers) : Vga := ⟨t.1, t.2.tx, t.2.ty, t.2.crtc⟩

def ofVga (d : Drivers) (v : Vga) : Mem × Drivers :=
  (v.mem, { d with tx := v.tx, ty := v.ty, crtc := v.crtc })

def storeDrivers (A : DriverAddresses) (a : Nat) (v : Byte) (d : Drivers) : Drivers :=
  { tx := if a = A.tx then v else d.tx
    ty := if a = A.ty then v else d.ty
    crtc := d.crtc
    kstate := if a = A.kstate then v else d.kstate
    extended := if a = A.extended then v else d.extended }

def i386 (A : DriverAddresses) : Platform where
  W := 32
  wide := Nat.le_refl 32
  KBD_BCKSP := KBD_BCKSP
  KBD_UP := KBD_UP
  KBD_DOWN := KBD_DOWN
  Dev := Drivers
  putc c t := ofVga t.2 (putc c (vgaOf t))
  setpos_x x t := ofVga t.2 (setpos_x x (vgaOf t))
  clrline t := ofVga t.2 (clrline (vgaOf t))
  storeDev := storeDrivers A
  window := window
  putc_frame c t _ ha := putc_frame c (vgaOf t) ha
  setpos_x_frame x t a _ := by
    simp only [ofVga, setpos_x]
    split <;> rfl
  clrline_frame t _ ha := clrline_frame (vgaOf t) ha

def lowAddresses : Addresses where
  shellbuf := 0x12000
  shellhist := 0x20000
  shellptr_hist := 0x12100
  shellptr := 0x12200
  histptr := 0x12201

def lowDrivers : DriverAddresses := ⟨0x12210, 0x12211, 0x12212, 0x12213, 0x11000, 0x11100⟩

/-- The variables below the VGA window. -/
def lowLayout : Layout (i386 lowDrivers) where
  toAddresses := lowAddresses
  inj x y h := by
    cases x <;> cases y <;> simp only [Addresses.addr, lowAddresses] at h
    case shellbuf.shellbuf i j => rw [BitVec.eq_of_toNat_eq (x := i) (y := j) (by omega)]
    case shellhist.shellhist r i r' j =>
      rw [BitVec.eq_of_toNat_eq (x := i) (y := j) (by omega),
        BitVec.eq_of_toNat_eq (x := r) (y := r') (by omega)]
    case shellptr_hist.shellptr_hist r r' =>
      rw [BitVec.eq_of_toNat_eq (x := r) (y := r') (by omega)]
    all_goals first | rfl | omega
  mapped x := by
    cases x <;> simp only [Addresses.addr, lowAddresses, i386] <;> omega
  outside x := by
    cases x <;> simp only [Addresses.addr, lowAddresses, i386, window, VGA_MEM] <;> omega
  nonnull := by decide
  room := by simp only [lowAddresses, i386]; omega

/-- Memory and variables all zero. -/
def cleared : Machine (i386 lowDrivers) where
  mem _ := 0
  dev := ⟨0, 0, 0, 0, 0⟩
  olds := 0
  trace := []

end Osdev2.I386
