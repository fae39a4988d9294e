import Osdev2.I386.Platform

/-!
# The AArch64 target

The platform of `arch/aarch64`, with a serial port that takes every character: what is
sent is all there is of the console. The position is not kept, and a line not cleared.
-/

namespace Osdev2.Aarch64

open Osdev2.Lib Osdev2.Kernel

def KBD_BCKSP : Byte := 0x01#8
def KBD_UP : Byte := 0x10#8
def KBD_DOWN : Byte := 0x20#8

def aarch64 : Platform where
  W := 64
  wide := by decide
  KBD_BCKSP := KBD_BCKSP
  KBD_UP := KBD_UP
  KBD_DOWN := KBD_DOWN
  Dev := List Byte
  putc c t := (t.1, t.2 ++ [c])
  setpos_x _ t := t
  clrline t := t
  storeDev _ _ d := d
  window _ := False
  putc_frame _ _ _ _ := rfl
  setpos_x_frame _ _ _ _ := rfl
  clrline_frame _ _ _ := rfl

/-- The shell's variables at the same addresses as in the i386's. -/
def lowLayout : Layout aarch64 where
  toAddresses := I386.lowAddresses
  inj := I386.lowLayout.inj
  mapped x := Nat.lt_trans (I386.lowLayout.mapped x) (by decide)
  outside _ h := h
  nonnull := I386.lowLayout.nonnull
  room := by simp only [I386.lowAddresses, aarch64]; omega

end Osdev2.Aarch64
