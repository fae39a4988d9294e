import Mathlib

/-!
# The serial port the loader finds (`efi/main.c`)

`find_uart` fills `serial_info_t` from the firmware's SPCR table, if there is
one. Its result starts as whatever the stack holds, and the path without a table
assigns every field but `model`.
-/

namespace Osdev2.Efi

/-- `serial_info_t`. -/
structure SerialInfo where
  base : BitVec 64
  baud : BitVec 32
  /-- 0 is unknown, 1 memory, 2 an I/O port. -/
  type : BitVec 8
  model : BitVec 16

/-- The fields of the SPCR table that are read. -/
structure Spcr where
  InterfaceType : BitVec 8
  /-- Of `BaseAddress`: 0 is system memory, 1 system I/O. -/
  AddressSpaceId : BitVec 8
  Address : BitVec 64
  BaudRate : BitVec 8

/-- On AArch64, where there is no COM1 to fall back to. `result` is the local before its first
assignment. -/
def find_uart (result : SerialInfo) (spcr : Option Spcr) : SerialInfo :=
  let result := { result with base := 0, baud := 0, type := 0 }
  match spcr with
  | some t =>
    let result := { result with base := t.Address }
    let result := { result with
      type := if t.AddressSpaceId = 0 then 1 else if t.AddressSpaceId = 1 then 2 else 0 }
    let result := { result with
      baud := if t.BaudRate = 3 then 9600 else if t.BaudRate = 4 then 19200
        else if t.BaudRate = 6 then 57600 else 115200 }
    { result with model := t.InterfaceType.setWidth 16 }
  | none => result

/-- The stack shows through exactly where there is no table. -/
theorem find_uart_agrees_iff (spcr : Option Spcr) :
    (∀ g g', find_uart g spcr = find_uart g' spcr) ↔ spcr ≠ none := by
  constructor
  · rintro h rfl
    have hmodel := congrArg SerialInfo.model (h ⟨0, 0, 0, 0⟩ ⟨0, 0, 0, 3⟩)
    exact absurd hmodel (by decide)
  · intro h g g'
    cases spcr with
    | none => exact absurd rfl h
    | some t => rfl

end Osdev2.Efi
