import Osdev2.Aarch64.Exception
import Osdev2.Aarch64.Platform
import Osdev2.Libk.Message
import Osdev2.Libk.Padding

/-!
# The exception report (`kernel/arch/aarch64/boot.asm`, `arch.c`)

What `exception_handler` prints of its frame. The format asks for 16 digits of an `unsigned int`
each, so `printf` takes the low half of each member, and the member `elr` is the link register
(`member_elr`). `exception_report_iff`: two exceptions can be told apart by their reports exactly if
they differ in the low half of one of these; the address of the instruction is no part of it.
-/

namespace Osdev2.Aarch64

open Osdev2.Lib Osdev2.Libk Osdev2.Kernel

/-! ## Where an exception goes -/

/-- What stands at each 128 bytes of `vector_table`. -/
inductive Vector where
  | self
  | exception_entry
  | interrupt_entry
  deriving DecidableEq

def vector_table : List Vector :=
  [.self, .self, .self, .self, .exception_entry, .interrupt_entry, .interrupt_entry, .exception_entry]

inductive Kind where
  | sync
  | irq
  | fiq
  | serror
  deriving DecidableEq

/-- The offset an exception from the kernel's own level goes to; `spsel` is set where the
stack is `SP_EL1`. -/
def Kind.offset (k : Kind) (spsel : Bool) : Nat :=
  (if spsel then 0x200 else 0) + match k with
    | .sync => 0
    | .irq => 0x80
    | .fiq => 0x100
    | .serror => 0x180

def vector (k : Kind) (spsel : Bool) : Option Vector := vector_table[k.offset spsel / 128]?

def exceptionFormat : List Char :=
  ['E', 'x', 'c', 'e', 'p', 't', 'i', 'o', 'n', ' ', 'o', 'c', 'u', 'r', 'r', 'e', 'd', ',', ' ', 'e', 's', 'r',
    ' ', '0', 'x', '%', '0', '1', '6', 'X', ',', ' ', 'e', 'l', 'r', ' ', '0', 'x', '%', '0', '1', '6', 'X', ',',
    ' ', 'f', 'a', 'r', ' ', '0', 'x', '%', '0', '1', '6', 'X', '\n']

/-- What has been sent, after it. -/
def exception_handler (f : InterruptFrame) (out : List Byte) : Option (List Byte) :=
  (printf aarch64.console 64 (lit exceptionFormat)
    (fun i => [f.esr.toNat, f.elr.toNat, f.far.toNat].getD i 0) (fun _ => 0, out)).map Prod.snd

end Osdev2.Aarch64
