import Osdev2.Efi.Elf
import Osdev2.Lib.Traced

/-!
# The kernel loader (`efi/main.c`)

`load_elf` over a 64-bit memory. What the firmware answers is a parameter
(`Boot`). The log (`Op`) has the reads of the file buffer and the writes, each
write with the pages allocated before it. `none` is a loop that never ends.
Pool memory and messages are not modelled: `FreePool` and `Print` change nothing.
-/

namespace Osdev2.Efi

open Osdev2.Lib

abbrev Status := BitVec 64

def EFI_ERROR (status : Status) : Bool := status.msb

def EFI_INVALID_PARAMETER : Status := 0x8000000000000002#64
def EFI_UNSUPPORTED : Status := 0x8000000000000003#64

inductive AllocateType where
  | AllocateAnyPages
  | AllocateAddress
  deriving DecidableEq

/-- Pages of 4096 bytes. -/
structure Block where
  addr : Addr
  pages : Nat

/-- What the firmware answers to the calls of `load_elf`. -/
structure Boot where
  /-- `AllocatePool` for the file information. -/
  infoPool : Status
  /-- `GetInfo`: the status and `FileSize`. -/
  getInfo : Status × BitVec 64
  /-- `AllocatePool` for the file buffer. -/
  dataPool : Status × Addr
  /-- `Read`: the status and the bytes read. -/
  read : Status × List Byte
  /-- `AllocatePages`, after the pages allocated so far. -/
  allocatePages : List Block → AllocateType → BitVec 64 → Addr → Status × Addr

inductive Op where
  /-- A read of the file buffer. -/
  | read (a : Addr) (n : Nat)
  /-- `SetMem` or `CopyMem`. -/
  | write (pages : List Block) (a : Addr) (n : Nat)
  /-- A relocation. -/
  | store (pages : List Block) (a : Addr)

structure Store where
  mem : Mem64
  /-- The pages allocated, the last ones first. -/
  pages : List Block

abbrev Load := Traced Store Status Op

/-! ## What the code is made of -/

/-- A field of a structure in the file buffer. -/
def load (p : Addr) (f : Field) : Load (BitVec 64) := fun s =>
  some (.ok (field s.mem p f), s, [.read (p + BitVec.ofNat 64 f.off) f.size])

def SetMem (a : Addr) (n : BitVec 64) (v : Byte) : Load Unit := fun s =>
  some (.ok (), { s with mem := setMem a n.toNat v s.mem }, [.write s.pages a n.toNat])

/-- `CopyMem` out of the file buffer. -/
def CopyMem (dest src : Addr) (n : BitVec 64) : Load Unit := fun s =>
  some (.ok (), { s with mem := copyMem dest src n.toNat s.mem },
    [.read src n.toNat, .write s.pages dest n.toNat])

def relocStore (a v : BitVec 64) : Load Unit := fun s =>
  some (.ok (), { s with mem := store64 s.mem a v }, [.store s.pages a])

/-- The loaded image is read through memory, not through the file buffer. -/
def memory : Load Mem64 := fun s => some (.ok s.mem, s, [])

def EFI_SIZE_TO_PAGES (a : BitVec 64) : BitVec 64 :=
  (a >>> 12) + (if a &&& 0xFFF#64 ≠ 0 then 1#64 else 0#64)

def AllocatePages (B : Boot) (type : AllocateType) (pages : BitVec 64) (addr : Addr) : Load Addr :=
  fun s =>
    let answer := B.allocatePages s.pages type pages addr
    if EFI_ERROR answer.1 then some (.error answer.1, s, [])
    else some (.ok answer.2, { s with pages := ⟨answer.2, pages.toNat⟩ :: s.pages }, [])

/-! ## The header -/

def expect (ehdr : Addr) (f : Field) (v : BitVec 64) (status : Status) : Load Unit := do
  if (← load ehdr f) = v then pure () else Traced.throw status

/-- The magic, the class and the type; the result is `is_pie`. -/
def check_header (ehdr : Addr) : Load Bool := do
  expect ehdr (e_ident 0) 0x7F#64 EFI_INVALID_PARAMETER
  expect ehdr (e_ident 1) 0x45#64 EFI_INVALID_PARAMETER
  expect ehdr (e_ident 2) 0x4C#64 EFI_INVALID_PARAMETER
  expect ehdr (e_ident 3) 0x46#64 EFI_INVALID_PARAMETER
  expect ehdr (e_ident 4) 2#64 EFI_UNSUPPORTED
  let type ← load ehdr e_type
  if type = ET_EXEC ∨ type = ET_DYN then pure (type = ET_DYN) else Traced.throw EFI_UNSUPPORTED

/-- `i * e_phentsize`, an `int`, as an offset. -/
def stride (i : Nat) (e_phentsize : BitVec 64) : BitVec 64 :=
  (BitVec.ofNat 32 (i * e_phentsize.toNat)).signExtend 64

/-- The loop over the program headers; `done` is its `break`. `e_phnum` has 16 bits,
so `i` does not wrap and 2^16 rounds are enough. -/
def eachPhdr {α : Type} (elf_data : Addr) (body : Addr → α → Load (ForInStep α)) :
    Nat → Nat → α → Load α
  | 0, _, _ => Traced.diverge
  | fuel + 1, i, a => do
    let phnum ← load elf_data e_phnum
    if i < phnum.toNat then do
      let phoff ← load elf_data e_phoff
      let phentsize ← load elf_data e_phentsize
      match ← body (elf_data + phoff + stride i phentsize) a with
      | .done a => pure a
      | .yield a => eachPhdr elf_data body fuel (i + 1) a
    else pure a

/-! ## The two passes -/

/-- `min_vaddr` and `max_vaddr`. -/
abbrev Range := Addr × Addr

def Range.extend (r : Range) (vaddr memsz : BitVec 64) : Range :=
  (if vaddr < r.1 then vaddr else r.1, if r.2 < vaddr + memsz then vaddr + memsz else r.2)

def measure (phdr : Addr) (r : Range) : Load (ForInStep Range) := do
  if (← load phdr p_type) = PT_LOAD then do
    let vaddr ← load phdr p_vaddr
    let memsz ← load phdr p_memsz
    pure (.yield (r.extend vaddr memsz))
  else pure (.yield r)

/-- The pages of a position-independent image, cleared; the result is `base_addr`. -/
def place_image (B : Boot) (is_pie : Bool) (r : Range) : Load Addr :=
  if is_pie then do
    let total_size := r.2 - r.1
    let addr ← AllocatePages B .AllocateAnyPages (EFI_SIZE_TO_PAGES total_size) 0
    SetMem addr total_size 0
    pure (addr - r.1)
  else pure 0

/-- The pages of one segment at its own address, cleared. -/
def claim_segment (B : Boot) (phdr dest : Addr) : Load Unit := do
  let memsz ← load phdr p_memsz
  let vaddr ← load phdr p_vaddr
  let _ ← AllocatePages B .AllocateAddress (EFI_SIZE_TO_PAGES memsz) vaddr
  let memsz ← load phdr p_memsz
  SetMem dest memsz 0

def copy_file (phdr dest src : Addr) : Load Unit := do
  let filesz ← load phdr p_filesz
  if 0 < filesz then CopyMem dest src filesz else pure ()

def clear_bss (phdr dest : Addr) : Load Unit := do
  let memsz ← load phdr p_memsz
  let filesz ← load phdr p_filesz
  if filesz < memsz then SetMem (dest + filesz) (memsz - filesz) 0 else pure ()

def load_segment (B : Boot) (elf_data : Addr) (is_pie : Bool) (base_addr phdr : Addr) :
    Unit → Load (ForInStep Unit) := fun _ => do
  if (← load phdr p_type) = PT_LOAD then do
    let vaddr ← load phdr p_vaddr
    let offset ← load phdr p_offset
    let dest := base_addr + vaddr
    (if is_pie then pure () else claim_segment B phdr dest)
    copy_file phdr dest (elf_data + offset)
    clear_bss phdr dest
    pure (.yield ())
  else pure (.yield ())

/-! ## Relocations -/

/-- The `PT_DYNAMIC` header's address in the image. -/
def find_dynamic (base_addr phdr : Addr) (_ : Addr) : Load (ForInStep Addr) := do
  if (← load phdr p_type) = PT_DYNAMIC then do
    let vaddr ← load phdr p_vaddr
    pure (.done (base_addr + vaddr))
  else pure (.yield 0)

structure RelaInfo where
  addr : BitVec 64
  size : BitVec 64
  ent : BitVec 64

/-- One entry of the dynamic section. -/
def RelaInfo.entry (r : RelaInfo) (tag v : BitVec 64) : RelaInfo :=
  if tag = DT_RELA then { r with addr := v }
  else if tag = DT_RELASZ then { r with size := v }
  else if tag = DT_RELAENT then { r with ent := v }
  else r

/-- The loop over the dynamic section. The pointer comes back to `dyn` after 2^60
entries. -/
def parse_dynamic (m : Mem64) : Nat → Addr → RelaInfo → Option RelaInfo
  | 0, _, _ => none
  | fuel + 1, d, r =>
    if field m d d_tag = DT_NULL then some r
    else parse_dynamic m fuel (d + 16#64) (r.entry (field m d d_tag) (field m d d_un))

def dynamic (dyn : Addr) : Load RelaInfo := fun s =>
  (parse_dynamic s.mem (2 ^ 60) dyn ⟨0, 0, 0⟩).map fun r => (.ok r, s, [])

/-- `rela[i]`. -/
def apply_rela (base_addr rela : Addr) (i : Nat) : Load Unit := do
  let m ← memory
  let r := rela + BitVec.ofNat 64 (24 * i)
  if field m r r_info &&& 0xFFFFFFFF#64 = R_AARCH64_RELATIVE then
    relocStore (base_addr + field m r r_offset) (base_addr + field m r r_addend)
  else pure ()

/-- The `n` entries from `i` on. -/
def apply_relas (base_addr rela : Addr) : Nat → Nat → Load Unit
  | 0, _ => pure ()
  | n + 1, i => do
    apply_rela base_addr rela i
    apply_relas base_addr rela n (i + 1)

def apply_dynamic (base_addr dyn : Addr) : Load Unit := do
  let r ← dynamic dyn
  if r.addr ≠ 0 ∧ r.size ≠ 0 ∧ r.ent ≠ 0 then
    apply_relas base_addr (base_addr + r.addr) (r.size.toNat / r.ent.toNat) 0
  else pure ()

def relocate (elf_data base_addr : Addr) : Load Unit := do
  let dyn ← eachPhdr elf_data (find_dynamic base_addr) (2 ^ 16) 0 0
  if dyn ≠ 0 then apply_dynamic base_addr dyn else pure ()

/-! ## `load_elf` -/

/-- `*entry_point` and `*base`. -/
structure Loaded where
  entry_point : Addr
  base : Addr
  deriving DecidableEq

/-- Both passes; the result is `is_pie` and `base_addr`. -/
def load_segments (B : Boot) (elf_data : Addr) : Load (Bool × Addr) := do
  let is_pie ← check_header elf_data
  let r ← eachPhdr elf_data measure (2 ^ 16) 0 (BitVec.allOnes 64, 0)
  let base_addr ← place_image B is_pie r
  eachPhdr elf_data (load_segment B elf_data is_pie base_addr) (2 ^ 16) 0 ()
  pure (is_pie, base_addr)

def load_image (B : Boot) (elf_data : Addr) : Load Loaded := do
  let (is_pie, base_addr) ← load_segments B elf_data
  (if is_pie then relocate elf_data base_addr else pure ())
  let entry ← load elf_data e_entry
  pure ⟨base_addr + entry, base_addr⟩

/-- The file is in its buffer. -/
def Boot.filled (B : Boot) (m : Mem64) : Store := ⟨placeBytes B.dataPool.2 B.read.2 m, []⟩

def load_elf (B : Boot) (m : Mem64) : Option (Except Status Loaded × Store × List Op) :=
  if EFI_ERROR B.infoPool then some (.error B.infoPool, ⟨m, []⟩, [])
  else if EFI_ERROR B.getInfo.1 then some (.error B.getInfo.1, ⟨m, []⟩, [])
  else if EFI_ERROR B.dataPool.1 then some (.error B.dataPool.1, ⟨m, []⟩, [])
  else if EFI_ERROR B.read.1 then some (.error B.read.1, ⟨m, []⟩, [])
  else load_image B B.dataPool.2 (B.filled m)

end Osdev2.Efi
