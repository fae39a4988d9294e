import Osdev2.Lib.Words

/-!
# ELF64

The fields of the ELF64 structures the loader reads, by offset and size, and the
constants it compares them with. `field m p f` reads a field of the structure at
`p`.
-/

namespace Osdev2.Efi

open Osdev2.Lib

abbrev Addr := BitVec 64

/-- A field of a structure. -/
structure Field where
  off : Nat
  size : Nat

def field (m : Mem64) (p : Addr) (f : Field) : BitVec 64 :=
  BitVec.ofNat 64 (loadLE m (p + BitVec.ofNat 64 f.off) f.size)

theorem field_congr {m m' : Mem64} {p : Addr} {f : Field}
    (h : ∀ k < f.size, m (p + BitVec.ofNat 64 (f.off + k)) = m' (p + BitVec.ofNat 64 (f.off + k))) :
    field m p f = field m' p f := by
  rw [field, field]
  congr 1
  refine loadLE_congr fun k hk => ?_
  rw [BitVec.add_assoc, ← BitVec.ofNat_add]
  exact h k hk

/-! ## `Elf64_Ehdr` -/

def e_ident (i : Nat) : Field := ⟨i, 1⟩
def e_type : Field := ⟨16, 2⟩
def e_entry : Field := ⟨24, 8⟩
def e_phoff : Field := ⟨32, 8⟩
def e_phentsize : Field := ⟨54, 2⟩
def e_phnum : Field := ⟨56, 2⟩

def ET_EXEC : BitVec 64 := 2#64
def ET_DYN : BitVec 64 := 3#64

/-! ## `Elf64_Phdr` -/

def p_type : Field := ⟨0, 4⟩
def p_offset : Field := ⟨8, 8⟩
def p_vaddr : Field := ⟨16, 8⟩
def p_filesz : Field := ⟨32, 8⟩
def p_memsz : Field := ⟨40, 8⟩

def PT_LOAD : BitVec 64 := 1#64
def PT_DYNAMIC : BitVec 64 := 2#64

/-! ## `Elf64_Dyn` and `Elf64_Rela` -/

def d_tag : Field := ⟨0, 8⟩
def d_un : Field := ⟨8, 8⟩

def DT_NULL : BitVec 64 := 0#64
def DT_RELA : BitVec 64 := 7#64
def DT_RELASZ : BitVec 64 := 8#64
def DT_RELAENT : BitVec 64 := 9#64

def r_offset : Field := ⟨0, 8⟩
def r_info : Field := ⟨8, 8⟩
def r_addend : Field := ⟨16, 8⟩

def R_AARCH64_RELATIVE : BitVec 64 := 1027#64

end Osdev2.Efi
