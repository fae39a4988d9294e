import Osdev2.Efi.Elf

/-!
# The ACPI tables (`efi/acpi.c`)

`FindAcpiTableBySignature` searches the XSDT or the RSDT for the table that carries a
signature. Both loops are `search`, the one over entries of 8 bytes and the other of 4;
it logs the `Entry[i]` it reads. `root` is the table that is searched.

`root_tables_agree`: where both tables list the same addresses, the search finds the
first that carries the signature, whichever of the tables it uses.
`reads_bounded_iff`: it stays inside the table exactly if the table's `Length` is not
below the size of its header.
-/

namespace Osdev2.Efi

open Osdev2.Lib

/-! ## Comparing memory -/

/-- gnu-efi's: the difference of the first bytes that differ, or 0. -/
def CompareMem (d s : CStr) : Nat → Int
  | 0 => 0
  | n + 1 =>
    if d 0 = s 0 then CompareMem (fun i => d (i + 1)) (fun i => s (i + 1)) n
    else (d 0).toNat - (s 0).toNat

theorem compareMem_eq_zero {d s : CStr} {n : Nat} :
    CompareMem d s n = 0 ↔ ∀ i < n, d i = s i := by
  induction n generalizing d s with
  | zero => exact ⟨fun _ i hi => absurd hi (Nat.not_lt_zero i), fun _ => rfl⟩
  | succ n ih =>
    rw [CompareMem]
    split
    · rename_i h0
      rw [ih]
      constructor
      · intro h i hi
        cases i with
        | zero => exact h0
        | succ i => exact h i (Nat.lt_of_succ_lt_succ hi)
      · exact fun h i hi => h (i + 1) (Nat.succ_lt_succ hi)
    · rename_i h0
      constructor
      · intro h
        exact absurd (BitVec.eq_of_toNat_eq (by omega)) h0
      · exact fun h => absurd (h 0 (Nat.succ_pos n)) h0

/-- The bytes from `p` on. -/
def bytesAt (m : Mem64) (p : Addr) : CStr := fun i => m (p + BitVec.ofNat 64 i)

/-! ## `FindAcpiTable` -/

/-- Of `EFI_SYSTEM_TABLE`. -/
structure SystemTable where
  NumberOfTableEntries : BitVec 64
  ConfigurationTable : Addr

/-- Of `EFI_CONFIGURATION_TABLE`, after the 16 bytes of `VendorGuid`. -/
def VendorTable : Field := ⟨16, 8⟩

/-- One of the two loops, over the `n` entries from `i` on. -/
def vendorTable (m : Mem64) (ConfigTable : Addr) (Guid : CStr) : Nat → Nat → Option Addr
  | 0, _ => none
  | n + 1, i =>
    let entry := ConfigTable + BitVec.ofNat 64 (24 * i)
    if CompareMem (bytesAt m entry) Guid 16 = 0 then some (field m entry VendorTable)
    else vendorTable m ConfigTable Guid n (i + 1)

/-- gnu-efi's two constants. -/
structure Guids where
  Acpi20TableGuid : CStr
  Acpi10TableGuid : CStr

def FindAcpiTable (G : Guids) (m : Mem64) (t : SystemTable) : Addr :=
  match vendorTable m t.ConfigurationTable G.Acpi20TableGuid t.NumberOfTableEntries.toNat 0 with
  | some p => p
  | none =>
    match vendorTable m t.ConfigurationTable G.Acpi10TableGuid t.NumberOfTableEntries.toNat 0 with
    | some p => p
    | none => 0

/-! ## `FindAcpiTableBySignature` -/

/-- Of `ACPI_RSDP_1_0` and `ACPI_RSDP_2_0`, after the 8 bytes of `Signature`. -/
def Revision : Field := ⟨15, 1⟩
def RsdtAddress : Field := ⟨16, 4⟩
def XsdtAddress : Field := ⟨24, 8⟩

/-- Of `ACPI_TABLE_HEADER`, after the 4 bytes of `Signature`. -/
def Length : Field := ⟨4, 4⟩

/-- `sizeof(ACPI_TABLE_HEADER)`. -/
def HEADER_SIZE : Nat := 36

/-- `Entry[i]` of a table with entries of `size` bytes. -/
def Entry (m : Mem64) (table : Addr) (size i : Nat) : Addr := field m table ⟨HEADER_SIZE + size * i, size⟩

/-- The subtraction is of 64-bit numbers, and wraps. -/
def Entries (m : Mem64) (table : Addr) (size : Nat) : BitVec 64 :=
  (field m table Length - BitVec.ofNat 64 HEADER_SIZE) / BitVec.ofNat 64 size

/-- An iteration, which reads `Entry[i]`. -/
structure EntryRead where
  table : Addr
  size : Nat
  i : Nat
  deriving DecidableEq

/-- The header found or NULL, and the iterations. -/
abbrev Searched := Addr × List EntryRead

/-- The loop over the `n` entries from `i` on. -/
def search (m : Mem64) (Signature : CStr) (table : Addr) (size : Nat) : Nat → Nat → Searched
  | 0, _ => (0, [])
  | n + 1, i =>
    let Header := Entry m table size i
    let rest := search m Signature table size n (i + 1)
    if Header = 0 then (rest.1, ⟨table, size, i⟩ :: rest.2)
    else if CompareMem (bytesAt m Header) Signature 4 = 0 then (Header, [⟨table, size, i⟩])
    else (rest.1, ⟨table, size, i⟩ :: rest.2)

/-- From the label of the same name on. -/
def use_rsdt (m : Mem64) (Rsdp : Addr) (Signature : CStr) : Searched :=
  let Rsdt := field m Rsdp RsdtAddress
  if Rsdt = 0 ∨ Rsdt < 0x1000#64 then (0, [])
  else if CompareMem (bytesAt m Rsdt) (lit ['R', 'S', 'D', 'T']) 4 ≠ 0 then (0, [])
  else search m Signature Rsdt 4 (Entries m Rsdt 4).toNat 0

def RSD_PTR : CStr := lit ['R', 'S', 'D', ' ', 'P', 'T', 'R', ' ']

def FindAcpiTableBySignature (G : Guids) (m : Mem64) (t : SystemTable) (Signature : CStr) : Searched :=
  let Rsdp := FindAcpiTable G m t
  if Rsdp = 0 then (0, [])
  else if CompareMem (bytesAt m Rsdp) RSD_PTR 8 ≠ 0 then (0, [])
  else if 2#64 ≤ field m Rsdp Revision then
    let Xsdt := field m Rsdp XsdtAddress
    if Xsdt = 0 ∨ Xsdt < 0x1000#64 then use_rsdt m Rsdp Signature
    else if CompareMem (bytesAt m Xsdt) (lit ['X', 'S', 'D', 'T']) 4 ≠ 0 then use_rsdt m Rsdp Signature
    else search m Signature Xsdt 8 (Entries m Xsdt 8).toNat 0
  else use_rsdt m Rsdp Signature

/-! ## The table that is searched -/

/-- The 4 bytes at `p` are the signature. -/
def Carries (m : Mem64) (Signature : CStr) (p : Addr) : Prop := ∀ k < 4, bytesAt m p k = Signature k

instance (m : Mem64) (Signature : CStr) (p : Addr) : Decidable (Carries m Signature p) :=
  inferInstanceAs (Decidable (∀ k < 4, _ = _))

/-- A root table that passes the checks. -/
def Usable (m : Mem64) (name : List Char) (table : Addr) : Prop :=
  0x1000#64 ≤ table ∧ Carries m (lit name) table

instance (m : Mem64) (name : List Char) (table : Addr) : Decidable (Usable m name table) :=
  inferInstanceAs (Decidable (_ ∧ _))

/-- The root table and the size of its entries, from an RSDP. -/
def rootOf (m : Mem64) (Rsdp : Addr) : Option (Addr × Nat) :=
  if 2#64 ≤ field m Rsdp Revision ∧ Usable m ['X', 'S', 'D', 'T'] (field m Rsdp XsdtAddress) then
    some (field m Rsdp XsdtAddress, 8)
  else if Usable m ['R', 'S', 'D', 'T'] (field m Rsdp RsdtAddress) then
    some (field m Rsdp RsdtAddress, 4)
  else none

/-- There is an RSDP with its signature. -/
def ValidRsdp (G : Guids) (m : Mem64) (t : SystemTable) : Prop :=
  FindAcpiTable G m t ≠ 0 ∧ ∀ k < 8, bytesAt m (FindAcpiTable G m t) k = RSD_PTR k

instance (G : Guids) (m : Mem64) (t : SystemTable) : Decidable (ValidRsdp G m t) :=
  inferInstanceAs (Decidable (_ ∧ ∀ k < 8, _ = _))

/-- The root table that is searched, if any. -/
def root (G : Guids) (m : Mem64) (t : SystemTable) : Option (Addr × Nat) :=
  if ValidRsdp G m t then rootOf m (FindAcpiTable G m t) else none

/-- A whole table searched. -/
def searchTable (m : Mem64) (Signature : CStr) : Option (Addr × Nat) → Searched
  | none => (0, [])
  | some (table, size) => search m Signature table size (Entries m table size).toNat 0

theorem rejected_or {m : Mem64} {name : List Char} {table : Addr} :
    ¬Usable m name table ↔
      (table = 0 ∨ table < 0x1000#64) ∨ CompareMem (bytesAt m table) (lit name) 4 ≠ 0 := by
  have hz : table = 0 → table < 0x1000#64 := by
    rintro rfl
    decide
  rw [Usable, Carries, not_and_or, BitVec.not_le, Ne, compareMem_eq_zero, or_iff_right_of_imp hz]

theorem use_rsdt_eq (m : Mem64) (Rsdp : Addr) (Signature : CStr) : use_rsdt m Rsdp Signature =
    searchTable m Signature (if Usable m ['R', 'S', 'D', 'T'] (field m Rsdp RsdtAddress) then
      some (field m Rsdp RsdtAddress, 4) else none) := by
  rw [use_rsdt]
  by_cases hu : Usable m ['R', 'S', 'D', 'T'] (field m Rsdp RsdtAddress)
  · obtain ⟨ha, hs⟩ := not_or.mp (mt rejected_or.mpr (not_not.mpr hu))
    rw [if_neg ha, if_neg hs, if_pos hu]
    rfl
  · rw [if_neg hu]
    rcases rejected_or.mp hu with ha | hs
    · rw [if_pos ha]
      rfl
    · rw [if_pos hs, ite_self]
      rfl

theorem FindAcpiTableBySignature_eq (G : Guids) (m : Mem64) (t : SystemTable) (Signature : CStr) :
    FindAcpiTableBySignature G m t Signature = searchTable m Signature (root G m t) := by
  rw [FindAcpiTableBySignature, root]
  by_cases hv : ValidRsdp G m t
  · rw [if_pos hv, if_neg hv.1, if_neg (not_not.mpr (compareMem_eq_zero.mpr hv.2)), rootOf]
    generalize FindAcpiTable G m t = Rsdp
    simp only [use_rsdt_eq]
    by_cases hr : 2#64 ≤ field m Rsdp Revision
    · rw [if_pos hr]
      by_cases hu : Usable m ['X', 'S', 'D', 'T'] (field m Rsdp XsdtAddress)
      · obtain ⟨ha, hx⟩ := not_or.mp (mt rejected_or.mpr (not_not.mpr hu))
        rw [if_neg ha, if_neg hx, if_pos ⟨hr, hu⟩]
        rfl
      · have hx : ¬(2#64 ≤ field m Rsdp Revision ∧
            Usable m ['X', 'S', 'D', 'T'] (field m Rsdp XsdtAddress)) := fun h => hu h.2
        rw [if_neg hx]
        rcases rejected_or.mp hu with ha | hx
        · rw [if_pos ha]
        · rw [if_pos hx, ite_self]
    · have hx : ¬(2#64 ≤ field m Rsdp Revision ∧
          Usable m ['X', 'S', 'D', 'T'] (field m Rsdp XsdtAddress)) := fun h => hr h.1
      rw [if_neg hr, if_neg hx]
  · rw [if_neg hv]
    by_cases h0 : FindAcpiTable G m t = 0
    · rw [if_pos h0]
      rfl
    · rw [if_neg h0, if_pos fun hs => hv ⟨h0, compareMem_eq_zero.mp hs⟩]
      rfl

/-! ## The loop -/

section Search

variable {m : Mem64} {Signature : CStr} {table : Addr} {size : Nat}

theorem search_reads {n i : Nat} : ∀ r ∈ (search m Signature table size n i).2,
    r.table = table ∧ r.size = size ∧ r.i < i + n := by
  induction n generalizing i with
  | zero => exact fun r hr => absurd hr List.not_mem_nil
  | succ n ih =>
    have hrest : ∀ r ∈ (⟨table, size, i⟩ : EntryRead) :: (search m Signature table size n (i + 1)).2,
        r.table = table ∧ r.size = size ∧ r.i < i + (n + 1) := by
      intro r hr
      rcases List.mem_cons.mp hr with rfl | hr
      · exact ⟨rfl, rfl, by simp⟩
      · obtain ⟨ht, hs, hi⟩ := ih r hr
        exact ⟨ht, hs, by omega⟩
    rw [search]
    split
    · exact hrest
    · split
      · intro r hr
        cases List.mem_singleton.mp hr
        exact ⟨rfl, rfl, by simp⟩
      · exact hrest

theorem search_iterations {n i : Nat} : (search m Signature table size n i).2.length ≤ n := by
  induction n generalizing i with
  | zero => exact Nat.le_refl 0
  | succ n ih =>
    rw [search]
    split
    · exact Nat.succ_le_succ ih
    · split
      · exact Nat.succ_le_succ (Nat.zero_le n)
      · exact Nat.succ_le_succ ih

theorem search_first {n i : Nat} (hn : 0 < n) :
    ⟨table, size, i⟩ ∈ (search m Signature table size n i).2 := by
  obtain ⟨n, rfl⟩ := Nat.exists_eq_succ_of_ne_zero hn.ne'
  rw [search]
  split
  · exact List.mem_cons_self
  · split
    · exact List.mem_cons_self
    · exact List.mem_cons_self

/-- The header of the first entry that is not zero and carries the signature. -/
theorem search_first_carrying {L : List Addr} : ∀ {i : Nat},
    (∀ j (h : j < L.length), Entry m table size (i + j) = L[j]) →
    (search m Signature table size L.length i).1 =
      (L.find? fun a => decide (a ≠ 0 ∧ Carries m Signature a)).getD 0 := by
  induction L with
  | nil => exact fun _ => rfl
  | cons a L ih =>
    intro i h
    have ha : Entry m table size i = a := h 0 (Nat.succ_pos _)
    have hrest : (search m Signature table size L.length (i + 1)).1 =
        (L.find? fun a => decide (a ≠ 0 ∧ Carries m Signature a)).getD 0 :=
      ih fun j hj => by
        rw [Nat.add_assoc, Nat.add_comm 1]
        exact h (j + 1) (Nat.succ_lt_succ hj)
    rw [List.length_cons, search, ha]
    by_cases h0 : a = 0
    · rw [if_pos h0, hrest, List.find?_cons_of_neg (by simp [h0])]
    · rw [if_neg h0]
      by_cases hc : Carries m Signature a
      · rw [if_pos (compareMem_eq_zero.mpr hc), List.find?_cons_of_pos (by simpa using ⟨h0, hc⟩)]
        rfl
      · rw [if_neg (mt compareMem_eq_zero.mp hc), hrest, List.find?_cons_of_neg (by simp [hc])]

end Search

/-! ## Bounds -/

theorem length_lt (m : Mem64) (table : Addr) : (field m table Length).toNat < 2 ^ 32 := by
  have h := loadLE_lt m (table + BitVec.ofNat 64 Length.off) 4
  rw [field, BitVec.toNat_ofNat, show Length.size = 4 from rfl]
  omega

theorem entries_of_le {m : Mem64} {table : Addr} {size : Nat} (hs : size < 2 ^ 64)
    (h : HEADER_SIZE ≤ (field m table Length).toNat) :
    (Entries m table size).toNat = ((field m table Length).toNat - HEADER_SIZE) / size := by
  have hl := length_lt m table
  rw [HEADER_SIZE] at h
  rw [Entries, BitVec.toNat_udiv, BitVec.toNat_sub, BitVec.toNat_ofNat, BitVec.toNat_ofNat, HEADER_SIZE,
    Nat.mod_eq_of_lt hs]
  congr 1
  omega

theorem entries_pos {m : Mem64} {table : Addr} {size : Nat} (h0 : 0 < size) (hs : size ≤ 8)
    (h : (field m table Length).toNat < HEADER_SIZE) : 0 < (Entries m table size).toNat := by
  rw [HEADER_SIZE] at h
  rw [Entries, BitVec.toNat_udiv, BitVec.toNat_sub, BitVec.toNat_ofNat, BitVec.toNat_ofNat, HEADER_SIZE,
    Nat.mod_eq_of_lt (by omega : size < 2 ^ 64)]
  exact Nat.div_pos (by omega) h0

theorem root_size {G : Guids} {m : Mem64} {t : SystemTable} {table : Addr} {size : Nat}
    (h : root G m t = some (table, size)) : size = 8 ∨ size = 4 := by
  unfold root rootOf at h
  split at h
  · split at h
    · exact .inl (Prod.mk.inj (Option.some.inj h)).2.symm
    · split at h
      · exact .inr (Prod.mk.inj (Option.some.inj h)).2.symm
      · exact absurd h (Option.some_ne_none _).symm
  · exact absurd h (Option.some_ne_none _).symm

/-- The reads are of entries inside the `Length` bytes of the table, and there are at most
`Length / 4` of them. -/
structure Bounded (m : Mem64) (reads : List EntryRead) : Prop where
  inside : ∀ r ∈ reads, HEADER_SIZE + r.size * (r.i + 1) ≤ (field m r.table Length).toNat
  iterations : ∀ r ∈ reads, reads.length ≤ (field m r.table Length).toNat / 4

/-- **Bounds.** The search stays inside the table, and ends in time, exactly if the root table it
uses, if any, is at least a header long. -/
theorem reads_bounded_iff (G : Guids) (m : Mem64) (t : SystemTable) (Signature : CStr) :
    Bounded m (FindAcpiTableBySignature G m t Signature).2 ↔
      ∀ r ∈ root G m t, HEADER_SIZE ≤ (field m r.1 Length).toNat := by
  rw [FindAcpiTableBySignature_eq]
  cases hr : root G m t with
  | none =>
    have hb : Bounded m (searchTable m Signature none).2 :=
      ⟨fun r h => absurd h List.not_mem_nil, fun r h => absurd h List.not_mem_nil⟩
    exact iff_of_true hb fun r h => by cases h
  | some r =>
    obtain ⟨table, size⟩ := r
    have hsize := root_size hr
    rw [searchTable]
    constructor
    · rintro hb r ⟨⟩
      by_contra hlt
      -- then the first iteration is made, and its entry is beyond the header
      have hpos : 0 < (Entries m table size).toNat := entries_pos (by omega) (by omega) (not_le.mp hlt)
      have hfirst := hb.inside _ (search_first hpos)
      exact hlt (by dsimp only at hfirst ⊢; omega)
    · intro h
      have hle : HEADER_SIZE ≤ (field m table Length).toNat := h (table, size) rfl
      have hn := entries_of_le (by omega : size < 2 ^ 64) hle
      refine ⟨fun r hr => ?_, fun r hr => ?_⟩
      · obtain ⟨ht, hs, hi⟩ := search_reads r hr
        have hdiv := Nat.mul_div_le ((field m table Length).toNat - HEADER_SIZE) size
        have hmul := Nat.mul_le_mul_left size
          (show r.i + 1 ≤ _ by omega : r.i + 1 ≤ (Entries m table size).toNat)
        rw [hn] at hmul
        rw [ht, hs]
        omega
      · have hlen : (search m Signature table size (Entries m table size).toNat 0).2.length ≤
          (Entries m table size).toNat := search_iterations
        rw [hn] at hlen
        rw [(search_reads r hr).1, hn]
        apply hlen.trans
        rcases hsize with rfl | rfl
        · omega
        · omega

/-- gnu-efi's values of the two constants. -/
def guids : Guids where
  Acpi20TableGuid i := [0x71, 0xe8, 0x68, 0x88, 0xf1, 0xe4, 0xd3, 0x11, 0xbc, 0x22, 0x00, 0x80, 0xc7, 0x3c,
    0x88, 0x81].getD i 0
  Acpi10TableGuid i := [0x30, 0x2d, 0x9d, 0xeb, 0x88, 0x2d, 0xd3, 0x11, 0x9a, 0x16, 0x00, 0x90, 0x27, 0x3f,
    0xc1, 0x4d].getD i 0

/-- `m` with the bytes at `p`. -/
def putBytes (p : Nat) (bytes : List Byte) (m : Mem64) : Mem64 := fun a =>
  if p ≤ a.toNat ∧ a.toNat < p + bytes.length then bytes.getD (a.toNat - p) 0 else m a

def acpiSystem : SystemTable := ⟨1, 0x100⟩

/-- An RSDP of a revision at 0x200, with an RSDT at 0x1000 and an XSDT at 0x2000, both with one
entry after a hole and of a `Length`: the table at 0x3000, with signature SPCR. -/
def acpiFirmware (revision rsdtLength : Byte) : Mem64 :=
  putBytes 0x100 ((List.range 16).map guids.Acpi20TableGuid ++ [0, 2]) <|
  putBytes 0x200 ((List.range 8).map RSD_PTR) <| putBytes 0x20f [revision, 0, 0x10] <|
  putBytes 0x218 [0, 0x20] <|
  putBytes 0x1000 [ch 'R', ch 'S', ch 'D', ch 'T', rsdtLength] <| putBytes 0x1028 [0, 0x30] <|
  putBytes 0x2000 [ch 'X', ch 'S', ch 'D', ch 'T', 52] <| putBytes 0x202c [0, 0x30] <|
  putBytes 0x3000 [ch 'S', ch 'P', ch 'C', ch 'R'] fun _ => 0

def SPCR : CStr := lit ['S', 'P', 'C', 'R']

/-- An RSDT with a `Length` of 0. -/
theorem reads_bounded_not :
    ¬Bounded (acpiFirmware 0 0) (FindAcpiTableBySignature guids (acpiFirmware 0 0) acpiSystem SPCR).2 := by
  have hroot : root guids (acpiFirmware 0 0) acpiSystem = some (0x1000, 4) := by decide +kernel
  have hlen : (field (acpiFirmware 0 0) 0x1000 Length).toNat = 0 := by decide +kernel
  intro hb
  rw [FindAcpiTableBySignature_eq, hroot] at hb
  have hpos : 0 < (Entries (acpiFirmware 0 0) 0x1000 4).toNat :=
    entries_pos (by decide) (by decide) (by rw [hlen]; decide)
  have hfirst := hb.inside _ (search_first hpos)
  exact absurd (hlen ▸ hfirst) (by decide)

/-! ## The two root tables -/

/-- A usable root table that lists the addresses `L`. -/
structure Lists (m : Mem64) (name : List Char) (table : Addr) (size : Nat) (L : List (BitVec 32)) : Prop where
  usable : Usable m name table
  header : HEADER_SIZE ≤ (field m table Length).toNat
  entries : ((field m table Length).toNat - HEADER_SIZE) / size = L.length
  entry : ∀ i (h : i < L.length), Entry m table size i = L[i].setWidth 64

/-- Which of the root tables is searched, both listing `L`. -/
inductive Path (m : Mem64) (Rsdp : Addr) (L : List (BitVec 32)) : Prop where
  | xsdt (revision : 2#64 ≤ field m Rsdp Revision)
      (lists : Lists m ['X', 'S', 'D', 'T'] (field m Rsdp XsdtAddress) 8 L)
  | rejected (revision : 2#64 ≤ field m Rsdp Revision)
      (rejected : ¬Usable m ['X', 'S', 'D', 'T'] (field m Rsdp XsdtAddress))
  | old (revision : field m Rsdp Revision < 2#64)

/-- Firmware whose root tables list `L`. -/
structure RootTables (G : Guids) (m : Mem64) (t : SystemTable) (L : List (BitVec 32)) : Prop where
  rsdp : ValidRsdp G m t
  rsdt : Lists m ['R', 'S', 'D', 'T'] (field m (FindAcpiTable G m t) RsdtAddress) 4 L
  path : Path m (FindAcpiTable G m t) L

/-- The first address of `L` that is not zero and whose header carries the signature, or NULL. -/
def firstCarrying (m : Mem64) (Signature : CStr) (L : List (BitVec 32)) : Addr :=
  ((L.map fun a => a.setWidth 64).find? fun a => decide (a ≠ 0 ∧ Carries m Signature a)).getD 0

theorem firstCarrying_congr {m m' : Mem64} {Signature : CStr} {L : List (BitVec 32)}
    (h : ∀ a ∈ L, ∀ k < 4, bytesAt m' (a.setWidth 64) k = bytesAt m (a.setWidth 64) k) :
    firstCarrying m' Signature L = firstCarrying m Signature L := by
  induction L with
  | nil => rfl
  | cons a L ih =>
    have hc : Carries m' Signature (a.setWidth 64) ↔ Carries m Signature (a.setWidth 64) :=
      forall₂_congr fun k hk => by rw [h a List.mem_cons_self k hk]
    have hrest := ih fun b hb => h b (List.mem_cons_of_mem a hb)
    unfold firstCarrying at hrest ⊢
    simp only [List.map_cons, List.find?_cons, hc]
    split
    · rfl
    · exact hrest

theorem searchTable_lists {m : Mem64} {Signature : CStr} {name : List Char} {table : Addr} {size : Nat}
    {L : List (BitVec 32)} (hs : size < 2 ^ 64) (h : Lists m name table size L) :
    (searchTable m Signature (some (table, size))).1 = firstCarrying m Signature L := by
  have hn : (Entries m table size).toNat = (L.map fun a => a.setWidth 64).length := by
    rw [entries_of_le hs h.header, h.entries, List.length_map]
  rw [searchTable, hn, firstCarrying]
  refine search_first_carrying fun j hj => ?_
  rw [List.length_map] at hj
  rw [Nat.zero_add, h.entry j hj, List.getElem_map]

/-- The RSDT is searched where the XSDT is not. -/
theorem find_rootTables {G : Guids} {m : Mem64} {t : SystemTable} {L : List (BitVec 32)} {Signature : CStr}
    (h : RootTables G m t L) :
    (FindAcpiTableBySignature G m t Signature).1 = firstCarrying m Signature L := by
  have hrsdt : ¬(2#64 ≤ field m (FindAcpiTable G m t) Revision ∧
      Usable m ['X', 'S', 'D', 'T'] (field m (FindAcpiTable G m t) XsdtAddress)) →
      (FindAcpiTableBySignature G m t Signature).1 = firstCarrying m Signature L := by
    intro hx
    rw [FindAcpiTableBySignature_eq, root, if_pos h.rsdp, rootOf, if_neg hx, if_pos h.rsdt.usable]
    exact searchTable_lists (by decide) h.rsdt
  cases h.path with
  | xsdt revision lists =>
    rw [FindAcpiTableBySignature_eq, root, if_pos h.rsdp, rootOf, if_pos ⟨revision, lists.usable⟩]
    exact searchTable_lists (by decide) lists
  | rejected _ rejected => exact hrsdt fun hx => rejected hx.2
  | old revision => exact hrsdt fun hx => BitVec.not_le.mpr revision hx.1

/-- **Agreement.** The search finds the first listed table that carries the signature; and two
firmwares that list the same tables have the same one found, whichever paths they take. -/
theorem root_tables_agree {G : Guids} {m m' : Mem64} {t t' : SystemTable} {L : List (BitVec 32)}
    (Signature : CStr) (h : RootTables G m t L) (h' : RootTables G m' t' L)
    (hheaders : ∀ a ∈ L, ∀ k < 4, bytesAt m' (a.setWidth 64) k = bytesAt m (a.setWidth 64) k) :
    (FindAcpiTableBySignature G m t Signature).1 = firstCarrying m Signature L ∧
      (FindAcpiTableBySignature G m' t' Signature).1 = (FindAcpiTableBySignature G m t Signature).1 := by
  refine ⟨find_rootTables h, ?_⟩
  rw [find_rootTables h, find_rootTables h', firstCarrying_congr hheaders]

theorem acpiFirmware_rsdt (revision : Byte) (h : revision = 2 ∨ revision = 0) :
    ValidRsdp guids (acpiFirmware revision 44) acpiSystem ∧
      Lists (acpiFirmware revision 44) ['R', 'S', 'D', 'T']
        (field (acpiFirmware revision 44) (FindAcpiTable guids (acpiFirmware revision 44) acpiSystem)
          RsdtAddress) 4 [0, 0x3000] := by
  rcases h with rfl | rfl
  · exact ⟨by decide +kernel, by decide +kernel, by decide +kernel, by decide +kernel, by decide +kernel⟩
  · exact ⟨by decide +kernel, by decide +kernel, by decide +kernel, by decide +kernel, by decide +kernel⟩

theorem rootTables_acpiFirmware {revision : Byte} (h : revision = 2 ∨ revision = 0) :
    RootTables guids (acpiFirmware revision 44) acpiSystem [0, 0x3000] := by
  obtain ⟨hrsdp, hrsdt⟩ := acpiFirmware_rsdt revision h
  refine ⟨hrsdp, hrsdt, ?_⟩
  rcases h with rfl | rfl
  · exact .xsdt (by decide +kernel)
      ⟨by decide +kernel, by decide +kernel, by decide +kernel, by decide +kernel⟩
  · exact .old (by decide +kernel)

theorem root_tables_agree_spcr :
    (FindAcpiTableBySignature guids (acpiFirmware 2 44) acpiSystem SPCR).1 = 0x3000 ∧
      (FindAcpiTableBySignature guids (acpiFirmware 0 44) acpiSystem SPCR).1 = 0x3000 := by
  have h := root_tables_agree SPCR (rootTables_acpiFirmware (.inl rfl)) (rootTables_acpiFirmware (.inr rfl))
    (List.forall_mem_cons.mpr ⟨by decide +kernel, List.forall_mem_singleton.mpr (by decide +kernel)⟩)
  have hfirst : firstCarrying (acpiFirmware 2 44) SPCR [0, 0x3000] = 0x3000 := by decide +kernel
  exact ⟨h.1.trans hfirst, h.2.trans (h.1.trans hfirst)⟩

end Osdev2.Efi
