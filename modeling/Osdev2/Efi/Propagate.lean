import Osdev2.Efi.MapKey
import Osdev2.Efi.Safety

/-!
# Errors on the way to the kernel

Which calls have succeeded when `efi_main` enters the kernel, and what it returns when
`load_elf` fails. Four calls go unchecked (`Unchecked`), and the status of `load_elf` is
not the one returned. `propagates_iff`: the errors get through exactly if the unchecked
calls succeed whenever the kernel is entered, and the stack happens to hold the status
when `load_elf` fails.
-/

namespace Osdev2.Efi

open Osdev2.Lib

/-! ## The calls that `load_elf` makes -/

/-- A call of `AllocatePages`, after the pages allocated before. -/
structure Request where
  pages : List Block
  type : AllocateType
  n : BitVec 64
  addr : Addr

def Boot.answer (B : Boot) (q : Request) : Status × Addr := B.allocatePages q.pages q.type q.n q.addr

/-- The same answers but to `q`. -/
structure Apart (q : Request) (B B' : Boot) : Prop where
  infoPool : B'.infoPool = B.infoPool
  getInfo : B'.getInfo = B.getInfo
  dataPool : B'.dataPool = B.dataPool
  read : B'.read = B.read
  answer : ∀ q', q' ≠ q → B'.answer q' = B.answer q'

/-- `load_elf` makes the call: what it does depends on the answer. -/
def Boot.Makes (B : Boot) (m : Mem64) (q : Request) : Prop :=
  ∃ B', Apart q B B' ∧ load_elf B' m ≠ load_elf B m

section Makes

variable {B B' : Boot} {q : Request}

theorem backs_AllocatePages (h : Apart q B B') (hq : EFI_ERROR (B.answer q).1 = true)
    (type : AllocateType) (n : BitVec 64) (addr : Addr) :
    Backs (AllocatePages B type n addr) (AllocatePages B' type n addr) := by
  intro s a s' ops hrun
  have hans := h.answer ⟨s.pages, type, n, addr⟩
  by_cases heq : (⟨s.pages, type, n, addr⟩ : Request) = q
  · have hfail : EFI_ERROR (B.allocatePages s.pages type n addr).1 = true := by
      rw [← heq] at hq
      exact hq
    simp only [AllocatePages, hfail, if_true] at hrun
    cases hrun
  · unfold AllocatePages at hrun ⊢
    have hsame : B'.allocatePages s.pages type n addr = B.allocatePages s.pages type n addr :=
      hans heq
    rw [hsame]
    exact hrun

theorem backs_eachPhdr {α : Type} {elf_data : Addr} {body body' : Addr → α → Load (ForInStep α)}
    (h : ∀ p a, Backs (body p a) (body' p a)) : ∀ fuel i a,
    Backs (eachPhdr elf_data body fuel i a) (eachPhdr elf_data body' fuel i a)
  | 0, _, _ => Backs.refl _
  | fuel + 1, i, a => by
    unfold eachPhdr
    refine (Backs.refl _).bind fun phnum => .ite ?_ (Backs.refl _)
    refine (Backs.refl _).bind fun phoff => (Backs.refl _).bind fun phentsize => ?_
    refine (h _ _).bind fun r => ?_
    cases r with
    | done a => exact Backs.refl _
    | yield a => exact backs_eachPhdr h fuel (i + 1) a

theorem backs_place_image (h : Apart q B B') (hq : EFI_ERROR (B.answer q).1 = true) (is_pie : Bool)
    (r : Range) : Backs (place_image B is_pie r) (place_image B' is_pie r) := by
  unfold place_image
  refine .ite ?_ (Backs.refl _)
  exact (backs_AllocatePages h hq _ _ _).bind fun _ => Backs.refl _

theorem backs_claim_segment (h : Apart q B B') (hq : EFI_ERROR (B.answer q).1 = true)
    (phdr dest : Addr) : Backs (claim_segment B phdr dest) (claim_segment B' phdr dest) := by
  unfold claim_segment
  refine (Backs.refl _).bind fun memsz => (Backs.refl _).bind fun vaddr => ?_
  exact (backs_AllocatePages h hq _ _ _).bind fun _ => Backs.refl _

theorem backs_load_segment (h : Apart q B B') (hq : EFI_ERROR (B.answer q).1 = true)
    (elf_data : Addr) (is_pie : Bool) (base_addr phdr : Addr) (u : Unit) :
    Backs (load_segment B elf_data is_pie base_addr phdr u)
      (load_segment B' elf_data is_pie base_addr phdr u) := by
  unfold load_segment
  refine (Backs.refl _).bind fun type => .ite ?_ (Backs.refl _)
  refine (Backs.refl _).bind fun vaddr => (Backs.refl _).bind fun offset => ?_
  exact Backs.bind (.ite (Backs.refl _) (backs_claim_segment h hq _ _)) fun _ => Backs.refl _

theorem backs_load_image (h : Apart q B B') (hq : EFI_ERROR (B.answer q).1 = true)
    (elf_data : Addr) : Backs (load_image B elf_data) (load_image B' elf_data) := by
  unfold load_image load_segments
  refine Backs.bind ?_ fun _ => Backs.refl _
  refine (Backs.refl _).bind fun is_pie => (Backs.refl _).bind fun r => ?_
  refine (backs_place_image h hq _ _).bind fun base_addr => ?_
  exact (backs_eachPhdr (backs_load_segment h hq elf_data is_pie base_addr) _ _ _).bind
    fun _ => Backs.refl _

/-- **A loaded kernel**: every call that `load_elf` has made has succeeded. -/
theorem load_elf_succeeds {m : Mem64} {loaded : Loaded} {s : Store} {ops : List Op}
    (hl : load_elf B m = some (.ok loaded, s, ops)) :
    B.opened ∧ ∀ q, B.Makes m q → EFI_ERROR (B.answer q).1 = false := by
  have hopened : B.opened := by
    by_contra hno
    obtain ⟨e, he⟩ := load_elf_not_opened hno m
    cases hl.symm.trans he
  refine ⟨hopened, fun q ⟨B', h, hne⟩ => Bool.eq_false_iff.mpr fun hq => hne ?_⟩
  have hopened' : B'.opened := by
    unfold Boot.opened
    rw [h.infoPool, h.getInfo, h.dataPool, h.read]
    exact hopened
  have hfilled : B'.filled m = B.filled m := by rw [Boot.filled, h.dataPool, h.read, Boot.filled]
  rw [load_elf_opened hopened', h.dataPool, hfilled, hl]
  exact backs_load_image h hq _ _ _ _ _ ((load_elf_opened hopened m).symm.trans hl)

end Makes

/-! ## `efi_main` -/

/-- Every call succeeds, but for the sizing of the map and the graphics. -/
structure Firmware.Succeeds (F : Firmware) : Prop where
  locateFileSystem : EFI_ERROR F.locateFileSystem = false
  openVolume : EFI_ERROR F.openVolume = false
  openFile : EFI_ERROR F.openFile = false
  opened : F.boot.opened
  pages : ∀ q, F.boot.Makes F.mem q → EFI_ERROR (F.boot.answer q).1 = false
  allocateBootInfo : EFI_ERROR F.allocateBootInfo.1 = false
  allocateMap : EFI_ERROR F.allocateMap.1 = false
  getMemoryMap : EFI_ERROR F.getMemoryMap = false
  exitBootServices : EFI_ERROR F.exitBootServices = false

/-- The calls whose status `efi_main` does not look at succeed. -/
structure Firmware.Unchecked (F : Firmware) : Prop where
  openVolume : EFI_ERROR F.openVolume = false
  allocateBootInfo : EFI_ERROR F.allocateBootInfo.1 = false
  allocateMap : EFI_ERROR F.allocateMap.1 = false
  getMemoryMap : EFI_ERROR F.getMemoryMap = false

/-- The errors get through. -/
structure Firmware.Propagates (F : Firmware) (g : Locals) : Prop where
  enters : ∀ entry boot_info base info w log, Main.under F (.efi_main g) .start =
    some (.ok (.entered entry boot_info base info), w, log) → F.Succeeds
  loads : F.Loads → ∀ e s ops, load_elf F.boot F.mem = some (.error e, s, ops) →
    ∃ w log, Main.under F (.efi_main g) .start = some (.ok (.returned e), w, log)

/-- Every status that is looked at is a success. -/
structure Firmware.Enters (F : Firmware) : Prop where
  exits : F.Exits
  exitBootServices : EFI_ERROR F.exitBootServices = false

section Propagates

variable {F : Firmware} {g : Locals}

theorem entered_of_enters (h : F.Enters) : ∃ entry boot_info base info w log,
    Main.under F (.efi_main g) .start = some (.ok (.entered entry boot_info base info), w, log) := by
  obtain ⟨loaded, s, ops, hl⟩ := h.exits.loaded
  obtain ⟨w', hrun⟩ := under_hand_over (F := F) (w := ⟨World.start.time + 4, World.start.buffer⟩) g loaded
  rw [if_neg (not_not_intro h.exits.currentEL), h.exitBootServices, if_neg (by decide)] at hrun
  rw [under_efi_main_loads g h.exits.loads, hl]
  exact ⟨_, _, _, _, _, _, hrun⟩

theorem enters_of_entered {entry boot_info base : Addr} {info : BootInfo} {w : World}
    {log : List Exiting} (h : Main.under F (.efi_main g) .start =
      some (.ok (.entered entry boot_info base info), w, log)) : F.Enters := by
  by_cases hloads : F.Loads
  · rw [under_efi_main_loads g hloads] at h
    split at h
    · cases h
    · cases h
    · rename_i loaded s ops hl
      obtain ⟨w', hrun⟩ := under_hand_over (F := F) (w := ⟨World.start.time + 4, World.start.buffer⟩)
        g loaded
      by_cases hel : F.currentEL ≠ 2#64
      · rw [if_pos hel] at hrun
        cases h.symm.trans hrun
      · rw [if_neg hel] at hrun
        by_cases hexit : EFI_ERROR F.exitBootServices
        · rw [if_pos hexit] at hrun
          cases h.symm.trans hrun
        · exact ⟨⟨hloads, ⟨loaded, s, ops, hl⟩, not_not.mp hel⟩, Bool.eq_false_iff.mpr hexit⟩
  · obtain ⟨status, w', hrun⟩ := under_efi_main_not_loads (F := F) (w := .start) g hloads
    cases h.symm.trans hrun

theorem Firmware.Enters.succeeds_iff (h : F.Enters) : F.Succeeds ↔ F.Unchecked := by
  refine ⟨fun hs => ⟨hs.openVolume, hs.allocateBootInfo, hs.allocateMap, hs.getMemoryMap⟩, fun hu => ?_⟩
  obtain ⟨loaded, s, ops, hl⟩ := h.exits.loaded
  obtain ⟨hopened, hpages⟩ := load_elf_succeeds hl
  exact ⟨h.exits.loads.locateFileSystem, hu.openVolume, h.exits.loads.openFile, hopened, hpages,
    hu.allocateBootInfo, hu.allocateMap, hu.getMemoryMap, h.exitBootServices⟩

/-- **Errors of the boot.** They get through to the caller exactly if the four unchecked calls
succeed whenever every checked one does, and `elf_entry`, which is returned in place of
`load_elf`'s status, happens to hold it. -/
theorem propagates_iff (F : Firmware) (g : Locals) : F.Propagates g ↔
    (F.Enters → F.Unchecked) ∧ (F.Loads → ∀ e s ops,
      load_elf F.boot F.mem = some (.error e, s, ops) → g.elf_entry = e) := by
  constructor
  · intro h
    refine ⟨fun henters => ?_, fun hloads e s ops hl => ?_⟩
    · obtain ⟨_, _, _, _, _, _, hrun⟩ := entered_of_enters (g := g) henters
      exact henters.succeeds_iff.mp (h.enters _ _ _ _ _ _ hrun)
    · obtain ⟨w, log, hrun⟩ := h.loads hloads e s ops hl
      rw [under_efi_main_loads g hloads, hl] at hrun
      cases hrun
      rfl
  · rintro ⟨hunchecked, hentry⟩
    refine ⟨fun _ _ _ _ _ _ hrun => ?_, fun hloads e s ops hl => ?_⟩
    · have henters := enters_of_entered hrun
      exact henters.succeeds_iff.mpr (hunchecked henters)
    · rw [under_efi_main_loads g hloads, hl, hentry hloads e s ops hl]
      exact ⟨_, _, rfl⟩

end Propagates

/-- The map has grown by its own buffer, and is not read. -/
def grownMap : Firmware := { sampleFirmware with getMemoryMap := 0x8000000000000005 }

theorem grownMap_enters : grownMap.Enters :=
  ⟨⟨⟨rfl, rfl⟩, bareKernel_loaded, rfl⟩, rfl⟩

/-- The kernel's file cannot be read. -/
def unreadable : Firmware :=
  { sampleFirmware with boot := { sampleBoot bareKernel with read := (0x8000000000000007, []) } }

/-- The kernel is entered without a map; and a failure to read it is returned as a success. -/
theorem propagates_not : ¬grownMap.Propagates ⟨0, ⟨0, 0, 0, 0⟩⟩ ∧
    ¬unreadable.Propagates ⟨0, ⟨0, 0, 0, 0⟩⟩ := by
  refine ⟨fun h => ?_, fun h => ?_⟩
  · obtain ⟨_, _, _, _, _, _, hrun⟩ := entered_of_enters (g := ⟨0, ⟨0, 0, 0, 0⟩⟩) grownMap_enters
    exact absurd (h.enters _ _ _ _ _ _ hrun).getMemoryMap (by decide)
  · have hloads : unreadable.Loads := ⟨rfl, rfl⟩
    have hl : load_elf unreadable.boot unreadable.mem =
        some (.error 0x8000000000000007, ⟨fun _ => 0, []⟩, []) := rfl
    obtain ⟨w, log, hrun⟩ := h.loads hloads _ _ _ hl
    rw [under_efi_main_loads _ hloads, hl] at hrun
    cases hrun

end Osdev2.Efi
