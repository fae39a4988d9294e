import Osdev2.Efi.Main
import Osdev2.Efi.Loaded

/-!
# The key of the memory map

`ExitBootServices` takes the key of the map in effect. `efi_main` reads the map, prints
what it has found, and only then exits; each line is a call that may change the map.
`fresh_iff`: key and map are those in effect exactly if the map was read at all and is
back to what was read once the lines are printed.
-/

namespace Osdev2.Efi

open Osdev2.Lib

/-- The key passed and the map in `boot_info` are those of the map in effect. -/
structure Exiting.Fresh (x : Exiting) : Prop where
  key : x.map_key = x.map.key
  size : x.info.mmap.memory_map_size = x.map.size
  descriptor_size : x.info.mmap.memory_map_descriptor_size = x.map.desc_size
  version : x.info.mmap.memory_map_version = x.map.desc_ver
  descriptors : x.buffer = some x.map.descriptors

/-- Every call of `ExitBootServices` in the run of `efi_main` is. -/
def Firmware.Fresh (F : Firmware) (g : Locals) : Prop :=
  ∀ r w log, Main.under F (.efi_main g) .start = some (r, w, log) → ∀ x ∈ log, x.Fresh

/-- The run comes to `ExitBootServices`. -/
structure Firmware.Exits (F : Firmware) : Prop where
  loads : F.Loads
  loaded : ∃ loaded s ops, load_elf F.boot F.mem = some (.ok loaded, s, ops)
  currentEL : F.currentEL = 2#64

/-- The calls up to the second `GetMemoryMap`, and up to `ExitBootServices`. -/
def mapTime : Nat := 12

def Firmware.exitTime (F : Firmware) (g : Locals) : Nat := mapTime + lines (F.info g mapTime) + 1

section Fresh

variable {F : Firmware} {g : Locals}

/-- How `ExitBootServices` is called. -/
def Firmware.exiting (F : Firmware) (g : Locals) : Exiting :=
  ⟨(F.mapOut mapTime).map_key, F.info g mapTime, F.mapBuffer mapTime none, F.maps (F.exitTime g)⟩

theorem exiting_fresh_iff : (F.exiting g).Fresh ↔
    EFI_ERROR F.getMemoryMap = false ∧ F.maps (F.exitTime g) = F.maps mapTime := by
  cases herr : EFI_ERROR F.getMemoryMap
  · -- the map that was read
    have hout : F.mapOut mapTime = (F.maps mapTime).out := by
      rw [Firmware.mapOut, herr, if_neg (by decide)]
    have hbuf : F.mapBuffer mapTime none = some (F.maps mapTime).descriptors := by
      rw [Firmware.mapBuffer, herr, if_neg (by decide)]
    constructor
    · rintro ⟨hkey, hsize, hdesc, hver, hdescs⟩
      simp only [Firmware.exiting, Firmware.info, Firmware.mapInfo, hout, hbuf, MemoryMap.out,
        Option.some.injEq] at hkey hsize hdesc hver hdescs
      exact ⟨rfl, MemoryMap.ext hkey.symm hsize.symm hdesc.symm hver.symm hdescs.symm⟩
    · rintro ⟨-, hmaps⟩
      refine ⟨?_, ?_, ?_, ?_, ?_⟩ <;>
        simp only [Firmware.exiting, Firmware.info, Firmware.mapInfo, hout, hbuf, hmaps,
          MemoryMap.out]
  · -- nothing was read
    refine iff_of_false (fun h => ?_) fun h => by cases h.1
    have hbuf := h.descriptors
    rw [Firmware.exiting, Firmware.mapBuffer, herr, if_pos rfl] at hbuf
    cases hbuf

theorem log_of_exits (h : F.Exits) : ∃ r w,
    Main.under F (.efi_main g) .start = some (r, w, [F.exiting g]) := by
  obtain ⟨loaded, s, ops, hl⟩ := h.loaded
  rw [under_efi_main_loads g h.loads, hl]
  obtain ⟨w', hrun⟩ := under_hand_over (F := F) (w := ⟨World.start.time + 4, World.start.buffer⟩) g loaded
  simp only
  rw [hrun, if_neg (not_not_intro h.currentEL)]
  exact ⟨_, _, rfl⟩

theorem log_of_not_exits (h : ¬F.Exits) {r : Except Empty Exit} {w : World} {log : List Exiting}
    (hrun : Main.under F (.efi_main g) .start = some (r, w, log)) : log = [] := by
  by_cases hloads : F.Loads
  · rw [under_efi_main_loads g hloads] at hrun
    split at hrun
    · cases hrun
    · cases hrun
      rfl
    · rename_i loaded s ops hl
      obtain ⟨w', hrun'⟩ := under_hand_over (F := F) (w := ⟨World.start.time + 4, World.start.buffer⟩)
        g loaded
      have hel : F.currentEL ≠ 2#64 := fun hel => h ⟨hloads, ⟨loaded, s, ops, hl⟩, hel⟩
      rw [if_pos hel] at hrun'
      cases hrun.symm.trans hrun'
      rfl
  · obtain ⟨status, w', hrun'⟩ := under_efi_main_not_loads (F := F) (w := .start) g hloads
    cases hrun.symm.trans hrun'
    rfl

/-- **The key of the map.** -/
theorem fresh_iff (F : Firmware) (g : Locals) : F.Fresh g ↔
    (F.Exits → EFI_ERROR F.getMemoryMap = false ∧ F.maps (F.exitTime g) = F.maps mapTime) := by
  rw [← exiting_fresh_iff]
  constructor
  · intro h hexits
    obtain ⟨r, w, hrun⟩ := log_of_exits (g := g) hexits
    exact h r w _ hrun _ List.mem_cons_self
  · intro h r w log hrun x hx
    by_cases hexits : F.Exits
    · obtain ⟨r', w', hrun'⟩ := log_of_exits (g := g) hexits
      cases hrun.symm.trans hrun'
      rw [List.mem_singleton.mp hx]
      exact h hexits
    · rw [log_of_not_exits hexits hrun] at hx
      cases hx

/-- The same firmware, but the first line printed after the map is read changes the map. -/
def Firmware.restless (F : Firmware) : Firmware :=
  { F with maps := fun n => if n ≤ mapTime then ⟨1, 48, 48, 1, []⟩ else ⟨2, 48, 48, 1, []⟩ }

theorem restless_stale (h : F.Exits) : ¬F.restless.Fresh g := by
  intro hfresh
  have hexits : F.restless.Exits := ⟨⟨h.loads.locateFileSystem, h.loads.openFile⟩, h.loaded, h.currentEL⟩
  obtain ⟨r, w, hrun⟩ := log_of_exits (g := g) hexits
  obtain ⟨-, hmaps⟩ := exiting_fresh_iff.mp (hfresh r w _ hrun _ List.mem_cons_self)
  have hlater : ¬F.restless.exitTime g ≤ mapTime := by
    unfold Firmware.exitTime
    omega
  simp only [Firmware.restless, Nat.le_refl, if_true] at hmaps hlater
  rw [if_neg hlater] at hmaps
  exact absurd (congrArg MemoryMap.key hmaps) (by decide)

end Fresh

/-- A kernel of no segments. -/
def bareKernel : List Byte :=
  le 8 0x102464C457F ++ le 8 0 ++ le 2 2 ++ le 2 183 ++ le 4 1 ++ le 8 0x100 ++ le 8 64 ++ le 8 0 ++
    le 4 0 ++ le 2 64 ++ le 2 56 ++ le 2 0 ++ le 2 0 ++ le 2 0 ++ le 2 0

theorem bareKernel_loaded : ∃ loaded s ops,
    load_elf (sampleBoot bareKernel) (fun _ => 0) = some (.ok loaded, s, ops) := by
  have hrun : ((load_elf (sampleBoot bareKernel) fun _ => 0).any fun t => t.1.toOption.isSome) =
      true := by decide +kernel
  rw [Option.any_eq_true] at hrun
  obtain ⟨⟨r, s, ops⟩, hl, hr⟩ := hrun
  cases r with
  | error e => cases hr
  | ok loaded => exact ⟨loaded, s, ops, hl⟩

/-- Every call succeeds. -/
def sampleFirmware : Firmware where
  locateFileSystem := 0
  openVolume := 0
  openFile := 0
  boot := sampleBoot bareKernel
  mem := fun _ => 0
  allocateBootInfo := (0, 0x20000)
  locateGraphics := (0, ⟨0x80000000, 800, 600, 800, 1⟩)
  spcr := some ⟨3, 0, 0x9000000, 7⟩
  sizeMap := (0x8000000000000005, ⟨48, 0, 48, 1⟩)
  allocateMap := (0, 0x30000)
  getMemoryMap := 0
  noMap := ⟨96, 1, 48, 1⟩
  currentEL := 2
  exitBootServices := 0
  maps := fun _ => ⟨1, 48, 48, 1, []⟩

theorem sampleFirmware_exits : sampleFirmware.Exits := ⟨⟨rfl, rfl⟩, bareKernel_loaded, rfl⟩

theorem stale_sample : ¬∀ F g, Firmware.Fresh F g := fun H =>
  restless_stale sampleFirmware_exits (H sampleFirmware.restless ⟨0, ⟨0, 0, 0, 0⟩⟩)

end Osdev2.Efi
