import Osdev2.Lib.Program
import Osdev2.Efi.Loader
import Osdev2.Efi.Uart

/-!
# `efi_main` (`efi/main.c`)

`efi_main` as a program over its calls of the firmware, on AArch64. A call answers
with its status and with what its out-parameters hold after it, whether or not it has
set them; locals that no call is given are parameters (`Locals`). `load_elf` is one
call, answered by the loader of `Osdev2.Efi.Loader`.

`Firmware` is one way the firmware answers, and the memory map in effect after each
call: any of them may change it. `under_efi_main_loads` follows a run to its exit.
-/

namespace Osdev2.Efi

open Osdev2.Lib

/-! ## `boot_info_t` -/

structure FramebufferInfo where
  framebuffer : BitVec 64
  width : BitVec 32
  height : BitVec 32
  pitch : BitVec 32
  pixel_format : BitVec 32

structure MemoryMapInfo where
  memory_map : Addr
  memory_map_size : BitVec 64
  memory_map_descriptor_size : BitVec 64
  memory_map_version : BitVec 32

structure BootInfo where
  fb : FramebufferInfo
  serial : SerialInfo
  mmap : MemoryMapInfo

/-- After `SetMem(boot_info, sizeof(*boot_info), 0)`. -/
def BootInfo.zero : BootInfo := ⟨⟨0, 0, 0, 0, 0⟩, ⟨0, 0, 0, 0⟩, ⟨0, 0, 0, 0⟩⟩

/-! ## The calls -/

/-- The out-parameters of `GetMemoryMap`, but for the buffer. -/
structure MapOut where
  mmap_size : BitVec 64
  map_key : BitVec 64
  desc_size : BitVec 64
  desc_ver : BitVec 32

inductive Service where
  | LocateFileSystem
  | OpenVolume
  | Open
  | load_elf
  /-- `AllocatePool` for `boot_info`. -/
  | AllocateBootInfo
  | LocateGraphics
  | FindAcpiTable
  /-- `GetMemoryMap` with no buffer. -/
  | SizeMap
  /-- `AllocatePool` for the map. -/
  | AllocateMap (mmap_size : BitVec 64)
  | GetMemoryMap (mmap : Addr) (mmap_size : BitVec 64)
  | Print
  | CurrentEL
  /-- With what `boot_info` holds. -/
  | ExitBootServices (map_key : BitVec 64) (info : BootInfo)

def Service.Answer : Service → Type
  | .LocateFileSystem | .OpenVolume | .Open | .ExitBootServices _ _ => Status
  | .load_elf => Except Status Loaded
  | .AllocateBootInfo | .AllocateMap _ => Status × Addr
  | .LocateGraphics => Status × FramebufferInfo
  | .FindAcpiTable => Option Spcr
  | .SizeMap | .GetMemoryMap _ _ => Status × MapOut
  | .Print => Unit
  | .CurrentEL => BitVec 64

abbrev Main (α : Type) := Program Service.Answer α

/-- How `efi_main` ends. -/
inductive Exit where
  | returned (status : Status)
  /-- `entry(boot_info, base)`. -/
  | entered (entry boot_info base : Addr) (info : BootInfo)

/-- Locals before they are assigned. -/
structure Locals where
  elf_entry : Addr
  result : SerialInfo

namespace Main

def locateFileSystem : Main Status := .instr Service.LocateFileSystem

def openVolume : Main Status := .instr Service.OpenVolume

def openFile : Main Status := .instr Service.Open

def load_elf : Main (Except Status Loaded) := .instr Service.load_elf

def allocateBootInfo : Main (Status × Addr) := .instr Service.AllocateBootInfo

def locateGraphics : Main (Status × FramebufferInfo) := .instr Service.LocateGraphics

def findAcpiTable : Main (Option Spcr) := .instr Service.FindAcpiTable

def sizeMap : Main (Status × MapOut) := .instr Service.SizeMap

def allocateMap (mmap_size : BitVec 64) : Main (Status × Addr) :=
  .instr (Service.AllocateMap mmap_size)

def getMemoryMap (mmap : Addr) (mmap_size : BitVec 64) : Main (Status × MapOut) :=
  .instr (Service.GetMemoryMap mmap mmap_size)

def print : Main Unit := .instr Service.Print

def get_current_el : Main (BitVec 64) := .instr Service.CurrentEL

def exitBootServices (map_key : BitVec 64) (info : BootInfo) : Main Status :=
  .instr (Service.ExitBootServices map_key info)

/-- `n` lines. -/
def prints : Nat → Main Unit
  | 0 => pure ()
  | n + 1 => do
    print
    prints n

def find_uart (g : Locals) : Main SerialInfo := do
  print
  let spcr ← findAcpiTable
  -- a line in two parts, with the table and without it
  prints 2
  pure (Efi.find_uart g.result spcr)

/-- `int count` of the entries. -/
def entries (info : MemoryMapInfo) : Int :=
  ((info.memory_map_size / info.memory_map_descriptor_size).setWidth 32).toInt

def print_map (info : MemoryMapInfo) : Main Unit := do
  prints 2
  let count := entries info
  (if 8 < count then prints 1 else pure ())
  let count := if 8 < count then 8 else count
  prints 1
  prints (5 * count.toNat)

def print_info (info : BootInfo) : Main Unit := do
  prints 1
  (if info.fb.framebuffer ≠ 0 then prints 4 else pure ())
  (if info.serial.base ≠ 0 then prints 4 else pure ())
  (if info.mmap.memory_map ≠ 0 then print_map info.mmap else pure ())

/-- From the check of the exception level on. -/
def leave (loaded : Loaded) (boot_info : Addr) (info : BootInfo) (map_key : BitVec 64) :
    Main Exit := do
  let el ← get_current_el
  if el ≠ 2#64 then do
    print
    pure (.returned EFI_UNSUPPORTED)
  else do
    print
    let status ← exitBootServices map_key info
    if EFI_ERROR status then do
      print
      pure (.returned status)
    else pure (.entered loaded.entry_point boot_info loaded.base info)

/-- The graphics, if there are any. -/
def find_graphics : Main FramebufferInfo := do
  let (status, fb) ← locateGraphics
  pure (if !EFI_ERROR status then fb else BootInfo.zero.fb)

/-- The map, and its key. -/
def get_map : Main (MemoryMapInfo × BitVec 64) := do
  let (_, out) ← sizeMap
  let mmap_size := out.mmap_size + out.desc_size * 8#64
  let (_, mmap) ← allocateMap mmap_size
  let (_, out) ← getMemoryMap mmap mmap_size
  pure (⟨mmap, out.mmap_size, out.desc_size, out.desc_ver⟩, out.map_key)

/-- With the kernel loaded: `boot_info`, and the way out. -/
def hand_over (g : Locals) (loaded : Loaded) : Main Exit := do
  let (_, boot_info) ← allocateBootInfo
  let fb ← find_graphics
  let uart ← find_uart g
  let (mmap, map_key) ← get_map
  let info : BootInfo := ⟨fb, uart, mmap⟩
  print_info info
  leave loaded boot_info info map_key

def efi_main (g : Locals) : Main Exit := do
  let status ← locateFileSystem
  if EFI_ERROR status then do
    print
    pure (.returned status)
  else do
    let _ ← openVolume
    let status ← openFile
    if EFI_ERROR status then do
      print
      pure (.returned status)
    else do
      let status ← load_elf
      match status with
      | .error _ => pure (.returned g.elf_entry)
      | .ok loaded => hand_over g loaded

end Main

/-! ## The firmware -/

/-- The memory map at one time. -/
@[ext] structure MemoryMap where
  key : BitVec 64
  size : BitVec 64
  desc_size : BitVec 64
  desc_ver : BitVec 32
  descriptors : List Byte

def MemoryMap.out (m : MemoryMap) : MapOut := ⟨m.size, m.key, m.desc_size, m.desc_ver⟩

/-- What the calls answer, and the memory map in effect after each number of calls. -/
structure Firmware where
  locateFileSystem : Status
  openVolume : Status
  openFile : Status
  boot : Boot
  mem : Mem64
  allocateBootInfo : Status × Addr
  locateGraphics : Status × FramebufferInfo
  spcr : Option Spcr
  sizeMap : Status × MapOut
  allocateMap : Status × Addr
  getMemoryMap : Status
  /-- What a failed `GetMemoryMap` leaves. -/
  noMap : MapOut
  currentEL : BitVec 64
  exitBootServices : Status
  maps : Nat → MemoryMap

/-- The number of calls so far, and the descriptors in the buffer of the map. -/
structure World where
  time : Nat
  buffer : Option (List Byte)

def World.start : World := ⟨0, none⟩

/-- `ExitBootServices` as it is called: the key, `boot_info` and its buffer, and the map in
effect. -/
structure Exiting where
  map_key : BitVec 64
  info : BootInfo
  buffer : Option (List Byte)
  map : MemoryMap

abbrev Uefi := Traced World Empty Exiting

def World.tick (w : World) : World := { w with time := w.time + 1 }

/-- One call. -/
def Service.exec (F : Firmware) : (s : Service) → Uefi s.Answer
  | .LocateFileSystem, w => some (.ok F.locateFileSystem, w.tick, [])
  | .OpenVolume, w => some (.ok F.openVolume, w.tick, [])
  | .Open, w => some (.ok F.openFile, w.tick, [])
  | .load_elf, w => (Efi.load_elf F.boot F.mem).map fun t => (.ok t.1, w.tick, [])
  | .AllocateBootInfo, w => some (.ok F.allocateBootInfo, w.tick, [])
  | .LocateGraphics, w => some (.ok F.locateGraphics, w.tick, [])
  | .FindAcpiTable, w => some (.ok F.spcr, w, [])
  | .SizeMap, w => some (.ok F.sizeMap, w.tick, [])
  | .AllocateMap _, w => some (.ok F.allocateMap, w.tick, [])
  | .GetMemoryMap _ _, w =>
    if EFI_ERROR F.getMemoryMap then some (.ok (F.getMemoryMap, F.noMap), w.tick, [])
    else some (.ok (F.getMemoryMap, (F.maps (w.time + 1)).out),
      { w.tick with buffer := some (F.maps (w.time + 1)).descriptors }, [])
  | .Print, w => some (.ok (), w.tick, [])
  | .CurrentEL, w => some (.ok F.currentEL, w, [])
  | .ExitBootServices map_key info, w =>
    some (.ok F.exitBootServices, w.tick, [⟨map_key, info, w.buffer, F.maps w.time⟩])

def Main.under (F : Firmware) (p : Main α) : Uefi α := p.run (Service.exec F)

/-! ## A run -/

/-- The lines that `print_map` prints. -/
def mapLines (info : MemoryMapInfo) : Nat :=
  2 + ((if 8 < Main.entries info then 1 else 0) +
    (1 + 5 * (if 8 < Main.entries info then 8 else Main.entries info).toNat))

/-- The lines that `print_info` prints. -/
def lines (info : BootInfo) : Nat :=
  1 + ((if info.fb.framebuffer ≠ 0 then 4 else 0) + ((if info.serial.base ≠ 0 then 4 else 0) +
    if info.mmap.memory_map ≠ 0 then mapLines info.mmap else 0))

namespace Firmware

variable (F : Firmware)

/-- The graphics that go into `boot_info`. -/
def fb : FramebufferInfo :=
  if !EFI_ERROR F.locateGraphics.1 then F.locateGraphics.2 else BootInfo.zero.fb

/-- What the second `GetMemoryMap` leaves when `n` calls are made. -/
def mapOut (n : Nat) : MapOut := if EFI_ERROR F.getMemoryMap then F.noMap else (F.maps n).out

def mapBuffer (n : Nat) (buffer : Option (List Byte)) : Option (List Byte) :=
  if EFI_ERROR F.getMemoryMap then buffer else some (F.maps n).descriptors

def mapInfo (n : Nat) : MemoryMapInfo :=
  ⟨F.allocateMap.2, (F.mapOut n).mmap_size, (F.mapOut n).desc_size, (F.mapOut n).desc_ver⟩

end Firmware

section Run

variable {F : Firmware} {w : World}

theorem under_bind (p : Main α) (f : α → Main β) :
    Main.under F (p >>= f) = Main.under F p >>= fun a => Main.under F (f a) :=
  Program.run_bind _ p f

theorem under_pure (a : α) : Main.under F (pure a) w = some (.ok a, w, []) := rfl

theorem under_prints (n : Nat) : ∀ w : World,
    Main.under F (.prints n) w = some (.ok (), ⟨w.time + n, w.buffer⟩, []) := by
  induction n with
  | zero => exact fun w => rfl
  | succ n ih =>
    intro w
    have hprint : Main.under F .print w = some (.ok (), w.tick, []) := rfl
    unfold Main.prints
    rw [under_bind, Traced.bind_quiet hprint, ih, World.tick, Nat.add_right_comm, Nat.add_assoc]

theorem under_print : Main.under F .print w = some (.ok (), w.tick, []) := rfl

theorem under_prints_if (c : Prop) [Decidable c] (n : Nat) :
    Main.under F (if c then .prints n else pure ()) w =
      some (.ok (), ⟨w.time + (if c then n else 0), w.buffer⟩, []) := by
  split
  · exact under_prints n w
  · rfl

theorem under_print_map (info : MemoryMapInfo) :
    Main.under F (.print_map info) w = some (.ok (), ⟨w.time + mapLines info, w.buffer⟩, []) := by
  unfold Main.print_map
  rw [under_bind, Traced.bind_quiet (under_prints 2 w), under_bind,
    Traced.bind_quiet (under_prints_if _ 1), under_bind, Traced.bind_quiet (under_prints 1 _),
    under_prints]
  simp only [mapLines, Nat.add_assoc]

theorem under_print_info (info : BootInfo) :
    Main.under F (.print_info info) w = some (.ok (), ⟨w.time + lines info, w.buffer⟩, []) := by
  unfold Main.print_info
  rw [under_bind, Traced.bind_quiet (under_prints 1 w), under_bind,
    Traced.bind_quiet (under_prints_if _ 4), under_bind, Traced.bind_quiet (under_prints_if _ 4)]
  unfold lines
  by_cases hmap : info.mmap.memory_map ≠ 0
  · rw [if_pos hmap, if_pos hmap, under_print_map]
    simp only [Nat.add_assoc]
  · rw [if_neg hmap, if_neg hmap, under_pure]
    simp only [Nat.add_assoc, Nat.add_zero]

theorem under_find_uart (g : Locals) : Main.under F (.find_uart g) w =
    some (.ok (Efi.find_uart g.result F.spcr), ⟨w.time + 3, w.buffer⟩, []) := by
  have hfind : ∀ w, Main.under F .findAcpiTable w = some (.ok F.spcr, w, []) := fun _ => rfl
  unfold Main.find_uart
  rw [under_bind, Traced.bind_quiet under_print, under_bind, Traced.bind_quiet (hfind _), under_bind,
    Traced.bind_quiet (under_prints 2 _)]
  rfl

theorem under_find_graphics : Main.under F .find_graphics w =
    some (.ok F.fb, w.tick, []) := rfl

theorem under_get_map : Main.under F .get_map w =
    some (.ok (F.mapInfo (w.time + 3), (F.mapOut (w.time + 3)).map_key),
      ⟨w.time + 3, F.mapBuffer (w.time + 3) w.buffer⟩, []) := by
  have hsize : Main.under F .sizeMap w = some (.ok F.sizeMap, w.tick, []) := rfl
  have halloc : ∀ n, Main.under F (.allocateMap n) w.tick =
      some (.ok F.allocateMap, w.tick.tick, []) := fun _ => rfl
  have hmap : ∀ p n, Main.under F (.getMemoryMap p n) w.tick.tick =
      some (.ok (F.getMemoryMap, F.mapOut (w.time + 3)),
        ⟨w.time + 3, F.mapBuffer (w.time + 3) w.buffer⟩, []) := fun p n => by
    have hone : Main.under F (.getMemoryMap p n) = Service.exec F (.GetMemoryMap p n) :=
      Program.run_instr _ _
    rw [hone]
    unfold Service.exec Firmware.mapOut Firmware.mapBuffer
    split <;> rfl
  unfold Main.get_map
  rw [under_bind, Traced.bind_quiet hsize, under_bind, Traced.bind_quiet (halloc _), under_bind,
    Traced.bind_quiet (hmap _ _)]
  rfl

theorem under_leave (loaded : Loaded) (boot_info : Addr) (info : BootInfo) (map_key : BitVec 64) :
    ∃ w', Main.under F (.leave loaded boot_info info map_key) w =
      if F.currentEL ≠ 2#64 then some (.ok (.returned EFI_UNSUPPORTED), w', [])
      else some (.ok (if EFI_ERROR F.exitBootServices then .returned F.exitBootServices
        else .entered loaded.entry_point boot_info loaded.base info), w',
        [⟨map_key, info, w.buffer, F.maps (w.time + 1)⟩]) := by
  have hel : Main.under F .get_current_el w = some (.ok F.currentEL, w, []) := rfl
  have hexit : Main.under F (.exitBootServices map_key info) w.tick = some (.ok F.exitBootServices,
      w.tick.tick, [⟨map_key, info, w.buffer, F.maps (w.time + 1)⟩]) := rfl
  unfold Main.leave
  rw [under_bind, Traced.bind_quiet hel]
  by_cases h : F.currentEL ≠ 2#64
  · rw [if_pos h]
    refine ⟨w.tick, ?_⟩
    rw [if_pos h, under_bind, Traced.bind_quiet under_print, under_pure]
  · rw [if_neg h, under_bind, Traced.bind_quiet under_print, under_bind, Traced.bind_ok hexit]
    by_cases herr : EFI_ERROR F.exitBootServices
    · refine ⟨w.tick.tick.tick, ?_⟩
      rw [if_neg h, if_pos herr, if_pos herr]
      rfl
    · refine ⟨w.tick.tick, ?_⟩
      rw [if_neg h, if_neg herr, if_neg herr]
      rfl

/-- The `boot_info` that is handed over, when `n` calls are made up to the map. -/
def Firmware.info (F : Firmware) (g : Locals) (n : Nat) : BootInfo :=
  ⟨F.fb, Efi.find_uart g.result F.spcr, F.mapInfo n⟩

theorem under_hand_over (g : Locals) (loaded : Loaded) : ∃ w',
    Main.under F (.hand_over g loaded) w =
      if F.currentEL ≠ 2#64 then some (.ok (.returned EFI_UNSUPPORTED), w', [])
      else some (.ok (if EFI_ERROR F.exitBootServices then .returned F.exitBootServices
        else .entered loaded.entry_point F.allocateBootInfo.2 loaded.base (F.info g (w.time + 8))),
        w', [⟨(F.mapOut (w.time + 8)).map_key, F.info g (w.time + 8),
          F.mapBuffer (w.time + 8) w.buffer,
          F.maps (w.time + 8 + lines (F.info g (w.time + 8)) + 1)⟩]) := by
  have halloc : Main.under F .allocateBootInfo w = some (.ok F.allocateBootInfo, w.tick, []) := rfl
  unfold Main.hand_over
  rw [under_bind, Traced.bind_quiet halloc, under_bind, Traced.bind_quiet under_find_graphics,
    under_bind, Traced.bind_quiet (under_find_uart g), under_bind, Traced.bind_quiet under_get_map,
    under_bind, Traced.bind_quiet (under_print_info _)]
  exact under_leave _ _ _ _

/-- The file system and the kernel file are there. -/
structure Firmware.Loads (F : Firmware) : Prop where
  locateFileSystem : EFI_ERROR F.locateFileSystem = false
  openFile : EFI_ERROR F.openFile = false

theorem under_locateFileSystem :
    Main.under F .locateFileSystem w = some (.ok F.locateFileSystem, w.tick, []) := rfl

theorem under_openVolume : Main.under F .openVolume w = some (.ok F.openVolume, w.tick, []) := rfl

theorem under_openFile : Main.under F .openFile w = some (.ok F.openFile, w.tick, []) := rfl

theorem under_efi_main_not_loads (g : Locals) (h : ¬F.Loads) : ∃ status w',
    Main.under F (.efi_main g) w = some (.ok (.returned status), w', []) := by
  unfold Main.efi_main
  rw [under_bind, Traced.bind_quiet under_locateFileSystem]
  by_cases h1 : EFI_ERROR F.locateFileSystem
  · rw [if_pos h1, under_bind, Traced.bind_quiet under_print]
    exact ⟨_, _, rfl⟩
  · rw [if_neg h1, under_bind, Traced.bind_quiet under_openVolume, under_bind,
      Traced.bind_quiet under_openFile]
    by_cases h2 : EFI_ERROR F.openFile
    · rw [if_pos h2, under_bind, Traced.bind_quiet under_print]
      exact ⟨_, _, rfl⟩
    · exact absurd ⟨Bool.eq_false_iff.mpr h1, Bool.eq_false_iff.mpr h2⟩ h

theorem under_efi_main_loads (g : Locals) (h : F.Loads) : Main.under F (.efi_main g) w =
    match load_elf F.boot F.mem with
    | none => none
    | some (.error _, _, _) => some (.ok (.returned g.elf_entry), ⟨w.time + 4, w.buffer⟩, [])
    | some (.ok loaded, _, _) => Main.under F (.hand_over g loaded) ⟨w.time + 4, w.buffer⟩ := by
  have hload : ∀ w, Main.under F .load_elf w =
      (load_elf F.boot F.mem).map fun t => (.ok t.1, w.tick, []) := fun w => by
    have hone : Main.under F .load_elf = Service.exec F .load_elf := Program.run_instr _ _
    rw [hone]
    rfl
  unfold Main.efi_main
  rw [under_bind, Traced.bind_quiet under_locateFileSystem, h.locateFileSystem,
    if_neg (by decide), under_bind, Traced.bind_quiet under_openVolume, under_bind, Traced.bind_quiet under_openFile, h.openFile,
    if_neg (by decide), under_bind]
  rcases hl : load_elf F.boot F.mem with _ | ⟨_ | loaded, s, ops⟩
  · rw [Traced.bind_none (by rw [hload, hl]; rfl)]
  · rw [Traced.bind_quiet (by rw [hload, hl]; rfl)]
    rfl
  · rw [Traced.bind_quiet (by rw [hload, hl]; rfl)]
    rfl

end Run

end Osdev2.Efi
