import Osdev2.Efi.Loaded
import Osdev2.Efi.Relocate

/-!
# Which kernel files are safe to load

`load_elf_safe_iff`: `load_elf` returns, with every read inside the file and
every write inside its pages, exactly on the files that are `Harmless`. The
condition is one on the file, on the pages the firmware gives, and on memory
before: the code itself checks the magic, the class and the type only.
-/

namespace Osdev2.Efi

open Osdev2.Lib

section Safety

variable {B : Boot} {s : Store}

/-- The relocations of the image `m` at `base` stay in the pages, and end. -/
def RelocationsOk (f : List Byte) (ps : List Block) (base : Addr) (m : Mem64) : Prop :=
  (∀ o, dynHeader f (offsets f) = some o → Has f o p_vaddr) ∧
    (dynAddr f base (offsets f) ≠ 0 → DynamicOk ps base (dynAddr f base (offsets f)) m)

/-- The file may be loaded into the memory `m`. -/
def Harmless (B : Boot) (m : Mem64) : Prop :=
  PassesOk B ∧ ∀ base ps, Accepted B.read.2 → isPie B.read.2 = true →
    B.kernelBase = some (base, ps) → RelocationsOk B.read.2 ps base (B.kernelImage base m)

theorem spec_load_image (hB : B.Behaves) (h : Ready B.dataPool.2 B.read.2 s)
    (hs : s.pages = []) :
    Spec (Op.Ok B.dataPool.2 B.read.2.length) (load_image B B.dataPool.2) s (Harmless B s.mem)
      fun _ _ => True := by
  refine (spec_load_segments hB h hs).bind ?_ ?_
  · rintro _ s' ⟨-, hpasses⟩ ⟨hacc, base, ps, hk, rfl, hr, hm, hp⟩
    obtain ⟨hh, hmeas, -⟩ := hpasses hacc
    have hentry : ∀ s'', Spec (Op.Ok B.dataPool.2 B.read.2.length) (do
        let entry ← load B.dataPool.2 e_entry
        pure (⟨base + entry, base⟩ : Loaded)) s'' True fun _ _ => True := fun s'' => by
      have hload := @spec_load_raw B.dataPool.2 B.read.2 s'' 0 e_entry
      rw [show B.dataPool.2 + 0 = B.dataPool.2 from BitVec.add_zero _] at hload
      exact hload.bind_known hh.2.2.2 ((Spec.pure _).mono fun _ _ _ _ => trivial)
    refine Spec.congr (Spec.bind (D := True) (Spec.ite (fun hpie =>
        (spec_relocate hr hh hmeas).mono fun _ _ _ hr => hr.1) fun _ =>
        (Spec.pure ()).mono fun _ _ _ hr => hr.1) (fun _ s'' _ _ => hentry s'') ?_) ?_
    · rintro _ _ - ⟨⟩
    · rw [and_iff_left trivial, hm]
      constructor
      · intro hc base' ps' _ hpie hk'
        rw [hk] at hk'
        cases hk'
        rw [← hp hpie]
        exact hc hpie
      · intro hc hpie
        rw [hp hpie]
        exact hc base ps hacc hpie hk
  · rintro e s' - himg
    refine ⟨fun base ps hacc hpie hk => ?_, trivial⟩
    rw [himg hacc hpie] at hk
    cases hk

/-- Every call before the header is looked at has succeeded. -/
def Boot.opened (B : Boot) : Prop :=
  ¬EFI_ERROR B.infoPool ∧ ¬EFI_ERROR B.getInfo.1 ∧ ¬EFI_ERROR B.dataPool.1 ∧ ¬EFI_ERROR B.read.1

theorem load_elf_opened (h : B.opened) (m : Mem64) :
    load_elf B m = load_image B B.dataPool.2 (B.filled m) := by
  obtain ⟨h1, h2, h3, h4⟩ := h
  rw [load_elf, if_neg h1, if_neg h2, if_neg h3, if_neg h4]

theorem load_elf_not_opened (h : ¬B.opened) (m : Mem64) :
    ∃ e, load_elf B m = some (.error e, ⟨m, []⟩, []) := by
  unfold load_elf
  by_cases h1 : EFI_ERROR B.infoPool
  · exact ⟨_, if_pos h1⟩
  · by_cases h2 : EFI_ERROR B.getInfo.1
    · exact ⟨_, by rw [if_neg h1, if_pos h2]⟩
    · by_cases h3 : EFI_ERROR B.dataPool.1
      · exact ⟨_, by rw [if_neg h1, if_neg h2, if_pos h3]⟩
      · by_cases h4 : EFI_ERROR B.read.1
        · exact ⟨_, by rw [if_neg h1, if_neg h2, if_neg h3, if_pos h4]⟩
        · exact absurd ⟨h1, h2, h3, h4⟩ h

/-- **The safe files.** -/
theorem load_elf_safe_iff (hB : B.Behaves) (m : Mem64) :
    (∃ r s ops, load_elf B m = some (r, s, ops) ∧
      ∀ op ∈ ops, op.Ok B.dataPool.2 B.read.2.length) ↔
    (B.opened → Harmless B (B.filled m).mem) := by
  by_cases ho : B.opened
  · rw [load_elf_opened ho, forall_prop_of_true ho]
    exact (spec_load_image hB (ready_filled B m) rfl).sound
  · refine iff_of_true ?_ fun h => absurd h ho
    obtain ⟨e, he⟩ := load_elf_not_opened ho m
    exact ⟨_, _, _, he, fun op hop => by cases hop⟩

end Safety

theorem load_elf_safe_iff_sample :
    (∃ r s ops, load_elf (sampleBoot (sampleKernel 8)) (fun _ => 0) = some (r, s, ops) ∧
      ∀ op ∈ ops, op.Ok 0x8000#64 (sampleKernel 8).length) ↔
    ((sampleBoot (sampleKernel 8)).opened → Harmless (sampleBoot (sampleKernel 8))
      ((sampleBoot (sampleKernel 8)).filled fun _ => 0).mem) :=
  load_elf_safe_iff (sampleBoot_behaves (by decide +kernel)) _

/-- A file cut off after the class: `e_type` is read behind its end. -/
def truncatedKernel : List Byte := [0x7F#8, 0x45#8, 0x4C#8, 0x46#8, 2#8]

theorem truncated_unsafe : (sampleBoot truncatedKernel).Behaves ∧
    ¬∃ r s ops, load_elf (sampleBoot truncatedKernel) (fun _ => 0) = some (r, s, ops) ∧
      ∀ op ∈ ops, op.Ok 0x8000#64 truncatedKernel.length := by
  refine ⟨sampleBoot_behaves (by decide), ?_⟩
  rintro ⟨r, s, ops, h, hok⟩
  have hread : (load_elf (sampleBoot truncatedKernel) fun _ => 0).any fun t =>
      t.2.2.any fun op => match op with
        | .read a n => decide (a = 0x8010#64 ∧ n = 2)
        | _ => false := by decide +kernel
  rw [h, Option.any_some, List.any_eq_true] at hread
  obtain ⟨op, hop, hread⟩ := hread
  cases op with
  | read a n =>
    obtain ⟨rfl, rfl⟩ := of_decide_eq_true hread
    exact absurd (hok _ hop 0 (by decide)) (by decide)
  | write ps a n => cases hread
  | store ps a => cases hread

end Osdev2.Efi
