import Osdev2.Efi.Fixed

/-!
# Segments and pages

`PageExact` is a firmware that gives exactly the free pages, at addresses of pages. With
it, a kernel at its own addresses whose pages are all free is loaded exactly if every
segment starts on a page (`fixed_placed_iff`): the loader asks for the size of the
segment from `p_vaddr` on, whatever the page `p_vaddr` is in.
-/

namespace Osdev2.Efi

open Osdev2.Lib

/-- The page number `p` is in the block. -/
def Block.page (b : Block) (p : Nat) : Prop :=
  b.addr.toNat / 4096 ≤ p ∧ p < b.addr.toNat / 4096 + b.pages

instance (b : Block) (p : Nat) : Decidable (b.page p) := inferInstanceAs (Decidable (_ ∧ _))

/-- `AllocatePages` at an address: it succeeds exactly if the address is one of a page, and
the pages from there on are free and not allocated before. -/
def Boot.PageExact (B : Boot) (free : Nat → Prop) : Prop :=
  ∀ ps n a, ¬EFI_ERROR (B.allocatePages ps .AllocateAddress n a).1 ↔ a.toNat % 4096 = 0 ∧
    ∀ i < n.toNat, free (a.toNat / 4096 + i) ∧ ∀ b ∈ ps, ¬b.page (a.toNat / 4096 + i)

/-- The page `p` has a byte of the segment. -/
def Segment.Touches (g : Segment) (p : Nat) : Prop :=
  ∃ k < g.memsz.toNat, (g.vaddr.toNat + k) / 4096 = p

def Segment.Aligned (g : Segment) : Prop := g.vaddr.toNat % 4096 = 0

section Pages

variable {B : Boot} {free : Nat → Prop} {g h : Segment} {gs us : List Segment} {ps ps' : List Block}

/-- From the start of a page on, the pages asked for are the ones with a byte of the segment. -/
theorem touches_iff (hg : g.Aligned) {p : Nat} : g.Touches p ↔
    g.vaddr.toNat / 4096 ≤ p ∧ p < g.vaddr.toNat / 4096 + (EFI_SIZE_TO_PAGES g.memsz).toNat := by
  unfold Segment.Aligned at hg
  rw [size_to_pages_toNat]
  constructor
  · rintro ⟨k, hk, rfl⟩
    omega
  · rintro ⟨h1, h2⟩
    exact ⟨4096 * (p - g.vaddr.toNat / 4096), by omega, by omega⟩

/-- Disjoint segments that start on pages have no page in common. -/
theorem not_touches (hg : g.Aligned) (hh : h.Aligned) (hwg : g.vaddr.toNat + g.memsz.toNat < 2 ^ 64)
    (hd : ∀ x, InRange g.vaddr g.memsz.toNat x → ¬InRange h.vaddr h.memsz.toNat x) {p : Nat}
    (hp : g.Touches p) : ¬h.Touches p := by
  intro hq
  rw [touches_iff hg, size_to_pages_toNat] at hp
  rw [touches_iff hh, size_to_pages_toNat] at hq
  unfold Segment.Aligned at hg hh
  -- the first byte of the page is in both
  have hx : (BitVec.ofNat 64 (4096 * p)).toNat = 4096 * p := by
    rw [BitVec.toNat_ofNat, Nat.mod_eq_of_lt (by omega)]
  refine hd (BitVec.ofNat 64 (4096 * p)) ?_ ?_
  · rw [InRange, BitVec.toNat_sub_of_le (by rw [BitVec.le_def, hx]; omega), hx]
    omega
  · rw [InRange, BitVec.toNat_sub_of_le (by rw [BitVec.le_def, hx]; omega), hx]
    omega

/-- The pages of a segment are granted exactly where the firmware has them. -/
theorem claim_iff (hP : B.PageExact free) : (∃ ps', B.claim false g.vaddr g.memsz ps = some ps') ↔
    g.Aligned ∧ ∀ i < (EFI_SIZE_TO_PAGES g.memsz).toNat,
      free (g.vaddr.toNat / 4096 + i) ∧ ∀ b ∈ ps, ¬b.page (g.vaddr.toNat / 4096 + i) := by
  have hans := hP ps (EFI_SIZE_TO_PAGES g.memsz) g.vaddr
  rw [Segment.Aligned, ← hans, Boot.claim, if_neg Bool.false_ne_true, Boot.granted]
  by_cases he : EFI_ERROR (B.allocatePages ps .AllocateAddress (EFI_SIZE_TO_PAGES g.memsz) g.vaddr).1
  · simp [he]
  · simp [he]

theorem claim_page (hB : B.Behaves) (hg : g.Aligned)
    (hc : B.claim false g.vaddr g.memsz ps = some ps') :
    ∃ b, ps' = b :: ps ∧ ∀ p, b.page p ↔ g.Touches p := by
  simp only [Boot.claim, Bool.false_eq_true, if_false, Option.map_eq_some_iff] at hc
  obtain ⟨b, hb, rfl⟩ := hc
  obtain ⟨he, haddr, hpages⟩ := granted_eq_some hb
  refine ⟨b, rfl, fun p => ?_⟩
  rw [touches_iff hg, Block.page, haddr, hB.fixed _ _ _ he, hpages]

/-- All segments on pages, all pages free: none is refused. -/
theorem claims_aligned (hB : B.Behaves) (hP : B.PageExact free)
    (halign : ∀ g ∈ us ++ gs, g.Aligned)
    (hwrap : ∀ g ∈ us ++ gs, g.vaddr.toNat + g.memsz.toNat < 2 ^ 64)
    (hdisj : (us ++ gs).Pairwise fun g h => ∀ x, InRange g.vaddr g.memsz.toNat x →
      ¬InRange h.vaddr h.memsz.toNat x)
    (hfree : ∀ g ∈ gs, ∀ p, g.Touches p → free p)
    (hps : ∀ b ∈ ps, ∃ g ∈ us, ∀ p, b.page p ↔ g.Touches p) : ∃ ps', B.claims gs ps = some ps' := by
  induction gs generalizing us ps with
  | nil => exact ⟨ps, rfl⟩
  | cons g gs ih =>
    have hg : g ∈ us ++ g :: gs := by simp
    have hclaim : ∃ ps', B.claim false g.vaddr g.memsz ps = some ps' := by
      rw [claim_iff hP]
      refine ⟨halign g hg, fun i hi => ?_⟩
      have hp : g.Touches (g.vaddr.toNat / 4096 + i) :=
        (touches_iff (halign g hg)).mpr ⟨Nat.le_add_right _ _, Nat.add_lt_add_left hi _⟩
      refine ⟨hfree g List.mem_cons_self _ hp, fun b hb hpage => ?_⟩
      obtain ⟨u, hu, hbu⟩ := hps b hb
      have hu' : u ∈ us ++ g :: gs := List.mem_append_left _ hu
      have hd := (List.pairwise_append.mp hdisj).2.2 u hu g List.mem_cons_self
      exact not_touches (halign u hu') (halign g hg) (hwrap u hu') hd
        ((hbu _).mp hpage) hp
    obtain ⟨ps1, hps1⟩ := hclaim
    obtain ⟨b, rfl, hb⟩ := claim_page hB (halign g hg) hps1
    rw [claims_cons, hps1, Option.bind_some]
    have happ : us ++ g :: gs = (us ++ [g]) ++ gs := by simp
    rw [happ] at halign hwrap hdisj
    refine ih halign hwrap hdisj (fun h hh => hfree h (List.mem_cons_of_mem _ hh))
      fun b' hb' => ?_
    rcases List.mem_cons.mp hb' with rfl | hb'
    · exact ⟨g, by simp, hb⟩
    · obtain ⟨u, hu, hbu⟩ := hps b' hb'
      exact ⟨u, List.mem_append_left _ hu, hbu⟩

theorem Covered.subset {a : Addr} {n : Nat} (hc : Covered ps a n) (hsub : ps ⊆ ps') :
    Covered ps' a n := by
  intro k hk
  obtain ⟨b, hb, hin⟩ := hc k hk
  exact ⟨b, hsub hb, hin⟩

theorem claims_subset (hc : B.claims gs ps = some ps') : ps ⊆ ps' := by
  induction gs generalizing ps with
  | nil =>
    cases hc
    exact List.Subset.refl _
  | cons g gs ih =>
    rw [claims_cons, Option.bind_eq_some_iff] at hc
    obtain ⟨qs, hg, hgs⟩ := hc
    simp only [Boot.claim, Bool.false_eq_true, if_false, Option.map_eq_some_iff] at hg
    obtain ⟨b, -, rfl⟩ := hg
    exact List.Subset.trans (List.subset_cons_self b ps) (ih hgs)

/-- The granted pages: every segment starts on one of its own, and is inside. -/
theorem claims_placed (hB : B.Behaves) (hP : B.PageExact free) (hc : B.claims gs ps = some ps') :
    ∀ g ∈ gs, g.Aligned ∧ Covered ps' g.vaddr g.memsz.toNat := by
  induction gs generalizing ps with
  | nil => exact fun g hg => by cases hg
  | cons a gs ih =>
    rw [claims_cons, Option.bind_eq_some_iff] at hc
    obtain ⟨qs, ha, hgs⟩ := hc
    intro g hg
    rcases List.mem_cons.mp hg with rfl | hg
    · exact ⟨((claim_iff hP).mp ⟨qs, ha⟩).1, (covered_fixed hB ha).subset (claims_subset hgs)⟩
    · exact ih hgs g hg

/-- **Where a kernel at its own addresses is loaded.** -/
theorem fixed_placed_iff (hB : B.Behaves) (ho : B.opened) (hP : B.PageExact free)
    (hf : WellFormed B.read.2) (hacc : Accepted B.read.2) (hpie : isPie B.read.2 = false)
    (hfree : ∀ g ∈ loads B.read.2, ∀ p, g.Touches p → free p) (m : Mem64) :
    (∃ r s ops, load_elf B m = some (.ok r, s, ops) ∧
      ∀ g ∈ loads B.read.2, Covered s.pages g.vaddr g.memsz.toNat) ↔
    ∀ g ∈ loads B.read.2, g.Aligned := by
  obtain ⟨r, s, ops, hrun, hcl⟩ := load_elf_fixed hB hf.headersOk ho hacc hpie m
  constructor
  · rintro ⟨r', s', ops', hrun', -⟩ g hg
    cases hrun.symm.trans hrun'
    exact (claims_placed hB hP hcl g hg).1
  · intro halign
    have hgrant : ∃ ps', B.claims (loads B.read.2) [] = some ps' :=
      claims_aligned hB hP (List.nil_append (loads B.read.2) ▸ halign) hf.wrap hf.disjoint hfree
        fun b hb => by cases hb
    obtain ⟨ps', hps'⟩ := hgrant
    cases r with
    | ok r => exact ⟨r, s, ops, hrun, fun g hg => (claims_placed hB hP hcl g hg).2⟩
    | error e =>
      have hnone := Boot.Refuses.claims_eq_none hcl
      rw [hps'] at hnone
      cases hnone

end Pages

/-! ## Two segments in one page -/

section Sample

/-- A kernel of two segments, each the first 16 bytes of the file. -/
def fixedKernel (vaddr vaddr' : Nat) : List Byte :=
  le 8 0x102464C457F ++ le 8 0 ++ le 2 2 ++ le 2 183 ++ le 4 1 ++ le 8 vaddr ++ le 8 64 ++ le 8 0 ++
    le 4 0 ++ le 2 64 ++ le 2 56 ++ le 2 2 ++ le 2 0 ++ le 2 0 ++ le 2 0 ++
  samplePhdr 1 0 vaddr 16 ++ samplePhdr 1 0 vaddr' 16

/-- The free pages of `pageBoot`: the second megabyte. -/
def samplePages (p : Nat) : Prop := 0x100 ≤ p ∧ p < 0x200

instance (p : Nat) : Decidable (samplePages p) := inferInstanceAs (Decidable (_ ∧ _))

/-- The calls that `pageBoot` grants. -/
def PageGrant (ps : List Block) (type : AllocateType) (n : BitVec 64) (a : Addr) : Prop :=
  type = .AllocateAddress ∧ a.toNat % 4096 = 0 ∧ ∀ i < n.toNat,
    samplePages (a.toNat / 4096 + i) ∧ ∀ b ∈ ps, ¬b.page (a.toNat / 4096 + i)

instance pageGrantDecidable (ps : List Block) (type : AllocateType) (n : BitVec 64) (a : Addr) :
    Decidable (PageGrant ps type n a) := inferInstanceAs (Decidable (_ ∧ _))

/-- A firmware with the file at 0x8000, that gives its free pages at their addresses. -/
def pageBoot (file : List Byte) : Boot where
  infoPool := 0
  getInfo := (0, BitVec.ofNat 64 file.length)
  dataPool := (0, 0x8000#64)
  read := (0, file)
  allocatePages ps type n a := if PageGrant ps type n a then (0, a) else (0x800000000000000E#64, 0)

theorem pageBoot_grants {file : List Byte} {ps : List Block} {type : AllocateType} {n : BitVec 64}
    {a : Addr} : ¬EFI_ERROR ((pageBoot file).allocatePages ps type n a).1 ↔ PageGrant ps type n a := by
  simp only [pageBoot]
  by_cases h : PageGrant ps type n a
  · rw [if_pos h]
    exact iff_of_true (show ¬EFI_ERROR 0 = true by decide) h
  · rw [if_neg h]
    exact iff_of_false (by decide) h

theorem pageBoot_addr {file : List Byte} {ps : List Block} {type : AllocateType} {n : BitVec 64}
    {a : Addr} (h : PageGrant ps type n a) : ((pageBoot file).allocatePages ps type n a).2 = a := by
  simp only [pageBoot, if_pos h]

theorem pageBoot_opened (file : List Byte) : (pageBoot file).opened := by
  refine ⟨?_, ?_, ?_, ?_⟩
  all_goals change ¬EFI_ERROR 0 = true
  all_goals decide

theorem pageBoot_exact (file : List Byte) : (pageBoot file).PageExact samplePages := fun _ _ _ =>
  pageBoot_grants.trans (and_iff_right rfl)

theorem pageBoot_behaves {file : List Byte} (h : file.length ≤ 0x8000) :
    (pageBoot file).Behaves where
  read := by
    simp only [pageBoot, BitVec.toNat_ofNat]
    omega
  free ps type n a hok x hx hin := by
    have hgrant := pageBoot_grants.mp hok
    rw [pageBoot_addr hgrant, InRange] at hx
    obtain ⟨-, halign, hpages⟩ := hgrant
    have hlen : (BitVec.ofNat 64 file.length).toNat ≤ 0x8000 := by
      rw [BitVec.toNat_ofNat]
      exact Nat.le_trans (Nat.mod_le _ _) h
    have hin : (x - 0x8000#64).toNat < (BitVec.ofNat 64 file.length).toNat := hin
    have hfirst := (hpages 0 (by omega)).1
    have hlast := (hpages (n.toNat - 1) (by omega)).1
    unfold samplePages at hfirst hlast
    rw [BitVec.toNat_sub, BitVec.toNat_ofNat] at hin
    rw [BitVec.toNat_sub] at hx
    omega
  fixed ps n a hok := pageBoot_addr (pageBoot_grants.mp hok)

theorem fixedKernel_wellFormed {f : List Byte} {vaddr : BitVec 64} (hlen : f.length = 176)
    (hnum : fileField f 0 e_phnum = 2#64) (hent : fileField f 0 e_phentsize = 56#64)
    (hoff : fileField f 0 e_phoff = 64#64)
    (hloads : loads f = [⟨1#64, 0, 0x100000#64, 16#64, 16#64⟩, ⟨1#64, 0, vaddr, 16#64, 16#64⟩])
    (hlo : 0x100010 ≤ vaddr.toNat) (hhi : vaddr.toNat < 0x200000) : WellFormed f where
  header := by omega
  int := by rw [hnum, hent]; decide
  table i hi := by
    rw [hnum] at hi
    have hi : i < 2 := hi
    rw [hoff, hent, hlen]
    simp only [BitVec.toNat_ofNat]
    omega
  file := by
    rw [hloads, List.forall_mem_cons, List.forall_mem_singleton, hlen]
    exact ⟨by decide, show 0 + 16 ≤ 176 by decide⟩
  size := by
    rw [hloads, List.forall_mem_cons, List.forall_mem_singleton]
    exact ⟨by decide, BitVec.le_refl _⟩
  wrap := by
    rw [hloads, List.forall_mem_cons, List.forall_mem_singleton]
    refine ⟨by decide, ?_⟩
    simp only [BitVec.toNat_ofNat]
    omega
  disjoint := by
    rw [hloads, List.pairwise_pair]
    intro x hx hx'
    simp only [InRange, BitVec.toNat_sub, BitVec.toNat_ofNat] at hx hx'
    omega

/-- The second segment starts in the page of the first. -/
def sharedKernel : List Byte := fixedKernel 0x100000 0x100010

theorem loads_sharedKernel : loads sharedKernel =
    [⟨1#64, 0, 0x100000#64, 16#64, 16#64⟩, ⟨1#64, 0, 0x100010#64, 16#64, 16#64⟩] := by
  decide +kernel

theorem sharedKernel_wellFormed : WellFormed sharedKernel :=
  fixedKernel_wellFormed (by decide +kernel) (by decide +kernel) (by decide +kernel)
    (by decide +kernel) loads_sharedKernel (by decide) (by decide)

theorem sharedKernel_accepted : Accepted sharedKernel := by
  unfold Accepted
  decide +kernel

theorem sharedKernel_free : ∀ g ∈ loads sharedKernel, ∀ p, g.Touches p → samplePages p := by
  rw [loads_sharedKernel, List.forall_mem_cons, List.forall_mem_singleton]
  constructor
  · rintro _ ⟨k, hk, rfl⟩
    have hk : k < 16 := hk
    change 0x100 ≤ (0x100000 + k) / 4096 ∧ (0x100000 + k) / 4096 < 0x200
    omega
  · rintro _ ⟨k, hk, rfl⟩
    have hk : k < 16 := hk
    change 0x100 ≤ (0x100010 + k) / 4096 ∧ (0x100010 + k) / 4096 < 0x200
    omega

theorem fixed_placed_iff_shared :
    (∃ r s ops, load_elf (pageBoot sharedKernel) (fun _ => 0) = some (.ok r, s, ops) ∧
      ∀ g ∈ loads sharedKernel, Covered s.pages g.vaddr g.memsz.toNat) ↔
    ∀ g ∈ loads sharedKernel, g.Aligned :=
  fixed_placed_iff (pageBoot_behaves (by decide +kernel)) (pageBoot_opened _) (pageBoot_exact _)
    sharedKernel_wellFormed sharedKernel_accepted (by decide +kernel) sharedKernel_free _

/-- All its pages are free, and the loader fails at the second segment. -/
theorem fixed_placed_not : ¬∀ (B : Boot) (free : Nat → Prop) m, B.Behaves → B.opened →
    B.PageExact free → WellFormed B.read.2 → Accepted B.read.2 → isPie B.read.2 = false →
    (∀ g ∈ loads B.read.2, ∀ p, g.Touches p → free p) →
    ∃ r s ops, load_elf B m = some (.ok r, s, ops) ∧
      ∀ g ∈ loads B.read.2, Covered s.pages g.vaddr g.memsz.toNat := by
  intro H
  obtain ⟨r, s, ops, hrun, -⟩ := H (pageBoot sharedKernel) samplePages (fun _ => 0)
    (pageBoot_behaves (by decide +kernel)) (pageBoot_opened _) (pageBoot_exact _)
    sharedKernel_wellFormed sharedKernel_accepted (by decide +kernel) sharedKernel_free
  have herr : (load_elf (pageBoot sharedKernel) fun _ => 0).any fun t => !t.1.toOption.isSome := by
    decide +kernel
  rw [hrun] at herr
  cases herr

end Sample

end Osdev2.Efi
