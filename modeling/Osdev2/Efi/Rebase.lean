import Osdev2.Efi.Safety

/-!
# The image at another base

`virtualImage` is the image at the addresses of the file, and `ValidDyn` what a valid
position-independent file has in it: a dynamic section, a relocation table, and the words
it relocates, clear of both. What the loader reads from the image is then the same at every
base (`relaInfo_shift`, `relocated_shift`), and what it leaves there is `rebased`.
-/

namespace Osdev2.Efi

open Osdev2.Lib

/-! ## The image at its own addresses -/

section Virtual

variable {f : List Byte} {base v : Addr} {m m' : Mem64}

/-- `total_size`. -/
def imageSize (f : List Byte) : BitVec 64 := (vaddrRange f).2 - (vaddrRange f).1

/-- An address of the image. -/
def InImage (f : List Byte) (v : Addr) : Prop :=
  InRange (vaddrRange f).1 (imageSize f).toNat v

/-- The image at the addresses of the file, zeros around it. -/
def virtualImage (f : List Byte) : Mem64 := image f 0 fun _ => 0

theorem place_shift (g : Segment) : Segment.place f base m g (base + v) =
    Segment.place f 0 (fun v => m (base + v)) g v := by
  simp only [Segment.place, add_sub_add_left_eq_sub, zero_add]

theorem foldl_place_shift (gs : List Segment) : ∀ m : Mem64,
    gs.foldl (Segment.place f base) m (base + v) =
      gs.foldl (Segment.place f 0) (fun v => m (base + v)) v := by
  induction gs with
  | nil => exact fun _ => rfl
  | cons g gs ih =>
    intro m
    have hstep : (fun v => Segment.place f base m g (base + v)) =
        Segment.place f 0 (fun v => m (base + v)) g := funext fun v => place_shift g
    rw [List.foldl_cons, List.foldl_cons, ih, hstep]

/-- A byte of the image depends on memory at its own address only. -/
theorem foldl_place_congr (gs : List Segment) (h : m v = m' v) :
    gs.foldl (Segment.place f base) m v = gs.foldl (Segment.place f base) m' v := by
  induction gs generalizing m m' with
  | nil => exact h
  | cons g gs ih =>
    rw [List.foldl_cons, List.foldl_cons]
    apply ih
    simp only [Segment.place, h]

/-- Before the relocations the loaded image is the file's, shifted. -/
theorem kernelImage_shift {B : Boot} (hp : isPie B.read.2 = true) (hv : InImage B.read.2 v) :
    B.kernelImage base m (base + v) = virtualImage B.read.2 v := by
  rw [Boot.kernelImage, hp, image, foldl_place_shift]
  apply foldl_place_congr
  exact if_pos (inRange_base.mpr hv)

end Virtual

/-! ## The relocations of the file -/

section File

variable (f : List Byte) (n : Nat)

/-- `DT_RELA`, `DT_RELASZ` and `DT_RELAENT`, the dynamic section having `n` entries. -/
def fileRela : RelaInfo :=
  match dynHeader f (offsets f) with
  | none => ⟨0, 0, 0⟩
  | some o => relaInfo (virtualImage f) (fileField f o p_vaddr) n

def relaCount : Nat := (fileRela f n).size.toNat / 24

def entryAt (i : Nat) : Addr := relaAt (fileRela f n).addr i

/-- The entry `i` of the table is an `R_AARCH64_RELATIVE`. -/
def Relative (i : Nat) : Prop := i < relaCount f n ∧ IsRelative (virtualImage f) (entryAt f n i)

def target (i : Nat) : Addr := field (virtualImage f) (entryAt f n i) r_offset

def addend (i : Nat) : BitVec 64 := field (virtualImage f) (entryAt f n i) r_addend

/-- The two ranges have no byte in common. -/
def Clear (a : Addr) (k : Nat) (b : Addr) (l : Nat) : Prop := ∀ x, InRange a k x → ¬InRange b l x

def Within (a : Addr) (k : Nat) : Prop := ∀ x, InRange a k x → InImage f x

/-- A position-independent file the loader is meant for: the dynamic section, of `n`
entries and a `DT_NULL`, and the relocation table are in the image, and so are the
words relocated, which overlap neither these two nor one another. -/
structure ValidDyn : Prop where
  wellFormed : WellFormed f
  accepted : Accepted f
  pie : isPie f = true
  dynamic : ∀ o, dynHeader f (offsets f) = some o →
    DynEnd (virtualImage f) (fileField f o p_vaddr) n ∧
      Within f (fileField f o p_vaddr) (16 * (n + 1)) ∧
      ∀ i, Relative f n i → Clear (target f n i) 8 (fileField f o p_vaddr) (16 * (n + 1))
  rela : ∀ o, dynHeader f (offsets f) = some o → (fileRela f n).size ≠ 0 →
    ∃ k < n, field (virtualImage f) (dynAt (fileField f o p_vaddr) k) d_tag = DT_RELA
  ent : (fileRela f n).size ≠ 0 → (fileRela f n).ent = 24#64
  table : 0 < relaCount f n → Within f (fileRela f n).addr (24 * relaCount f n)
  targets : ∀ i, Relative f n i → Within f (target f n i) 8 ∧
    Clear (target f n i) 8 (fileRela f n).addr (24 * relaCount f n)
  disjoint : ∀ i j, Relative f n i → Relative f n j → i ≠ j →
    Clear (target f n i) 8 (target f n j) 8

/-- The image after the first relocations, at `base`. -/
def rebased (base : Addr) : Nat → Mem64
  | 0 => virtualImage f
  | i + 1 => if IsRelative (virtualImage f) (entryAt f n i) then
      store64 (rebased base i) (target f n i) (base + addend f n i)
    else rebased base i

end File

section Rebased

variable {f : List Byte} {n i j : Nat} {base x : Addr}

theorem rebased_other (hx : ∀ j < i, Relative f n j → ¬InRange (target f n j) 8 x)
    (hi : i ≤ relaCount f n) : rebased f n base i x = virtualImage f x := by
  induction i with
  | zero => rfl
  | succ i ih =>
    have hrest := ih (fun j hj => hx j (by omega)) (by omega)
    rw [rebased]
    split
    · rename_i hrel
      rw [store64_apply_out (hx i (by omega) ⟨by omega, hrel⟩), hrest]
    · exact hrest

/-- A relocated word holds its value to the end. -/
theorem load64_rebased (hf : ValidDyn f n) (hj : Relative f n j) (hji : j < i)
    (hi : i ≤ relaCount f n) :
    load64 (rebased f n base i) (target f n j) = base + addend f n j := by
  induction i with
  | zero => exact absurd hji (Nat.not_lt_zero j)
  | succ i ih =>
    rw [rebased]
    rcases Nat.eq_or_lt_of_le (Nat.le_of_lt_succ hji) with rfl | hlt
    · rw [if_pos hj.2, load64_store64]
    · rw [← ih hlt (by omega)]
      split
      · rename_i hrel
        refine load64_congr fun k hk => store64_apply_out ?_
        exact hf.disjoint j i hj ⟨by omega, hrel⟩ (by omega) _ (inRange_add hk (by omega))
      · rfl

end Rebased

/-! ## The relocations in memory -/

section Memory

variable {f : List Byte} {n i : Nat} {base v p : Addr} {m m' : Mem64} {fld : Field}

theorem field_shift (h : ∀ k < fld.size, m (base + (p + BitVec.ofNat 64 (fld.off + k))) =
    m' (p + BitVec.ofNat 64 (fld.off + k))) : field m (base + p) fld = field m' p fld := by
  rw [field, field]
  congr 1
  refine loadLE_congr fun k hk => ?_
  have hk := h k hk
  rw [BitVec.ofNat_add, ← BitVec.add_assoc p, ← BitVec.add_assoc, ← BitVec.add_assoc] at hk
  exact hk

theorem store64_shift (w : BitVec 64) (h : m (base + v) = m' v) :
    store64 m (base + p) w (base + v) = store64 m' p w v := by
  simp only [store64, inRange_base, add_sub_add_left_eq_sub, h]

theorem dynAt_shift (d : Addr) (k : Nat) : dynAt (base + d) k = base + dynAt d k :=
  BitVec.add_assoc _ _ _

theorem relaAt_shift (r : Addr) (k : Nat) : relaAt (base + r) k = base + relaAt r k :=
  BitVec.add_assoc _ _ _

theorem inRange_relaAt {r : Addr} {count k : Nat} (hi : i < count) (hk : k < 24)
    (hcount : 24 * count < 2 ^ 64) : InRange r (24 * count) (relaAt r i + BitVec.ofNat 64 k) := by
  rw [relaAt, BitVec.add_assoc, ← BitVec.ofNat_add]
  exact inRange_add (by omega) (by omega)

theorem inRange_dynAt {d : Addr} {k l : Nat} (hk : k ≤ n) (hl : l < 16)
    (hn : 16 * (n + 1) ≤ 2 ^ 64) : InRange d (16 * (n + 1)) (dynAt d k + BitVec.ofNat 64 l) := by
  rw [dynAt, BitVec.add_assoc, ← BitVec.ofNat_add]
  exact inRange_add (by omega) hn

/-- The memory `m` has the image at `base`. -/
def Shows (f : List Byte) (base : Addr) (m : Mem64) : Prop :=
  ∀ v, InImage f v → m (base + v) = virtualImage f v

/-- The dynamic section reads the same at every base. -/
theorem dyn_field (hm : Shows f base m) {d : Addr} (hd : Within f d (16 * (n + 1)))
    (hn : 16 * (n + 1) ≤ 2 ^ 64) {k : Nat} (hk : k ≤ n) (hfld : fld.off + fld.size ≤ 16) :
    field m (dynAt (base + d) k) fld = field (virtualImage f) (dynAt d k) fld := by
  rw [dynAt_shift]
  exact field_shift fun l hl => hm _ (hd _ (inRange_dynAt hk (by omega) hn))

theorem DynEnd.shift (hm : Shows f base m) {d : Addr} (hd : Within f d (16 * (n + 1)))
    (hn : 16 * (n + 1) ≤ 2 ^ 64) (h : DynEnd (virtualImage f) d n) : DynEnd m (base + d) n := by
  refine ⟨?_, fun k hk => ?_⟩
  · rw [dyn_field hm hd hn (Nat.le_refl n) (by decide)]
    exact h.1
  · rw [dyn_field hm hd hn (Nat.le_of_lt hk) (by decide)]
    exact h.2 k hk

theorem dynValue_shift (hm : Shows f base m) {d : Addr} (hd : Within f d (16 * (n + 1)))
    (hn : 16 * (n + 1) ≤ 2 ^ 64) (tag : BitVec 64) {k : Nat} (hk : k ≤ n) :
    dynValue m (base + d) tag k = dynValue (virtualImage f) d tag k := by
  induction k with
  | zero => rfl
  | succ k ih =>
    rw [dynValue, dynValue, dyn_field hm hd hn (by omega) (by decide),
      dyn_field hm hd hn (by omega) (by decide), ih (by omega)]

theorem relaInfo_shift (hm : Shows f base m) {d : Addr} (hd : Within f d (16 * (n + 1)))
    (hn : 16 * (n + 1) ≤ 2 ^ 64) : relaInfo m (base + d) n = relaInfo (virtualImage f) d n := by
  simp only [relaInfo, dynValue_shift hm hd hn _ (Nat.le_refl n)]

/-- The table is not relocated: its entries are those of the file when their turn comes. -/
theorem rela_field (hf : ValidDyn f n) (hi : i < relaCount f n) {j : Nat} (hj : j ≤ relaCount f n)
    (hm : ∀ v, InImage f v → m (base + v) = rebased f n base j v)
    (hfld : fld.off + fld.size ≤ 24) :
    field m (relaAt (base + (fileRela f n).addr) i) fld =
      field (virtualImage f) (entryAt f n i) fld := by
  have hcount : 24 * relaCount f n < 2 ^ 64 := by
    have hsize := (fileRela f n).size.isLt
    unfold relaCount
    omega
  rw [relaAt_shift]
  refine field_shift fun l hl => ?_
  have hin := inRange_relaAt (r := (fileRela f n).addr) hi (k := fld.off + l) (by omega) hcount
  rw [hm _ (hf.table (by omega) _ hin)]
  exact rebased_other (fun k _ hk hx => (hf.targets k hk).2 _ hx hin) hj

theorem relocated_succ (hf : ValidDyn f n) (hi : i < relaCount f n) (hm : ∀ v, InImage f v →
    relocated base (base + (fileRela f n).addr) m i (base + v) = rebased f n base i v) :
    relocated base (base + (fileRela f n).addr) m (i + 1) =
      if IsRelative (virtualImage f) (entryAt f n i) then
        store64 (relocated base (base + (fileRela f n).addr) m i) (base + target f n i)
          (base + addend f n i)
      else relocated base (base + (fileRela f n).addr) m i := by
  have hfield := fun fld => @rela_field f n i base _ fld hf hi i (Nat.le_of_lt hi) hm
  simp only [relocated, IsRelative, hfield r_info (by decide), hfield r_offset (by decide),
    hfield r_addend (by decide), target, addend]
  exact if_congr Iff.rfl rfl rfl

/-- **The loaded image after the first relocations.** -/
theorem relocated_shift (hf : ValidDyn f n) (hm : Shows f base m) (hi : i ≤ relaCount f n) :
    ∀ v, InImage f v →
      relocated base (base + (fileRela f n).addr) m i (base + v) = rebased f n base i v := by
  induction i with
  | zero => exact hm
  | succ i ih =>
    have ih := ih (by omega)
    intro v hv
    rw [relocated_succ hf (by omega) ih, rebased]
    split
    · exact store64_shift _ (ih v hv)
    · exact ih v hv

theorem relocated_other (hf : ValidDyn f n) (hm : Shows f base m) (hi : i ≤ relaCount f n) {x : Addr}
    (hx : ∀ j, Relative f n j → ¬InRange (base + target f n j) 8 x) :
    relocated base (base + (fileRela f n).addr) m i x = m x := by
  induction i with
  | zero => rfl
  | succ i ih =>
    have ih := ih (by omega)
    rw [relocated_succ hf (by omega) (relocated_shift hf hm (by omega))]
    split
    · rename_i hrel
      rw [store64_apply_out (hx i ⟨by omega, hrel⟩), ih]
    · exact ih

end Memory

/-! ## The loaded file -/

section Loaded

variable {B : Boot} {f : List Byte} {n : Nat} {a base o : Addr} {m : Mem64} {ps : List Block}

/-- The pages cover the image at `base`. -/
def Covers (f : List Byte) (ps : List Block) (base : Addr) : Prop :=
  ∀ v, InImage f v → ∃ b ∈ ps, InRange b.addr (4096 * b.pages) (base + v)

theorem Covers.within (hc : Covers f ps base) {t : Addr} {k : Nat} (hk : k ≤ 2 ^ 64)
    (ht : Within f t k) : Covered ps (base + t) k := by
  intro l hl
  rw [BitVec.add_assoc]
  exact hc _ (ht _ (inRange_add hl hk))

theorem fileRela_eq (ho : dynHeader f (offsets f) = some o) :
    fileRela f n = relaInfo (virtualImage f) (fileField f o p_vaddr) n := by
  rw [fileRela, ho]

theorem dynAddr_eq (ho : dynHeader f (offsets f) = some o) :
    dynAddr f base (offsets f) = base + fileField f o p_vaddr := by
  rw [dynAddr, ho]

/-- What the loop over the dynamic section finds in the image. -/
theorem ValidDyn.found (hf : ValidDyn f n) (hm : Shows f base m)
    (ho : dynHeader f (offsets f) = some o) :
    DynEnd m (base + fileField f o p_vaddr) n ∧
      relaInfo m (base + fileField f o p_vaddr) n = fileRela f n := by
  obtain ⟨hend, hin, -⟩ := hf.dynamic o ho
  have hn : 16 * (n + 1) ≤ 2 ^ 64 := by
    have := hend.lt
    omega
  exact ⟨hend.shift hm hin hn, (relaInfo_shift hm hin hn).trans (fileRela_eq ho).symm⟩

theorem ValidDyn.count (hf : ValidDyn f n) (hsize : (fileRela f n).size ≠ 0) :
    (fileRela f n).size.toNat / (fileRela f n).ent.toNat = relaCount f n := by
  rw [hf.ent hsize, relaCount]
  rfl

theorem ValidDyn.dynamicOk (hf : ValidDyn f n) (hm : Shows f base m) (hc : Covers f ps base)
    (ho : dynHeader f (offsets f) = some o) :
    DynamicOk ps base (base + fileField f o p_vaddr) m := by
  obtain ⟨hend, hinfo⟩ := hf.found hm ho
  refine ⟨n, hend, ?_⟩
  rw [hinfo]
  dsimp only
  rintro ⟨-, hsize, -⟩ i hi hrel
  rw [hf.count hsize] at hi
  have hfield := fun fld => @rela_field f n i base _ fld hf hi i (Nat.le_of_lt hi)
    (relocated_shift hf hm (Nat.le_of_lt hi))
  rw [IsRelative, hfield r_info (by decide)] at hrel
  rw [hfield r_offset (by decide)]
  exact hc.within (by omega) (hf.targets i ⟨hi, hrel⟩).1

theorem ValidDyn.applied_eq (hf : ValidDyn f n) (hm : Shows f base m)
    (ho : dynHeader f (offsets f) = some o) :
    applied base (base + fileField f o p_vaddr) m n =
      if (fileRela f n).addr ≠ 0 then relocated base (base + (fileRela f n).addr) m (relaCount f n)
      else m := by
  rw [applied, (hf.found hm ho).2]
  by_cases haddr : (fileRela f n).addr ≠ 0
  · rw [if_pos haddr]
    by_cases hsize : (fileRela f n).size ≠ 0
    · have hent : (fileRela f n).ent ≠ 0 := by
        rw [hf.ent hsize]
        decide
      rw [if_pos ⟨haddr, hsize, hent⟩, hf.count hsize]
    · have hzero : relaCount f n = 0 := by
        rw [relaCount, not_ne_iff.mp hsize]
        rfl
      rw [if_neg fun h => hsize h.2.1, hzero]
      rfl
  · rw [if_neg haddr, if_neg fun h => haddr h.1]

/-- The loader finds the relocations of the file at `base`. -/
def Found (f : List Byte) (n : Nat) (base : Addr) : Prop :=
  dynAddr f base (offsets f) ≠ 0 ∧ (fileRela f n).addr ≠ 0

instance (f : List Byte) (n : Nat) (base : Addr) : Decidable (Found f n base) :=
  inferInstanceAs (Decidable (_ ∧ _))

/-- The words relocated are not in the file buffer. -/
theorem ValidDyn.buffer_kept {s : Store} {d : Addr} (hf : ValidDyn f n) (hr : Ready d f s)
    (hc : Covers f s.pages base) (hm : Shows f base s.mem) {k : Addr} (hk : k.toNat < f.length) :
    relocated base (base + (fileRela f n).addr) s.mem (relaCount f n) (d + k) = s.mem (d + k) := by
  refine relocated_other hf hm (Nat.le_refl _) fun j hj hin => ?_
  obtain ⟨b, hb, hx⟩ := (hc.within (by omega) (hf.targets j hj).1).inRange _ hin
  exact hr.free b hb _ hx (inRange_self_add.mpr hk)

theorem dynAddr_none (ho : dynHeader f (offsets f) = none) : dynAddr f base (offsets f) = 0 := by
  rw [dynAddr, ho]

theorem ValidDyn.spec_relocate {s : Store} {d : Addr} (hf : ValidDyn f n) (hlen : f.length < 2 ^ 64)
    (hr : Ready d f s) (hc : Covers f s.pages base) (hm : Shows f base s.mem) :
    Spec (Op.Ok d f.length) (relocate d base) s True fun r s' => r = .ok () ∧
      s'.mem = if Found f n base then
        relocated base (base + (fileRela f n).addr) s.mem (relaCount f n) else s.mem := by
  have hh := hf.wellFormed.headersOk
  have hspec := @Efi.spec_relocate d base f s hr (hh.read hlen) (hh.measured hlen)
  refine (hspec.congr (iff_true_intro ⟨fun o ho => ?_, fun hd => ?_⟩)).mono ?_
  · exact hh.has_phdr hlen (List.mem_of_find?_eq_some ho) (by decide)
  · cases ho : dynHeader f (offsets f) with
    | none => exact absurd (dynAddr_none ho) hd
    | some o =>
      rw [dynAddr_eq ho]
      exact hf.dynamicOk hm hc ho
  · rintro r s' - ⟨rfl, hmem⟩
    refine ⟨rfl, ?_⟩
    by_cases hd : dynAddr f base (offsets f) ≠ 0
    · rw [if_pos hd] at hmem
      cases ho : dynHeader f (offsets f) with
      | none => exact absurd (dynAddr_none ho) hd
      | some o =>
        rw [dynAddr_eq ho] at hmem
        rw [hmem n (hf.found hm ho).1, hf.applied_eq hm ho]
        exact if_congr (and_iff_right hd).symm rfl rfl
    · rw [if_neg hd] at hmem
      rw [hmem, if_neg fun h => hd h.1]

end Loaded

/-! ## A whole run -/

section Run

variable {B : Boot} {n : Nat} {a : Addr}

/-- `AllocatePages` has `a` for the image. -/
def Boot.Gives (B : Boot) (a : Addr) : Prop :=
  ∃ b, B.granted [] .AllocateAnyPages (EFI_SIZE_TO_PAGES (imageSize B.read.2)) 0 = some b ∧ b.addr = a

/-- `base_addr`, with the image at `a`. -/
def baseOf (f : List Byte) (a : Addr) : Addr := a - (vaddrRange f).1

/-- The image when `load_elf` is done. -/
def finalImage (f : List Byte) (n : Nat) (base : Addr) : Mem64 :=
  if Found f n base then rebased f n base (relaCount f n) else virtualImage f

theorem Boot.Gives.kernelBase (hg : B.Gives a) (hp : isPie B.read.2 = true) :
    ∃ ps, B.kernelBase = some (baseOf B.read.2 a, ps) ∧ Covers B.read.2 ps (baseOf B.read.2 a) := by
  obtain ⟨b, hb, rfl⟩ := hg
  refine ⟨[b], ?_, fun v hv => ⟨b, List.mem_singleton_self b, ?_⟩⟩
  · rw [Boot.kernelBase, Boot.placed, hp, if_pos rfl]
    exact Option.map_eq_some_iff.mpr ⟨b, hb, rfl⟩
  · have hle := le_pages (imageSize B.read.2)
    have hv : (v - (vaddrRange B.read.2).1).toNat < (imageSize B.read.2).toNat := hv
    have haddr : baseOf B.read.2 b.addr + v = b.addr + (v - (vaddrRange B.read.2).1) := by
      unfold baseOf
      ring
    rw [haddr, inRange_self_add, (granted_eq_some hb).2.2]
    omega

/-- **A run of the loader on a valid file.** -/
theorem load_elf_rebased (hB : B.Behaves) (ho : B.opened) (hf : ValidDyn B.read.2 n)
    (hg : B.Gives a) (m : Mem64) : ∃ s ops, load_elf B m = some (.ok
        ⟨baseOf B.read.2 a + fileField B.read.2 0 e_entry, baseOf B.read.2 a⟩, s, ops) ∧
      ∀ v, InImage B.read.2 v →
        s.mem (baseOf B.read.2 a + v) = finalImage B.read.2 n (baseOf B.read.2 a) v := by
  have hlen : B.read.2.length < 2 ^ 64 := Nat.lt_of_le_of_lt hB.read B.getInfo.2.isLt
  have hh := hf.wellFormed.headersOk
  obtain ⟨ps, hk, hcov⟩ := hg.kernelBase hf.pie
  -- the passes
  obtain ⟨r1, s1, l1, h1, -, himg⟩ :=
    (spec_load_segments hB (ready_filled B m) rfl).run (passesOk hB hf.wellFormed)
  cases r1 with
  | error e =>
    rw [himg hf.accepted hf.pie] at hk
    cases hk
  | ok res =>
    obtain ⟨-, base, ps', hk', rfl, hr, hmem, hp⟩ := himg
    obtain ⟨rfl, rfl⟩ := Prod.mk.inj (Option.some.inj (hk.symm.trans hk'))
    rw [← hp hf.pie] at hcov
    have hshows : Shows B.read.2 (baseOf B.read.2 a) s1.mem := fun v hv => by
      rw [hmem]
      exact kernelImage_shift hf.pie hv
    -- the relocations
    obtain ⟨r2, s2, l2, h2, -, rfl, hm2⟩ := (hf.spec_relocate hlen hr hcov hshows).run trivial
    have hentry : field s2.mem B.dataPool.2 e_entry = fileField B.read.2 0 e_entry := by
      have hfield := field_buffered (o := 0) hr (hh.read hlen).2.2.2
      rw [show B.dataPool.2 + 0 = B.dataPool.2 from BitVec.add_zero _] at hfield
      rw [← hfield]
      refine field_congr fun k hk => ?_
      rw [hm2]
      split
      · refine hf.buffer_kept hr hcov hshows ?_
        have hk : k < 8 := hk
        have hheader := hh.header
        change (BitVec.ofNat 64 (24 + k)).toNat < _
        rw [BitVec.toNat_ofNat]
        omega
      · rfl
    have htail : (do
        (if true then relocate B.dataPool.2 (baseOf B.read.2 a) else pure ())
        let entry ← load B.dataPool.2 e_entry
        pure (⟨baseOf B.read.2 a + entry, baseOf B.read.2 a⟩ : Loaded)) s1 =
        some (.ok ⟨baseOf B.read.2 a + fileField B.read.2 0 e_entry, baseOf B.read.2 a⟩, s2,
          l2 ++ [.read (B.dataPool.2 + BitVec.ofNat 64 24) 8]) := by
      rw [if_pos rfl, Traced.bind_ok h2, ← hentry]
      rfl
    refine ⟨s2, l1 ++ (l2 ++ [.read (B.dataPool.2 + BitVec.ofNat 64 24) 8]), ?_, fun v hv => ?_⟩
    · rw [load_elf_opened ho, load_image, Traced.bind_ok h1, hf.pie]
      exact congrArg (Option.map _) htail
    · rw [hm2, finalImage]
      split
      · exact relocated_shift hf hshows (Nat.le_refl _) v hv
      · exact hshows v hv

end Run

/-! ## Two runs -/

section Equivariance

variable {B B' : Boot} {f : List Byte} {n : Nat} {a a' base : Addr}

/-- Two runs, with the image at `a` and at `a'`: it is the same but for the relocated words,
which have the base of their own run. -/
structure Equivariant (f : List Byte) (n : Nat) (a a' : Addr) (r r' : Loaded) (s s' : Store) :
    Prop where
  bytes : ∀ k : Addr, k.toNat < (imageSize f).toNat →
    (∀ i, Relative f n i → ¬InRange (target f n i) 8 ((vaddrRange f).1 + k)) →
      s.mem (a + k) = s'.mem (a' + k)
  words : ∀ i, Relative f n i → load64 s.mem (r.base + target f n i) = r.base + addend f n i ∧
    load64 s'.mem (r'.base + target f n i) = r'.base + addend f n i ∧
    load64 s'.mem (r'.base + target f n i) - load64 s.mem (r.base + target f n i) = a' - a
  entry : r'.entry_point - r.entry_point = a' - a

/-- At `a`, the loader finds the relocations, or there is nothing left to relocate. -/
def RelocatedAt (f : List Byte) (n : Nat) (a : Addr) : Prop := Found f n (baseOf f a) ∨
  ∀ i, Relative f n i → load64 (virtualImage f) (target f n i) = baseOf f a + addend f n i

theorem load64_shift {m m' : Mem64} {t : Addr} (ht : Within f t 8)
    (hm : ∀ v, InImage f v → m (base + v) = m' v) : load64 m (base + t) = load64 m' t := by
  rw [load64, load64, loadLE_congr fun k hk => ?_]
  rw [BitVec.add_assoc]
  exact hm _ (ht _ (inRange_add hk (by omega)))

theorem finalImage_other {x : Addr} (hx : ∀ i, Relative f n i → ¬InRange (target f n i) 8 x) :
    finalImage f n base x = virtualImage f x := by
  rw [finalImage]
  split
  · exact rebased_other (fun j _ => hx j) (Nat.le_refl _)
  · rfl

/-- The words end up relocated exactly if the relocations are found or not needed. -/
theorem relocatedAt_iff (hf : ValidDyn f n) : RelocatedAt f n a ↔ ∀ i, Relative f n i →
    load64 (finalImage f n (baseOf f a)) (target f n i) = baseOf f a + addend f n i := by
  rw [RelocatedAt, finalImage]
  by_cases hfound : Found f n (baseOf f a)
  · rw [if_pos hfound]
    exact iff_of_true (.inl hfound) fun i hi => load64_rebased hf hi hi.1 (Nat.le_refl _)
  · rw [if_neg hfound]
    exact or_iff_right hfound

/-- **The image at two addresses.** -/
theorem equivariant_iff (hB : B.Behaves) (hB' : B'.Behaves) (ho : B.opened) (ho' : B'.opened)
    (hsame : B'.read.2 = B.read.2) (hf : ValidDyn B.read.2 n) (hg : B.Gives a) (hg' : B'.Gives a')
    (m m' : Mem64) :
    (∃ r s ops r' s' ops', load_elf B m = some (.ok r, s, ops) ∧
      load_elf B' m' = some (.ok r', s', ops') ∧ Equivariant B.read.2 n a a' r r' s s') ↔
    RelocatedAt B.read.2 n a ∧ RelocatedAt B.read.2 n a' := by
  obtain ⟨s, ops, hrun, hmem⟩ := load_elf_rebased hB ho hf hg m
  obtain ⟨s', ops', hrun', hmem'⟩ := load_elf_rebased hB' ho' (hsame ▸ hf) hg' m'
  rw [hsame] at hrun' hmem'
  have hword := fun i hi => load64_shift (hf.targets i hi).1 hmem
  have hword' := fun i hi => load64_shift (hf.targets i hi).1 hmem'
  rw [relocatedAt_iff hf, relocatedAt_iff hf]
  constructor
  · rintro ⟨r, t, l, r', t', l', h, h', heq⟩
    cases hrun.symm.trans h
    cases hrun'.symm.trans h'
    exact ⟨fun i hi => (hword i hi).symm.trans (heq.words i hi).1,
      fun i hi => (hword' i hi).symm.trans (heq.words i hi).2.1⟩
  · rintro ⟨hrel, hrel'⟩
    refine ⟨_, s, ops, _, s', ops', hrun, hrun', ?_, fun i hi => ?_, ?_⟩
    · intro k hk hout
      have haddr : ∀ b : Addr, b + k = baseOf B.read.2 b + ((vaddrRange B.read.2).1 + k) := fun b => by
        unfold baseOf
        ring
      have hin : InImage B.read.2 ((vaddrRange B.read.2).1 + k) := inRange_self_add.mpr hk
      rw [haddr a, haddr a', hmem _ hin, hmem' _ hin, finalImage_other hout, finalImage_other hout]
    · have hw := (hword i hi).trans (hrel i hi)
      have hw' := (hword' i hi).trans (hrel' i hi)
      refine ⟨hw, hw', ?_⟩
      rw [hw, hw']
      unfold baseOf
      ring
    · unfold baseOf
      ring

end Equivariance

/-! ## A table at the start of the image -/

section Sample

/-- A kernel of one segment from `start` on: a relocation table of one entry, the dynamic
section, and the word that is relocated. -/
def tableKernel (start : Nat) : List Byte :=
  le 8 0x102464C457F ++ le 8 0 ++ le 2 3 ++ le 2 183 ++ le 4 1 ++ le 8 start ++ le 8 64 ++ le 8 0 ++
    le 4 0 ++ le 2 64 ++ le 2 56 ++ le 2 2 ++ le 2 0 ++ le 2 0 ++ le 2 0 ++
  samplePhdr 1 176 start 96 ++ samplePhdr 2 200 (start + 24) 64 ++
  le 8 (start + 88) ++ le 8 1027 ++ le 8 (start + 64) ++
  le 8 7 ++ le 8 start ++ le 8 8 ++ le 8 24 ++ le 8 9 ++ le 8 24 ++ le 8 0 ++ le 8 0 ++ le 8 0

theorem inRange_offset {x : Addr} {i k l : Nat} (h : InRange (a + BitVec.ofNat 64 i) k x)
    (hl : i + k ≤ l) (hl' : l ≤ 2 ^ 64) : InRange a l x := by
  have hsum : x - a = x - (a + BitVec.ofNat 64 i) + BitVec.ofNat 64 i := by ring
  unfold InRange at h ⊢
  rw [hsum, BitVec.toNat_add, BitVec.toNat_ofNat]
  omega

theorem clear_offset (a : Addr) {i k j l : Nat} (h : i + k ≤ j ∨ j + l ≤ i) (hi : i + k ≤ 2 ^ 32)
    (hj : j + l ≤ 2 ^ 32) : Clear (a + BitVec.ofNat 64 i) k (a + BitVec.ofNat 64 j) l := by
  intro x hx hx'
  have hsum : x - (a + BitVec.ofNat 64 i) = x - a - BitVec.ofNat 64 i := by ring
  have hsum' : x - (a + BitVec.ofNat 64 j) = x - a - BitVec.ofNat 64 j := by ring
  unfold InRange at hx hx'
  rw [hsum, BitVec.toNat_sub, BitVec.toNat_ofNat] at hx
  rw [hsum', BitVec.toNat_sub, BitVec.toNat_ofNat] at hx'
  generalize x - a = y at hx hx'
  omega

theorem tableKernel_wellFormed {f : List Byte} {start : Addr} (hlen : f.length = 272)
    (hnum : fileField f 0 e_phnum = 2#64) (hent : fileField f 0 e_phentsize = 56#64)
    (hoff : fileField f 0 e_phoff = 64#64)
    (hloads : loads f = [⟨1#64, 176#64, start, 96#64, 96#64⟩]) (hstart : start.toNat < 2 ^ 32) :
    WellFormed f where
  header := by omega
  int := by rw [hnum, hent]; decide
  table i hi := by
    rw [hnum] at hi
    have hi : i < 2 := hi
    rw [hoff, hent, hlen]
    simp only [BitVec.toNat_ofNat]
    omega
  file := by
    rw [hloads, List.forall_mem_singleton, hlen]
    exact show 176 + 96 ≤ 272 by decide
  size := by
    rw [hloads, List.forall_mem_singleton]
    exact BitVec.le_refl _
  wrap := by
    rw [hloads, List.forall_mem_singleton]
    simp only [BitVec.toNat_ofNat]
    omega
  disjoint := by
    rw [hloads]
    exact List.pairwise_singleton _ _

theorem tableKernel_validDyn {f : List Byte} {start o : Addr} (hf : WellFormed f)
    (hacc : Accepted f) (hpie : isPie f = true) (hrange : vaddrRange f = (start, start + 96#64))
    (hdyn : dynHeader f (offsets f) = some o) (hvaddr : fileField f o p_vaddr = start + 24#64)
    (hend : DynEnd (virtualImage f) (start + 24#64) 3)
    (htag : field (virtualImage f) (dynAt (start + 24#64) 0) d_tag = DT_RELA)
    (haddr : (fileRela f 3).addr = start) (hsize : (fileRela f 3).size = 24#64)
    (hent : (fileRela f 3).ent = 24#64) (htarget : target f 3 0 = start + 88#64) :
    ValidDyn f 3 := by
  have hwithin : ∀ i k : Nat, i + k ≤ 96 → Within f (start + BitVec.ofNat 64 i) k := by
    intro i k hik x hx
    rw [InImage, imageSize, hrange, add_sub_self_left]
    exact inRange_offset hx hik (by decide)
  have hcount : relaCount f 3 = 1 := by
    rw [relaCount, hsize]
    exact show (24#64).toNat / 24 = 1 by decide
  have htable : start = start + BitVec.ofNat 64 0 := (BitVec.add_zero _).symm
  have honly : ∀ i, Relative f 3 i → target f 3 i = start + BitVec.ofNat 64 88 := fun i hi => by
    obtain rfl : i = 0 := by
      have := hi.1
      omega
    exact htarget
  refine ⟨hf, hacc, hpie, fun o' ho => ?_, fun o' ho _ => ?_, fun _ => hent, fun _ => ?_,
    fun i hi => ?_, fun i j hi hj hne => ?_⟩
  · obtain rfl : o = o' := Option.some.inj (hdyn.symm.trans ho)
    rw [hvaddr]
    refine ⟨hend, hwithin 24 64 (by decide), fun i hi => ?_⟩
    rw [honly i hi]
    exact clear_offset start (i := 88) (j := 24) (by decide) (by decide) (by decide)
  · obtain rfl : o = o' := Option.some.inj (hdyn.symm.trans ho)
    rw [hvaddr]
    exact ⟨0, by decide, htag⟩
  · rw [hcount, haddr, htable]
    exact hwithin 0 24 (by decide)
  · rw [honly i hi, hcount, haddr]
    refine ⟨hwithin 88 8 (by decide), ?_⟩
    have hclear := clear_offset start (i := 88) (k := 8) (j := 0) (l := 24) (by decide) (by decide)
      (by decide)
    rwa [← htable] at hclear
  · have := hi.1
    have := hj.1
    omega

theorem tableKernel_zero : ValidDyn (tableKernel 0) 3 :=
  have hloads : loads (tableKernel 0) = [⟨1#64, 176#64, 0#64, 96#64, 96#64⟩] := by decide +kernel
  @tableKernel_validDyn (tableKernel 0) 0#64 120#64
    (tableKernel_wellFormed (by decide +kernel) (by decide +kernel) (by decide +kernel)
      (by decide +kernel) hloads (by decide))
    (by unfold Accepted; decide +kernel) (by decide +kernel) (by decide +kernel) (by decide +kernel)
    (by decide +kernel) (by unfold DynEnd; decide +kernel) (by decide +kernel) (by decide +kernel)
    (by decide +kernel) (by decide +kernel) (by decide +kernel)

theorem tableKernel_page : ValidDyn (tableKernel 0x1000) 3 :=
  have hloads : loads (tableKernel 0x1000) = [⟨1#64, 176#64, 0x1000#64, 96#64, 96#64⟩] := by
    decide +kernel
  @tableKernel_validDyn (tableKernel 0x1000) 0x1000#64 120#64
    (tableKernel_wellFormed (by decide +kernel) (by decide +kernel) (by decide +kernel)
      (by decide +kernel) hloads (by decide))
    (by unfold Accepted; decide +kernel) (by decide +kernel) (by decide +kernel) (by decide +kernel)
    (by decide +kernel) (by unfold DynEnd; decide +kernel) (by decide +kernel) (by decide +kernel)
    (by decide +kernel) (by decide +kernel) (by decide +kernel)

/-- A firmware with the file at 0x8000 and one page, at `a`. -/
def imageBoot (a : Addr) (file : List Byte) : Boot where
  infoPool := 0
  getInfo := (0, BitVec.ofNat 64 file.length)
  dataPool := (0, 0x8000#64)
  read := (0, file)
  allocatePages ps type n _ :=
    if ps.isEmpty ∧ type = .AllocateAnyPages ∧ n = 1#64 then (0, a) else (0x8000000000000009#64, 0)

theorem imageBoot_behaves {a : Addr} {file : List Byte} (h : file.length ≤ 0x8000)
    (hlo : 0x10000 ≤ a.toNat) (hhi : a.toNat ≤ 2 ^ 63) : (imageBoot a file).Behaves where
  read := by
    simp only [imageBoot, BitVec.toNat_ofNat]
    omega
  free ps type n b hok x hx hin := by
    simp only [imageBoot] at hok hx hin
    by_cases hn : ps.isEmpty ∧ type = .AllocateAnyPages ∧ n = 1#64
    · rw [if_pos hn, hn.2.2] at hx
      have hx : (x - a).toNat < 4096 := hx
      rw [InRange, BitVec.toNat_sub, BitVec.toNat_ofNat, BitVec.toNat_ofNat] at hin
      rw [BitVec.toNat_sub] at hx
      omega
    · rw [if_neg hn] at hok
      exact hok (by decide)
  fixed ps n b hok := by
    simp only [imageBoot, reduceCtorEq, false_and, and_false, if_false] at hok
    exact absurd (by decide) hok

theorem imageBoot_opened (a : Addr) (file : List Byte) : (imageBoot a file).opened := by
  refine ⟨?_, ?_, ?_, ?_⟩
  all_goals change ¬EFI_ERROR 0 = true
  all_goals decide

theorem imageBoot_gives {a : Addr} {file : List Byte}
    (h : EFI_SIZE_TO_PAGES (imageSize file) = 1#64) : (imageBoot a file).Gives a := by
  refine ⟨⟨a, 1⟩, ?_, rfl⟩
  rw [show (imageBoot a file).read.2 = file from rfl, h]
  have hanswer : (imageBoot a file).allocatePages [] .AllocateAnyPages 1#64 0 = (0, a) := by
    simp only [imageBoot, List.isEmpty_nil, and_self, if_true]
  rw [Boot.granted, hanswer]
  exact if_neg (show ¬EFI_ERROR 0 = true by decide)

theorem equivariant_iff_page : (∃ r s ops r' s' ops',
      load_elf (imageBoot 0x10000#64 (tableKernel 0x1000)) (fun _ => 0) = some (.ok r, s, ops) ∧
      load_elf (imageBoot 0x20000#64 (tableKernel 0x1000)) (fun _ => 1) = some (.ok r', s', ops') ∧
      Equivariant (tableKernel 0x1000) 3 0x10000#64 0x20000#64 r r' s s') ↔
    RelocatedAt (tableKernel 0x1000) 3 0x10000#64 ∧ RelocatedAt (tableKernel 0x1000) 3 0x20000#64 :=
  have hlen : (tableKernel 0x1000).length ≤ 0x8000 := by decide +kernel
  have hB : (imageBoot 0x10000#64 (tableKernel 0x1000)).Behaves :=
    imageBoot_behaves hlen (by decide) (by decide)
  have hB' : (imageBoot 0x20000#64 (tableKernel 0x1000)).Behaves :=
    imageBoot_behaves hlen (by decide) (by decide)
  have hsize : EFI_SIZE_TO_PAGES (imageSize (tableKernel 0x1000)) = 1#64 := by decide +kernel
  equivariant_iff hB hB' (imageBoot_opened _ _)
    (imageBoot_opened _ _) rfl tableKernel_page (imageBoot_gives hsize) (imageBoot_gives hsize) _ _

/-- `DT_RELA` is 0, the address of the table, and the loader takes it for a missing one. -/
theorem equivariant_not : ¬∀ (B B' : Boot) n a a' m m', B.Behaves → B'.Behaves → B.opened →
    B'.opened → B'.read.2 = B.read.2 → ValidDyn B.read.2 n → B.Gives a → B'.Gives a' →
    ∃ r s ops r' s' ops', load_elf B m = some (.ok r, s, ops) ∧
      load_elf B' m' = some (.ok r', s', ops') ∧ Equivariant B.read.2 n a a' r r' s s' := by
  intro H
  have hlen : (tableKernel 0).length ≤ 0x8000 := by decide +kernel
  have hsize : EFI_SIZE_TO_PAGES (imageSize (tableKernel 0)) = 1#64 := by decide +kernel
  obtain ⟨r, s, ops, _, _, _, hrun, -, heq⟩ := H (imageBoot 0x10000#64 (tableKernel 0))
    (imageBoot 0x20000#64 (tableKernel 0)) 3 0x10000#64 0x20000#64 (fun _ => 0) (fun _ => 0)
    (imageBoot_behaves hlen (by decide) (by decide)) (imageBoot_behaves hlen (by decide) (by decide))
    (imageBoot_opened _ _) (imageBoot_opened _ _) rfl tableKernel_zero (imageBoot_gives hsize)
    (imageBoot_gives hsize)
  -- the word at 88 is left as it is in the file
  have hword : (load_elf (imageBoot 0x10000#64 (tableKernel 0)) fun _ => 0).any fun t =>
      match t.1 with
      | .ok r => decide (r.base = 0x10000#64 ∧ load64 t.2.1.mem 0x10058#64 = 0#64)
      | .error _ => false := by decide +kernel
  rw [hrun, Option.any_some, decide_eq_true_iff] at hword
  have hw := (heq.words 0 ⟨by decide +kernel, by decide +kernel⟩).1
  have htarget : target (tableKernel 0) 3 0 = 0x58#64 := by decide +kernel
  have haddend : addend (tableKernel 0) 3 0 = 0x40#64 := by decide +kernel
  have hfile : (imageBoot 0x10000#64 (tableKernel 0)).read.2 = tableKernel 0 := rfl
  rw [hfile, htarget, haddend, hword.1] at hw
  exact absurd (hword.2.symm.trans hw) (by decide)

end Sample

end Osdev2.Efi
