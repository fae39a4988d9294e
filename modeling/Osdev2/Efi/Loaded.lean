import Osdev2.Efi.Passes

/-!
# The loaded kernel

`load_elf_image`: for a well-formed file, memory after a successful `load_elf`
holds every `PT_LOAD` segment, file bytes first and zeros after them, at every
byte no relocation has hit. `image_byte` is the fact about the image alone;
`passesOk` says that the passes of a well-formed file stay in the file and the
pages, and `Relocates` that nothing but relocations touches memory afterwards.
-/

namespace Osdev2.Efi

open Osdev2.Lib

/-- A file the loader is meant for: the header, the program headers and the segments
are in the file, the segments do not wrap and do not overlap, and the offsets in the
header table fit the `int` they are computed in. -/
structure WellFormed (f : List Byte) : Prop where
  header : 64 ≤ f.length
  int : ((fileField f 0 e_phnum).toNat - 1) * (fileField f 0 e_phentsize).toNat < 2 ^ 31
  table : ∀ i < (fileField f 0 e_phnum).toNat,
    (fileField f 0 e_phoff).toNat + i * (fileField f 0 e_phentsize).toNat + 56 ≤ f.length
  file : ∀ g ∈ loads f, g.offset.toNat + g.filesz.toNat ≤ f.length
  size : ∀ g ∈ loads f, g.filesz ≤ g.memsz
  wrap : ∀ g ∈ loads f, g.vaddr.toNat + g.memsz.toNat < 2 ^ 64
  disjoint : (loads f).Pairwise fun g h => ∀ x,
    InRange g.vaddr g.memsz.toNat x → ¬InRange h.vaddr h.memsz.toNat x

/-- A file whose headers are in it, and the bytes of its segments. -/
structure HeadersOk (f : List Byte) : Prop where
  header : 64 ≤ f.length
  int : ((fileField f 0 e_phnum).toNat - 1) * (fileField f 0 e_phentsize).toNat < 2 ^ 31
  table : ∀ i < (fileField f 0 e_phnum).toNat,
    (fileField f 0 e_phoff).toNat + i * (fileField f 0 e_phentsize).toNat + 56 ≤ f.length
  file : ∀ g ∈ loads f, g.offset.toNat + g.filesz.toNat ≤ f.length
  size : ∀ g ∈ loads f, g.filesz ≤ g.memsz

theorem WellFormed.headersOk {f : List Byte} (hf : WellFormed f) : HeadersOk f :=
  ⟨hf.header, hf.int, hf.table, hf.file, hf.size⟩

/-! ## The image -/

section Image

variable {f : List Byte} {base x : Addr} {m : Mem64} {g : Segment} {gs : List Segment}

/-- A segment is placed inside its own range. -/
theorem place_other (hsize : g.filesz ≤ g.memsz) (h : ¬InRange (base + g.vaddr) g.memsz.toNat x) :
    Segment.place f base m g x = m x := by
  have hM : ¬x - (base + g.vaddr) < g.memsz := h
  have hF : ¬x - (base + g.vaddr) < g.filesz := by
    simp only [BitVec.lt_def, BitVec.le_def] at hM hsize ⊢
    omega
  rw [Segment.place, if_neg hF, if_neg hM]

theorem foldl_place_other (hsize : ∀ g ∈ gs, g.filesz ≤ g.memsz)
    (h : ∀ g ∈ gs, ¬InRange (base + g.vaddr) g.memsz.toNat x) :
    gs.foldl (Segment.place f base) m x = m x := by
  induction gs generalizing m with
  | nil => rfl
  | cons g gs ih =>
    rw [List.foldl_cons, ih (fun g hg => hsize g (List.mem_cons_of_mem _ hg))
      fun g hg => h g (List.mem_cons_of_mem _ hg)]
    exact place_other (hsize g List.mem_cons_self) (h g List.mem_cons_self)

theorem inRange_base {v : Addr} {n : Nat} : InRange (base + v) n (base + x) ↔ InRange v n x := by
  rw [InRange, InRange, add_sub_add_left_eq_sub]

/-- Disjoint segments are all in place, in whatever order they come. -/
theorem foldl_place_at (hsize : ∀ g ∈ gs, g.filesz ≤ g.memsz)
    (hd : gs.Pairwise fun g h => ∀ x, InRange g.vaddr g.memsz.toNat x →
      ¬InRange h.vaddr h.memsz.toNat x) (hg : g ∈ gs) (hx : InRange g.vaddr g.memsz.toNat x) :
    gs.foldl (Segment.place f base) m (base + x) =
      if x - g.vaddr < g.filesz then fileMem f (g.offset + (x - g.vaddr)) else 0 := by
  induction gs generalizing m with
  | nil => cases hg
  | cons a gs ih =>
    obtain ⟨ha, hd⟩ := List.pairwise_cons.mp hd
    rw [List.foldl_cons]
    rcases List.mem_cons.mp hg with rfl | hg
    · rw [foldl_place_other (fun g hg => hsize g (List.mem_cons_of_mem _ hg)) fun h hh hin =>
        ha h hh x hx (inRange_base.mp hin), Segment.place, add_sub_add_left_eq_sub]
      split
      · rfl
      · exact if_pos hx
    · exact ih (fun g hg => hsize g (List.mem_cons_of_mem _ hg)) hd hg

end Image

/-! ## The range of the first pass -/

section Ranges

variable {gs : List Segment} {g : Segment} {r : Range}

theorem extend_le (hw : g.vaddr.toNat + g.memsz.toNat < 2 ^ 64) :
    (r.extend g.vaddr g.memsz).1.toNat ≤ g.vaddr.toNat ∧
      (r.extend g.vaddr g.memsz).1.toNat ≤ r.1.toNat ∧
      g.vaddr.toNat + g.memsz.toNat ≤ (r.extend g.vaddr g.memsz).2.toNat ∧
      r.2.toNat ≤ (r.extend g.vaddr g.memsz).2.toNat := by
  have hsum : (g.vaddr + g.memsz).toNat = g.vaddr.toNat + g.memsz.toNat := by
    rw [BitVec.toNat_add, Nat.mod_eq_of_lt hw]
  simp only [Range.extend, BitVec.lt_def, hsum]
  refine ⟨?_, ?_, ?_, ?_⟩ <;> split <;> omega

theorem rangeOf_le (hw : ∀ g ∈ gs, g.vaddr.toNat + g.memsz.toNat < 2 ^ 64) :
    (rangeOf gs r).1.toNat ≤ r.1.toNat ∧ r.2.toNat ≤ (rangeOf gs r).2.toNat ∧
      ∀ g ∈ gs, (rangeOf gs r).1.toNat ≤ g.vaddr.toNat ∧
        g.vaddr.toNat + g.memsz.toNat ≤ (rangeOf gs r).2.toNat := by
  induction gs generalizing r with
  | nil => exact ⟨Nat.le_refl _, Nat.le_refl _, fun g hg => by cases hg⟩
  | cons a gs ih =>
    obtain ⟨h1, h2, h3, h4⟩ := extend_le (r := r) (hw a List.mem_cons_self)
    obtain ⟨h5, h6, h7⟩ := ih (r := r.extend a.vaddr a.memsz) fun g hg =>
      hw g (List.mem_cons_of_mem _ hg)
    have heq : rangeOf (a :: gs) r = rangeOf gs (r.extend a.vaddr a.memsz) := rfl
    rw [heq]
    refine ⟨by omega, by omega, fun g hg => ?_⟩
    rcases List.mem_cons.mp hg with rfl | hg
    · exact ⟨by omega, by omega⟩
    · exact h7 g hg

end Ranges

/-! ## The passes of a well-formed file -/

section Passes

variable {B : Boot} {f : List Byte} {o : Addr} {fld : Field}

theorem stride_toNat {i : Nat} {n : BitVec 64} (h : i * n.toNat < 2 ^ 31) :
    (stride i n).toNat = i * n.toNat := by
  have hn : (BitVec.ofNat 32 (i * n.toNat)).toNat = i * n.toNat := by
    rw [BitVec.toNat_ofNat, Nat.mod_eq_of_lt (by omega)]
  have hmsb : (BitVec.ofNat 32 (i * n.toNat)).msb = false := by
    rw [BitVec.msb_eq_false_iff_two_mul_lt, hn]
    omega
  rw [stride, BitVec.signExtend_eq_setWidth_of_msb_false hmsb, BitVec.toNat_setWidth, hn,
    Nat.mod_eq_of_lt (by omega)]

theorem HeadersOk.offset_le (hf : HeadersOk f) (hlen : f.length < 2 ^ 64)
    (ho : o ∈ offsets f) : o.toNat + 56 ≤ f.length := by
  obtain ⟨i, hi, rfl⟩ := List.mem_map.mp ho
  have hi := List.mem_range.mp hi
  have htable := hf.table i hi
  have hint := hf.int
  have hmul : i * (fileField f 0 e_phentsize).toNat ≤
      ((fileField f 0 e_phnum).toNat - 1) * (fileField f 0 e_phentsize).toNat :=
    Nat.mul_le_mul_right _ (by omega)
  rw [phdrOff, BitVec.toNat_add, stride_toNat (by omega), Nat.mod_eq_of_lt (by omega)]
  exact htable

theorem inside_of_le {n : Nat} (hlen : f.length < 2 ^ 64) (h : o.toNat + n ≤ f.length) :
    Inside f o n := fun k hk => by
  rw [BitVec.toNat_add, BitVec.toNat_ofNat]
  omega

theorem has_of_le {n : Nat} (hlen : f.length < 2 ^ 64) (h : o.toNat + n ≤ f.length)
    (hfld : fld.off + fld.size ≤ n) : Has f o fld := by
  have ho : (o + BitVec.ofNat 64 fld.off).toNat = o.toNat + fld.off := by
    rw [BitVec.toNat_add, BitVec.toNat_ofNat]
    omega
  exact inside_of_le hlen (by omega)

theorem HeadersOk.has (hf : HeadersOk f) (hlen : f.length < 2 ^ 64) (hfld : fld.off + fld.size ≤ 64) :
    Has f 0 fld :=
  has_of_le hlen (o := 0) (by simpa using hf.header) hfld

theorem HeadersOk.has_phdr (hf : HeadersOk f) (hlen : f.length < 2 ^ 64) (ho : o ∈ offsets f)
    (hfld : fld.off + fld.size ≤ 56) : Has f o fld :=
  has_of_le hlen (hf.offset_le hlen ho) hfld

theorem HeadersOk.looked (hf : HeadersOk f) (hlen : f.length < 2 ^ 64) : HeaderLooked f :=
  ⟨hf.has hlen (by decide), fun _ => ⟨hf.has hlen (by decide), fun _ => ⟨hf.has hlen (by decide),
    fun _ => ⟨hf.has hlen (by decide), fun _ => ⟨hf.has hlen (by decide), fun _ =>
      hf.has hlen (by decide)⟩⟩⟩⟩⟩

theorem HeadersOk.read (hf : HeadersOk f) (hlen : f.length < 2 ^ 64) : HeaderRead f :=
  headerRead_iff.mp (hf.has hlen (by decide))

theorem HeadersOk.measured (hf : HeadersOk f) (hlen : f.length < 2 ^ 64) :
    ∀ o ∈ offsets f, Measured f o := fun _ ho =>
  ⟨hf.has_phdr hlen ho (by decide), fun _ => ⟨hf.has_phdr hlen ho (by decide),
    hf.has_phdr hlen ho (by decide)⟩⟩

theorem mem_loads (ho : o ∈ offsets f) (ht : fileField f o p_type = PT_LOAD) :
    segmentAt f o ∈ loads f :=
  List.mem_filter.mpr ⟨List.mem_map_of_mem ho, by simpa using ht⟩

/-- An invariant of the pages makes the whole pass allowed. -/
theorem segmentsOk_of {is_pie : Bool} {base : Addr} {I : List Block → Prop} {os : List Addr}
    (hok : ∀ o ∈ os, ∀ ps, I ps → SegmentOk B is_pie base ps o)
    (hstep : ∀ o ∈ os, ∀ ps ps', I ps → B.claimAt is_pie o ps = some ps' → I ps') :
    ∀ {ps}, I ps → SegmentsOk B is_pie base os ps := by
  induction os with
  | nil => exact fun _ => trivial
  | cons o os ih =>
    exact fun hI => ⟨hok o List.mem_cons_self _ hI, fun ps' hc =>
      ih (fun o ho => hok o (List.mem_cons_of_mem _ ho))
        (fun o ho => hstep o (List.mem_cons_of_mem _ ho))
        (hstep o List.mem_cons_self _ _ hI hc)⟩

theorem covered_fixed (hB : B.Behaves) {vaddr memsz : BitVec 64} {ps ps' : List Block}
    (h : B.claim false vaddr memsz ps = some ps') : Covered ps' vaddr memsz.toNat := by
  simp only [Boot.claim, Bool.false_eq_true, if_false, Option.map_eq_some_iff] at h
  obtain ⟨b, hg, rfl⟩ := h
  obtain ⟨he, haddr, hpages⟩ := granted_eq_some hg
  refine fun k hk => ⟨b, List.mem_cons_self, ?_⟩
  have hle := le_pages memsz
  rw [haddr, hB.fixed _ _ _ he, hpages, inRange_self_add, BitVec.toNat_ofNat]
  exact Nat.lt_of_le_of_lt (Nat.mod_le _ _) (Nat.lt_of_lt_of_le hk hle)

/-- A segment of a position-independent image fits the pages of the image. -/
theorem covered_pie {b : Block} {r : Range} {vaddr : Addr} {n : Nat} (hmin : r.1.toNat ≤ vaddr.toNat)
    (hmax : vaddr.toNat + n ≤ r.2.toNat)
    (hpages : b.pages = (EFI_SIZE_TO_PAGES (r.2 - r.1)).toNat) :
    Covered [b] (b.addr - r.1 + vaddr) n := by
  refine fun k hk => ⟨b, List.mem_singleton_self b, ?_⟩
  have hle := le_pages (r.2 - r.1)
  have hr2 := r.2.isLt
  have haddr : b.addr - r.1 + vaddr + BitVec.ofNat 64 k =
      b.addr + (vaddr - r.1 + BitVec.ofNat 64 k) := by ring
  have hoff : (vaddr - r.1 + BitVec.ofNat 64 k).toNat = vaddr.toNat - r.1.toNat + k := by
    rw [BitVec.toNat_add, BitVec.toNat_sub_of_le (by rwa [BitVec.le_def]), BitVec.toNat_ofNat]
    omega
  rw [BitVec.toNat_sub_of_le (by rw [BitVec.le_def]; omega)] at hle
  rw [haddr, inRange_self_add, hoff, hpages]
  omega

theorem HeadersOk.segmentOk {is_pie : Bool} {base : Addr} {ps : List Block}
    (hf : HeadersOk B.read.2) (hlen : B.read.2.length < 2 ^ 64) (ho : o ∈ offsets B.read.2)
    (hcov : fileField B.read.2 o p_type = PT_LOAD → ∀ ps', B.claimAt is_pie o ps = some ps' →
      Covered ps' (base + fileField B.read.2 o p_vaddr) (fileField B.read.2 o p_memsz).toNat) :
    SegmentOk B is_pie base ps o := by
  refine fun ht => ⟨hf.has_phdr hlen ho (by decide), fun ps' hc =>
    ⟨hf.has_phdr hlen ho (by decide), ?_⟩⟩
  have hg := mem_loads ho ht
  have hsize := hf.size _ hg
  rw [BitVec.le_def] at hsize
  refine ⟨inside_of_le hlen (hf.file _ hg), ?_⟩
  rw [Nat.max_eq_right hsize]
  exact hcov ht ps' hc

theorem segmentsOk_fixed (hB : B.Behaves) (hf : HeadersOk B.read.2)
    (hlen : B.read.2.length < 2 ^ 64) (ps : List Block) :
    SegmentsOk B false 0 (offsets B.read.2) ps := by
  refine segmentsOk_of (I := fun _ => True) (fun o ho ps _ => hf.segmentOk hlen ho ?_)
    (fun _ _ _ _ _ _ => trivial) trivial
  intro ht ps' hc
  rw [Boot.claimAt, if_pos ht] at hc
  rw [zero_add]
  exact covered_fixed hB hc

theorem passesOk_fixed (hB : B.Behaves) (hf : HeadersOk B.read.2) (hp : isPie B.read.2 = false) :
    PassesOk B := by
  have hlen : B.read.2.length < 2 ^ 64 := Nat.lt_of_le_of_lt hB.read B.getInfo.2.isLt
  refine ⟨hf.looked hlen, fun _ => ⟨hf.read hlen, hf.measured hlen, fun base ps hk => ?_⟩⟩
  rw [Boot.kernelBase, hp] at hk
  cases hk
  rw [hp]
  exact segmentsOk_fixed hB hf hlen []

theorem passesOk (hB : B.Behaves) (hf : WellFormed B.read.2) : PassesOk B := by
  have hlen : B.read.2.length < 2 ^ 64 := Nat.lt_of_le_of_lt hB.read B.getInfo.2.isLt
  have hh := hf.headersOk
  cases hp : isPie B.read.2 with
  | false => exact passesOk_fixed hB hh hp
  | true =>
    refine ⟨hh.looked hlen, fun _ => ⟨hh.read hlen, hh.measured hlen, fun base ps hk => ?_⟩⟩
    rw [Boot.kernelBase, hp] at hk
    rw [hp]
    simp only [Boot.placed, if_true, Option.map_eq_some_iff, Prod.mk.injEq] at hk
    obtain ⟨b, hg, rfl, rfl⟩ := hk
    refine segmentsOk_of (I := fun ps => ps = [b]) (fun o ho ps hps => hh.segmentOk hlen ho ?_)
      (fun o _ ps ps' hps hc => ?_) rfl
    · intro ht ps' hc
      rw [claimAt_pie, hps] at hc
      cases hc
      obtain ⟨-, -, hrange⟩ := rangeOf_le (r := (BitVec.allOnes 64, 0)) hf.wrap
      obtain ⟨hmin, hmax⟩ := hrange _ (mem_loads ho ht)
      exact covered_pie hmin hmax (granted_eq_some hg).2.2
    · rw [claimAt_pie, hps] at hc
      exact (Option.some.inj hc).symm

end Passes

/-! ## After the passes -/

section Relocates

variable {α : Type}

/-- Only relocations have changed memory. -/
structure Relocates (s s' : Store) (ops : List Op) : Prop where
  writes : ∀ ps a n, Op.write ps a n ∉ ops
  mem : ∀ x, (∀ ps a, Op.store ps a ∈ ops → ¬InRange a 8 x) → s'.mem x = s.mem x

theorem Relocates.append (s t u : Store) (l l' : List Op) (h : Relocates s t l)
    (h' : Relocates t u l') : Relocates s u (l ++ l') where
  writes ps a n hw := (List.mem_append.mp hw).elim (h.writes ps a n) (h'.writes ps a n)
  mem x hx := (h'.mem x fun ps a ha => hx ps a (List.mem_append_right _ ha)).trans
    (h.mem x fun ps a ha => hx ps a (List.mem_append_left _ ha))

theorem Relocates.nil (s : Store) : Relocates s s [] := ⟨by simp, fun _ _ => rfl⟩

theorem keeps_pure (a : α) : Keeps Relocates (pure a : Load α) := by
  rintro s r s' ops h
  cases h
  exact Relocates.nil s

theorem keeps_load (p : Addr) (fld : Field) : Keeps Relocates (load p fld) := by
  rintro s r s' ops h
  cases h
  exact ⟨by simp, fun _ _ => rfl⟩

theorem keeps_relocStore (a v : BitVec 64) : Keeps Relocates (relocStore a v) := by
  rintro s r s' ops h
  cases h
  exact ⟨by simp, fun x hx => store64_apply_out (hx s.pages a (List.mem_singleton_self _))⟩

theorem keeps_dynamic (d : Addr) : Keeps Relocates (dynamic d) := by
  rintro s r s' ops h
  obtain ⟨i, -, heq⟩ := Option.map_eq_some_iff.mp h
  cases heq
  exact Relocates.nil s

theorem keeps_eachPhdr {elf_data : Addr} {body : Addr → α → Load (ForInStep α)}
    (hbody : ∀ p a, Keeps Relocates (body p a)) (fuel : Nat) :
    ∀ i a, Keeps Relocates (eachPhdr elf_data body fuel i a) := by
  induction fuel with
  | zero =>
    rintro i a s r s' ops h
    cases h
  | succ fuel ih =>
    intro i a
    refine (keeps_load _ _).bind Relocates.append fun phnum => Keeps.ite ?_ (keeps_pure a)
    refine (keeps_load _ _).bind Relocates.append fun phoff => ?_
    refine (keeps_load _ _).bind Relocates.append fun phentsize => ?_
    refine (hbody _ _).bind Relocates.append fun step => ?_
    cases step with
    | done a => exact keeps_pure a
    | yield a => exact ih _ _

theorem keeps_apply_relas (base rela : Addr) (n : Nat) :
    ∀ i, Keeps Relocates (apply_relas base rela n i) := by
  induction n with
  | zero => exact fun _ => keeps_pure ()
  | succ n ih =>
    refine fun i => Keeps.bind Relocates.append ?_ fun _ => ih (i + 1)
    refine Keeps.bind Relocates.append (x := memory) ?_ fun m =>
      Keeps.ite (keeps_relocStore _ _) (keeps_pure ())
    rintro s r s' ops h
    cases h
    exact Relocates.nil s

theorem keeps_relocate (elf_data base : Addr) : Keeps Relocates (relocate elf_data base) := by
  refine (keeps_eachPhdr (fun p a => ?_) _ _ _).bind Relocates.append fun dyn =>
    Keeps.ite ?_ (keeps_pure ())
  · exact (keeps_load _ _).bind Relocates.append fun _ =>
      Keeps.ite ((keeps_load _ _).bind Relocates.append fun _ => keeps_pure _) (keeps_pure _)
  · exact (keeps_dynamic _).bind Relocates.append fun _ =>
      Keeps.ite (keeps_apply_relas _ _ _ _) (keeps_pure ())

end Relocates

/-! ## The kernel in memory -/

section Kernel

variable {B : Boot} {m : Mem64} {r : Loaded} {s : Store} {ops : List Op}

/-- Byte `k` of a segment: of the file first, then zero. -/
def Segment.byte (f : List Byte) (g : Segment) (k : Nat) : Byte :=
  if k < g.filesz.toNat then f.getD (g.offset.toNat + k) 0 else 0

/-- What `load_elf` has done, with `r` its results: the segments are in memory but for
relocated words, a position-independent image was written inside its pages, and
the entry point is the file's. -/
structure KernelLoaded (B : Boot) (r : Loaded) (s : Store) (ops : List Op) : Prop where
  segments : ∀ g ∈ loads B.read.2, ∀ k < g.memsz.toNat,
    (∀ ps a, Op.store ps a ∈ ops → ¬InRange a 8 (r.base + g.vaddr + BitVec.ofNat 64 k)) →
      s.mem (r.base + g.vaddr + BitVec.ofNat 64 k) = g.byte B.read.2 k
  writes : isPie B.read.2 = true → ∀ ps a n, Op.write ps a n ∈ ops → Covered ps a n
  entry : r.entry_point = r.base + fileField B.read.2 0 e_entry

theorem image_byte {f : List Byte} {base : Addr} {g : Segment} {k : Nat} (hf : WellFormed f)
    (hlen : f.length < 2 ^ 64) (hg : g ∈ loads f) (hk : k < g.memsz.toNat) :
    image f base m (base + g.vaddr + BitVec.ofNat 64 k) = g.byte f k := by
  have hklt := g.memsz.isLt
  have hkn : (BitVec.ofNat 64 k).toNat = k := by
    rw [BitVec.toNat_ofNat, Nat.mod_eq_of_lt (by omega)]
  have hlt : BitVec.ofNat 64 k < g.filesz ↔ k < g.filesz.toNat := by rw [BitVec.lt_def, hkn]
  rw [BitVec.add_assoc, image, foldl_place_at hf.size hf.disjoint hg
    (inRange_self_add.mpr (by rwa [hkn])), add_sub_self_left, Segment.byte]
  simp only [hlt]
  split
  · rename_i hfile
    have hin := hf.file g hg
    rw [fileMem, BitVec.toNat_add, hkn, Nat.mod_eq_of_lt (by omega)]
  · rfl

theorem load_elf_ok (h : load_elf B m = some (.ok r, s, ops)) :
    load_image B B.dataPool.2 (B.filled m) = some (.ok r, s, ops) := by
  unfold load_elf at h
  split at h
  · cases h
  · split at h
    · cases h
    · split at h
      · cases h
      · split at h
        · cases h
        · exact h

/-- **The loaded kernel.** -/
theorem load_elf_image (hB : B.Behaves) (hf : WellFormed B.read.2)
    (h : load_elf B m = some (.ok r, s, ops))
    (hentry : ∀ ps a, Op.store ps a ∈ ops → ∀ k < 8,
      ¬InRange a 8 (B.dataPool.2 + BitVec.ofNat 64 (24 + k))) : KernelLoaded B r s ops := by
  have hlen : B.read.2.length < 2 ^ 64 := Nat.lt_of_le_of_lt hB.read B.getInfo.2.isLt
  have hspec := spec_load_segments hB (ready_filled B m) rfl
  have hpasses := passesOk hB hf
  -- the passes, the relocations, the entry point
  rcases bind_eq_some (load_elf_ok h) with ⟨e, he, -⟩ | ⟨⟨is_pie, base⟩, s1, l1, l2, h1, h2, rfl⟩
  · cases he
  obtain ⟨hacc, base', ps, hk, heq, hr, hmem, -⟩ := hspec.leaves hpasses _ _ _ h1
  cases heq
  have hok : ∀ op ∈ l1, op.Ok B.dataPool.2 B.read.2.length := by
    obtain ⟨_, _, ops, h1', hok⟩ := hspec.sound.mpr hpasses
    obtain rfl : l1 = ops :=
      (Prod.mk.inj (Prod.mk.inj (Option.some.inj (h1.symm.trans h1'))).2).2
    exact hok
  rcases bind_eq_some h2 with ⟨e, he, -⟩ | ⟨_, s2, l3, l4, h3, h4, rfl⟩
  · cases he
  have hreloc : Relocates s1 s2 l3 :=
    Keeps.ite (keeps_relocate _ _) (keeps_pure ()) _ _ _ _ h3
  rcases bind_eq_some h4 with ⟨e, he, -⟩ | ⟨entry, s3, l5, l6, h5, h6, rfl⟩
  · cases he
  have hentry' : entry = field s2.mem B.dataPool.2 e_entry ∧ s3 = s2 ∧
      l5 = [.read (B.dataPool.2 + BitVec.ofNat 64 24) 8] := by
    obtain ⟨hv, hrest⟩ := Prod.mk.inj (Option.some.inj h5)
    obtain ⟨hs, hl⟩ := Prod.mk.inj hrest
    exact ⟨(Except.ok.inj hv).symm, hs.symm, hl.symm⟩
  have hres : r = ⟨base + entry, base⟩ ∧ s = s3 ∧ l6 = [] := by
    clear h hentry
    cases h6
    exact ⟨rfl, rfl, rfl⟩
  obtain ⟨rfl, rfl, rfl⟩ := hentry'
  obtain ⟨rfl, rfl, rfl⟩ := hres
  refine ⟨fun g hg k hk hno => ?_, fun _ ps a n hw => ?_, ?_⟩
  · rw [hreloc.mem _ fun ps a ha => hno ps a (by simp [ha]), hmem]
    exact image_byte hf hlen hg hk
  · rcases List.mem_append.mp hw with hw | hw
    · exact hok _ hw
    · rcases List.mem_append.mp hw with hw | hw
      · exact absurd hw (hreloc.writes ps a n)
      · simp at hw
  · -- no relocation has hit the header's field
    have hsame : field s.mem B.dataPool.2 e_entry = field s1.mem B.dataPool.2 e_entry :=
      field_congr fun k hk => hreloc.mem _ fun ps a ha => hentry ps a (by simp [ha]) k hk
    have hfield := field_buffered (o := 0) hr (hpasses.2 hacc).1.2.2.2
    rw [show B.dataPool.2 + 0 = B.dataPool.2 from BitVec.add_zero _] at hfield
    rw [← hfield, ← hsame]

end Kernel

/-! ## A sample kernel -/

section Sample

/-- `v` in `n` bytes. -/
def le (n v : Nat) : List Byte := (List.range n).map fun k => BitVec.ofNat 8 (v / 256 ^ k)

/-- A program header. The addresses are those of the file modulo the alignment, 16. -/
def samplePhdr (type offset vaddr size : Nat) : List Byte :=
  le 4 type ++ le 4 7 ++ le 8 offset ++ le 8 vaddr ++ le 8 vaddr ++ le 8 size ++ le 8 size ++ le 8 16

/-- A position-independent kernel of one segment and one relocation, of the word at
`target`. -/
def sampleKernel (target : Nat) : List Byte :=
  le 8 0x102464C457F ++ le 8 0 ++ le 2 3 ++ le 2 183 ++ le 4 1 ++ le 8 0x100 ++ le 8 64 ++ le 8 0 ++
    le 4 0 ++ le 2 64 ++ le 2 56 ++ le 2 2 ++ le 2 0 ++ le 2 0 ++ le 2 0 ++
  samplePhdr 1 0 0 264 ++ samplePhdr 2 176 176 64 ++
  le 8 7 ++ le 8 240 ++ le 8 8 ++ le 8 24 ++ le 8 9 ++ le 8 24 ++ le 8 0 ++ le 8 0 ++
  le 8 target ++ le 8 1027 ++ le 8 0x1000

/-- A firmware with the file at 0x8000 and one page, at 0x10000. -/
def sampleBoot (file : List Byte) : Boot where
  infoPool := 0
  getInfo := (0, BitVec.ofNat 64 file.length)
  dataPool := (0, 0x8000#64)
  read := (0, file)
  allocatePages ps type n _ :=
    if ps = [] ∧ type = .AllocateAnyPages ∧ n = 1#64 then (0, 0x10000#64)
    else (0x8000000000000009#64, 0)

theorem sampleBoot_behaves {file : List Byte} (h : file.length ≤ 0x8000) :
    (sampleBoot file).Behaves where
  read := by
    simp only [sampleBoot, BitVec.toNat_ofNat]
    omega
  free ps type n a hok x hx hin := by
    simp only [sampleBoot] at hok hx hin
    by_cases hn : ps = [] ∧ type = .AllocateAnyPages ∧ n = 1#64
    · rw [if_pos hn, hn.2.2] at hx
      have hsub : ((0x10000#64 - 0x8000#64 : Addr)).toNat = 0x8000 := by decide
      have hsum : x - 0x8000#64 = (x - 0x10000#64) + (0x10000#64 - 0x8000#64) := by ring
      rw [InRange, hsum, BitVec.toNat_add, hsub, BitVec.toNat_ofNat] at hin
      have hx : (x - 0x10000#64).toNat < 4096 := hx
      omega
    · rw [if_neg hn] at hok
      exact hok (by decide)
  fixed ps n a hok := by
    simp only [sampleBoot, reduceCtorEq, false_and, and_false, if_false] at hok
    exact absurd (by decide) hok

theorem sampleKernel_wellFormed {f : List Byte} (hlen : f.length = 264)
    (hnum : fileField f 0 e_phnum = 2#64) (hent : fileField f 0 e_phentsize = 56#64)
    (hoff : fileField f 0 e_phoff = 64#64) (hloads : loads f = [⟨1#64, 0, 0, 264#64, 264#64⟩]) :
    WellFormed f where
  header := by omega
  int := by rw [hnum, hent]; decide
  table i hi := by
    rw [hnum] at hi
    have hi : i < 2 := hi
    rw [hoff, hent, hlen]
    simp only [BitVec.toNat_ofNat]
    omega
  file g hg := by
    rw [hloads, List.mem_singleton] at hg
    subst hg
    rw [hlen]
    decide
  size g hg := by
    rw [hloads, List.mem_singleton] at hg
    subst hg
    decide
  wrap g hg := by
    rw [hloads, List.mem_singleton] at hg
    subst hg
    decide
  disjoint := by
    rw [hloads]
    exact List.pairwise_singleton _ _

/-- The access leaves `e_entry` in the buffer. -/
def missesEntry (B : Boot) : Op → Bool
  | .store _ a => decide (∀ k < 8, ¬InRange a 8 (B.dataPool.2 + BitVec.ofNat 64 (24 + k)))
  | _ => true

theorem missesEntry_store {B : Boot} {ps : List Block} {a : Addr}
    (h : missesEntry B (.store ps a) = true) :
    ∀ k < 8, ¬InRange a 8 (B.dataPool.2 + BitVec.ofNat 64 (24 + k)) := of_decide_eq_true h

theorem load_elf_image_sample : ∃ r s ops,
    load_elf (sampleBoot (sampleKernel 8)) (fun _ => 0) = some (.ok r, s, ops) ∧
      KernelLoaded (sampleBoot (sampleKernel 8)) r s ops := by
  have hrun : ((load_elf (sampleBoot (sampleKernel 8)) fun _ => 0).any fun t =>
      t.1.toOption.isSome && t.2.2.all (missesEntry (sampleBoot (sampleKernel 8)))) = true := by
    decide +kernel
  rw [Option.any_eq_true] at hrun
  obtain ⟨⟨r, s, ops⟩, heq, hrun⟩ := hrun
  obtain ⟨hr, hops⟩ := Bool.and_eq_true _ _ |>.mp hrun
  cases r with
  | error e => cases hr
  | ok r =>
    refine ⟨r, s, ops, heq, load_elf_image (sampleBoot_behaves (by decide +kernel))
      (sampleKernel_wellFormed (by decide +kernel) (by decide +kernel) (by decide +kernel)
        (by decide +kernel) (by decide +kernel)) heq fun ps a ha => ?_⟩
    exact missesEntry_store (List.all_eq_true.mp hops _ ha)

/-- A relocation of the header's `e_entry`, in the file buffer. -/
theorem entry_relocated : ¬∀ (B : Boot) m r s ops, B.Behaves → WellFormed B.read.2 →
    load_elf B m = some (.ok r, s, ops) → KernelLoaded B r s ops := by
  intro H
  have hrun : ((load_elf (sampleBoot (sampleKernel (2 ^ 64 - 0x7FE8))) fun _ => 0).any fun t =>
      match t.1 with
      | .ok r => r = ⟨0x21000#64, 0x10000#64⟩
      | .error _ => false) = true := by decide +kernel
  rw [Option.any_eq_true] at hrun
  obtain ⟨⟨r, s, ops⟩, heq, hrun⟩ := hrun
  cases r with
  | error e => cases hrun
  | ok r =>
    obtain rfl : r = ⟨0x21000#64, 0x10000#64⟩ := of_decide_eq_true hrun
    have hentry := (H _ _ _ _ _ (sampleBoot_behaves (by decide +kernel))
      (sampleKernel_wellFormed (by decide +kernel) (by decide +kernel) (by decide +kernel)
        (by decide +kernel) (by decide +kernel)) heq).entry
    revert hentry
    decide +kernel

end Sample

end Osdev2.Efi
