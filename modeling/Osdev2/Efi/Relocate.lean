import Osdev2.Efi.Segments

/-!
# Relocations

The dynamic section and the relocation table are read from the loaded image.
`DynEnd` is the entry the loop over the section stops at, `dynValue` the value a
tag has there, and `relocated` memory after the first entries of the table, each
read as the ones before it have left it. `spec_relocate` is the exact condition
for the whole: the section ends and every relocation is inside the pages.
-/

namespace Osdev2.Efi

open Osdev2.Lib

/-! ## The dynamic section -/

section Dynamic

/-- The entry `n` of the section at `d`. -/
def dynAt (d : Addr) (n : Nat) : Addr := d + BitVec.ofNat 64 (16 * n)

/-- The entry `n` is the first `DT_NULL`. -/
def DynEnd (m : Mem64) (d : Addr) (n : Nat) : Prop :=
  field m (dynAt d n) d_tag = DT_NULL ∧ ∀ k < n, field m (dynAt d k) d_tag ≠ DT_NULL

/-- The value of the last of the first `n` entries with the tag, 0 without one. -/
def dynValue (m : Mem64) (d : Addr) (tag : BitVec 64) : Nat → BitVec 64
  | 0 => 0
  | n + 1 => if field m (dynAt d n) d_tag = tag then field m (dynAt d n) d_un
    else dynValue m d tag n

def relaInfo (m : Mem64) (d : Addr) (n : Nat) : RelaInfo where
  addr := dynValue m d DT_RELA n
  size := dynValue m d DT_RELASZ n
  ent := dynValue m d DT_RELAENT n

variable {m : Mem64} {d : Addr} {n : Nat}

theorem dynAt_succ (d : Addr) (n : Nat) : dynAt d (n + 1) = dynAt d n + 16#64 := by
  rw [dynAt, dynAt, Nat.mul_succ, BitVec.ofNat_add, BitVec.add_assoc]

theorem dynAt_mod (d : Addr) (n : Nat) : dynAt d (n % 2 ^ 60) = dynAt d n := by
  rw [dynAt, dynAt]
  congr 1
  apply BitVec.eq_of_toNat_eq
  rw [BitVec.toNat_ofNat, BitVec.toNat_ofNat]
  omega

theorem relaInfo_succ (m : Mem64) (d : Addr) (n : Nat) : relaInfo m d (n + 1) =
    (relaInfo m d n).entry (field m (dynAt d n) d_tag) (field m (dynAt d n) d_un) := by
  simp only [relaInfo, dynValue, RelaInfo.entry]
  generalize field m (dynAt d n) d_tag = tag
  by_cases h1 : tag = DT_RELA
  · subst h1
    rfl
  · by_cases h2 : tag = DT_RELASZ
    · subst h2
      rfl
    · by_cases h3 : tag = DT_RELAENT
      · subst h3
        rfl
      · simp only [if_neg h1, if_neg h2, if_neg h3]

/-- The loop from the entry `i` on. -/
theorem parse_dynamic_end (h : DynEnd m d n) : ∀ {fuel i : Nat}, i ≤ n → n < i + fuel →
    parse_dynamic m fuel (dynAt d i) (relaInfo m d i) = some (relaInfo m d n)
  | 0, _, hi, hn => absurd hn (Nat.not_lt.mpr hi)
  | fuel + 1, i, hi, hn => by
    rw [parse_dynamic]
    rcases Nat.eq_or_lt_of_le hi with rfl | hlt
    · rw [if_pos h.1]
    · rw [if_neg (h.2 i hlt), ← dynAt_succ, ← relaInfo_succ]
      exact parse_dynamic_end h hlt (by omega)

theorem parse_dynamic_none : ∀ {fuel i : Nat} {r : RelaInfo},
    (∀ k, field m (dynAt d k) d_tag ≠ DT_NULL) → parse_dynamic m fuel (dynAt d i) r = none
  | 0, _, _, _ => rfl
  | fuel + 1, i, r, h => by
    rw [parse_dynamic, if_neg (h i), ← dynAt_succ]
    exact parse_dynamic_none h

theorem DynEnd.lt (h : DynEnd m d n) : n < 2 ^ 60 := by
  by_contra hge
  refine h.2 (n % 2 ^ 60) (by omega) ?_
  rw [dynAt_mod]
  exact h.1

theorem DynEnd.le {n' : Nat} (h : DynEnd m d n) (h' : DynEnd m d n') : n ≤ n' :=
  Nat.le_of_not_lt fun hlt => h.2 n' hlt h'.1

theorem DynEnd.unique {n' : Nat} (h : DynEnd m d n) (h' : DynEnd m d n') : n = n' :=
  Nat.le_antisymm (h.le h') (h'.le h)

/-- The loop ends exactly when the section has a `DT_NULL`. -/
theorem spec_dynamic {elf_data : Addr} {size : Nat} {s : Store} :
    Spec (Op.Ok elf_data size) (dynamic d) s (∃ n, DynEnd s.mem d n) fun r s' =>
      s' = s ∧ ∀ n, DynEnd s.mem d n → r = .ok (relaInfo s.mem d n) := by
  have h0 : dynAt d 0 = d := BitVec.add_zero d
  by_cases h : ∃ n, DynEnd s.mem d n
  · obtain ⟨n, hn⟩ := h
    have hp := parse_dynamic_end hn (Nat.zero_le n) (Nat.lt_of_lt_of_eq hn.lt (Nat.zero_add _).symm)
    rw [h0] at hp
    have hrun : dynamic d s = some (.ok (relaInfo s.mem d n), s, []) := by
      rw [dynamic, show (⟨0, 0, 0⟩ : RelaInfo) = relaInfo s.mem d 0 from rfl, hp]
      rfl
    refine Spec.of_eq hrun ?_ fun _ => ?_
    · simp only [List.not_mem_nil, false_implies, implies_true, true_iff]
      exact ⟨n, hn⟩
    · exact ⟨rfl, fun n' hn' => by rw [hn.unique hn']⟩
  · have hnone : ∀ k, field s.mem (dynAt d k) d_tag ≠ DT_NULL := fun k hk => by
      classical
      have hex : ∃ k, field s.mem (dynAt d k) d_tag = DT_NULL := ⟨k, hk⟩
      exact h ⟨Nat.find hex, Nat.find_spec hex, fun j hj => Nat.find_min hex hj⟩
    have hp : parse_dynamic s.mem (2 ^ 60) (dynAt d 0) ⟨0, 0, 0⟩ = none := parse_dynamic_none hnone
    rw [h0] at hp
    refine ⟨⟨?_, fun hc => absurd hc h⟩, fun hc => absurd hc h⟩
    rintro ⟨r, s', ops, hr, -⟩
    rw [dynamic, hp] at hr
    cases hr

end Dynamic

/-! ## The relocation table -/

section Table

/-- `rela[i]` of the table at `rela`. -/
def relaAt (rela : Addr) (i : Nat) : Addr := rela + BitVec.ofNat 64 (24 * i)

def IsRelative (m : Mem64) (r : Addr) : Prop :=
  field m r r_info &&& 0xFFFFFFFF#64 = R_AARCH64_RELATIVE

instance (m : Mem64) (r : Addr) : Decidable (IsRelative m r) :=
  inferInstanceAs (Decidable (_ = _))

/-- Memory after the first `n` entries of the table. -/
def relocated (base rela : Addr) (m : Mem64) : Nat → Mem64
  | 0 => m
  | n + 1 =>
    let m := relocated base rela m n
    let r := relaAt rela n
    if IsRelative m r then store64 m (base + field m r r_offset) (base + field m r r_addend) else m

/-- The entry `i`, as it stands when its turn comes, relocates a word of the pages. -/
def RelaOk (ps : List Block) (base rela : Addr) (m : Mem64) (i : Nat) : Prop :=
  let m := relocated base rela m i
  IsRelative m (relaAt rela i) → Covered ps (base + field m (relaAt rela i) r_offset) 8

variable {elf_data base rela : Addr} {size : Nat} {m : Mem64} {s : Store}

theorem spec_apply_rela {i : Nat} (h : s.mem = relocated base rela m i) :
    Spec (Op.Ok elf_data size) (apply_rela base rela i) s (RelaOk s.pages base rela m i)
      fun r s' => r = .ok () ∧ s'.pages = s.pages ∧ s'.mem = relocated base rela m (i + 1) := by
  have hmem : Spec (Op.Ok elf_data size) memory s True fun r s' => r = .ok s.mem ∧ s' = s :=
    Spec.of_eq rfl (by simp) fun _ => ⟨rfl, rfl⟩
  have hnext : relocated base rela m (i + 1) = if IsRelative s.mem (relaAt rela i) then
      store64 s.mem (base + field s.mem (relaAt rela i) r_offset)
        (base + field s.mem (relaAt rela i) r_addend) else s.mem := by
    rw [h]
    rfl
  rw [hnext, RelaOk, ← h]
  refine hmem.bind_known trivial (Spec.ite (fun hrel => ?_) fun hrel => ?_)
  · rw [if_pos (show IsRelative s.mem (relaAt rela i) from hrel)]
    exact Spec.of_eq rfl (by rw [List.forall_mem_singleton]; rfl) fun _ => ⟨rfl, rfl, rfl⟩
  · rw [if_neg (show ¬IsRelative s.mem (relaAt rela i) from hrel)]
    exact (Spec.pure ()).mono (by rintro _ _ - ⟨rfl, rfl⟩; exact ⟨rfl, rfl, rfl⟩)

theorem spec_apply_relas : ∀ {n i : Nat} {s : Store}, s.mem = relocated base rela m i →
    Spec (Op.Ok elf_data size) (apply_relas base rela n i) s
      (∀ j, i ≤ j → j < i + n → RelaOk s.pages base rela m j)
      fun r s' => r = .ok () ∧ s'.mem = relocated base rela m (i + n)
  | 0, i, s, h => by
    refine ((Spec.pure ()).congr ?_).mono ?_
    · exact ⟨fun _ j h1 h2 => absurd h2 (Nat.not_lt.mpr h1), fun _ => trivial⟩
    · rintro _ _ - ⟨rfl, rfl⟩
      exact ⟨rfl, h⟩
  | n + 1, i, s, h => by
    refine Spec.congr ((spec_apply_rela h).bind ?_ ?_)
      (C := RelaOk s.pages base rela m i ∧ ∀ j, i + 1 ≤ j → j < i + 1 + n →
        RelaOk s.pages base rela m j) ?_
    · rintro _ s' - ⟨⟨⟩, hp, hm⟩
      rw [← hp, show i + (n + 1) = i + 1 + n by omega]
      exact spec_apply_relas hm
    · rintro _ _ - ⟨⟨⟩, -⟩
    · constructor
      · rintro ⟨h1, h2⟩ j hj hjn
        rcases Nat.eq_or_lt_of_le hj with rfl | hlt
        · exact h1
        · exact h2 j hlt (by omega)
      · exact fun h => ⟨h i (Nat.le_refl i) (by omega), fun j hj hjn => h j (by omega) (by omega)⟩

end Table

/-! ## The relocations of the image -/

section Relocate

variable {elf_data base : Addr} {f : List Byte} {s : Store}

/-- The first `PT_DYNAMIC` header of `os`. -/
def dynHeader (f : List Byte) (os : List Addr) : Option Addr :=
  os.find? fun o => fileField f o p_type = PT_DYNAMIC

/-- The dynamic section in the image, 0 without one. -/
def dynAddr (f : List Byte) (base : Addr) (os : List Addr) : Addr :=
  match dynHeader f os with
  | none => 0
  | some o => base + fileField f o p_vaddr

theorem spec_find_dynamic (h : Ready elf_data f s) (hh : HeaderRead f) {os : List Addr} :
    ∀ {fuel i : Nat}, (offsets f).drop i = os → os.length < fuel → (∀ o ∈ os, Measured f o) →
      Spec (Op.Ok elf_data f.length) (eachPhdr elf_data (find_dynamic base) fuel i 0) s
        (∀ o, dynHeader f os = some o → Has f o p_vaddr)
        fun r s' => r = .ok (dynAddr f base os) ∧ s' = s := by
  induction os with
  | nil =>
    intro fuel i hi hfuel _
    exact (eachPhdr_nil h hh hi hfuel).congr ⟨fun _ _ h => (by cases h), fun _ => trivial⟩
  | cons o os ih =>
    intro fuel i hi hfuel hm
    have hload := spec_load h o p_type
    by_cases ht : fileField f o p_type = PT_DYNAMIC
    · have hd : dynHeader f (o :: os) = some o := List.find?_cons_of_pos (by simpa using ht)
      have hbody : Spec (Op.Ok elf_data f.length) (find_dynamic base (elf_data + o) 0) s
          (Has f o p_vaddr)
          fun r s' => r = .ok (.done (base + fileField f o p_vaddr)) ∧ s' = s := by
        refine hload.bind_known (hm o List.mem_cons_self).1 ?_
        rw [if_pos ht]
        refine Spec.congr ?_ (and_iff_left trivial)
        exact (spec_load h o p_vaddr).bind_ok fun _ => Spec.pure _
      simp only [dynAddr, hd, Option.some.injEq, forall_eq']
      refine Spec.congr (eachPhdr_cons (D := True) h hh hi hfuel hbody ?_ ?_ ?_)
        (and_iff_left trivial)
      · rintro _ _ - ⟨⟨⟩, -⟩
      · rintro _ _ - ⟨⟨⟩, rfl⟩
        exact ⟨trivial, rfl, rfl⟩
      · rintro _ _ - ⟨⟨⟩, -⟩
    · have hd : dynHeader f (o :: os) = dynHeader f os :=
        List.find?_cons_of_neg (by simpa using ht)
      have hbody : Spec (Op.Ok elf_data f.length) (find_dynamic base (elf_data + o) 0) s True
          fun r s' => r = .ok (.yield 0) ∧ s' = s := by
        refine hload.bind_known (hm o List.mem_cons_self).1 ?_
        rw [if_neg ht]
        exact Spec.pure _
      simp only [dynAddr, hd]
      refine Spec.congr (eachPhdr_cons h hh hi hfuel hbody ?_ ?_ ?_) (and_iff_right trivial)
      · rintro _ _ - ⟨⟨⟩, rfl⟩ fuel' hos hfuel'
        exact ih hos hfuel' fun o ho => hm o (List.mem_cons_of_mem _ ho)
      · rintro _ _ - ⟨⟨⟩, -⟩
      · rintro _ _ - ⟨⟨⟩, -⟩

/-- The dynamic section at `d` ends, and every entry of its relocation table that is
applied relocates a word of the pages. -/
def DynamicOk (ps : List Block) (base d : Addr) (m : Mem64) : Prop :=
  ∃ n, DynEnd m d n ∧
    let r := relaInfo m d n
    r.addr ≠ 0 ∧ r.size ≠ 0 ∧ r.ent ≠ 0 →
      ∀ i < r.size.toNat / r.ent.toNat, RelaOk ps base (base + r.addr) m i

/-- Memory after the relocations of the section at `d`, of `n` entries. -/
def applied (base d : Addr) (m : Mem64) (n : Nat) : Mem64 :=
  let r := relaInfo m d n
  if r.addr ≠ 0 ∧ r.size ≠ 0 ∧ r.ent ≠ 0 then
    relocated base (base + r.addr) m (r.size.toNat / r.ent.toNat)
  else m

theorem spec_apply_dynamic {size : Nat} {d : Addr} :
    Spec (Op.Ok elf_data size) (apply_dynamic base d) s (DynamicOk s.pages base d s.mem)
      fun r s' => r = .ok () ∧ ∀ n, DynEnd s.mem d n → s'.mem = applied base d s.mem n := by
  refine Spec.congr (spec_dynamic.bind (D := DynamicOk s.pages base d s.mem) ?_ ?_)
    ⟨fun h => h.2, fun h => ⟨h.imp fun _ hn => hn.1, h⟩⟩
  · rintro r s' ⟨n, hn⟩ ⟨rfl, hq⟩
    obtain rfl : r = relaInfo s'.mem d n := Except.ok.inj (hq n hn)
    refine Spec.congr (Spec.ite (fun hr => (spec_apply_relas (m := s'.mem) (i := 0) rfl).mono
      fun _ _ _ h => ⟨h.1, fun n' hn' => ?_⟩) fun hr => ?_)
      ⟨fun h => ⟨n, hn, fun hr i hi => h hr i (Nat.zero_le i) (by omega)⟩, ?_⟩
    · rw [hn'.unique hn, h.2, Nat.zero_add]
      exact (if_pos hr).symm
    · refine (Spec.pure ()).mono ?_
      rintro _ _ - ⟨rfl, rfl⟩
      refine ⟨rfl, fun n' hn' => ?_⟩
      rw [hn'.unique hn]
      exact (if_neg hr).symm
    · rintro ⟨n', hn', h⟩ hr i - hi
      rw [hn'.unique hn] at h
      exact h hr i (by omega)
  · rintro e s' ⟨n, hn⟩ ⟨-, hq⟩
    cases hq n hn

/-- **Relocation.** -/
theorem spec_relocate (h : Ready elf_data f s) (hh : HeaderRead f)
    (hm : ∀ o ∈ offsets f, Measured f o) :
    Spec (Op.Ok elf_data f.length) (relocate elf_data base) s
      ((∀ o, dynHeader f (offsets f) = some o → Has f o p_vaddr) ∧
        (dynAddr f base (offsets f) ≠ 0 →
          DynamicOk s.pages base (dynAddr f base (offsets f)) s.mem))
      fun r s' => r = .ok () ∧ if dynAddr f base (offsets f) ≠ 0 then
          ∀ n, DynEnd s.mem (dynAddr f base (offsets f)) n →
            s'.mem = applied base (dynAddr f base (offsets f)) s.mem n
        else s'.mem = s.mem := by
  refine (spec_find_dynamic h hh List.drop_zero (length_offsets_lt f) hm).bind_ok fun _ =>
    Spec.ite (fun hd => ?_) fun hd => ?_
  · refine spec_apply_dynamic.mono fun r s' _ h => ⟨h.1, ?_⟩
    rw [if_pos hd]
    exact h.2
  · refine (Spec.pure ()).mono ?_
    rintro _ _ - ⟨rfl, rfl⟩
    refine ⟨rfl, ?_⟩
    rw [if_neg hd]

end Relocate

end Osdev2.Efi
