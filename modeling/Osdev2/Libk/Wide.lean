import Osdev2.Libk.Radix
import Osdev2.Libk.Padding

/-!
# Wide unsigned arguments

`vprintf` hands an `uint64_t` to `__int_str` as an `intmax_t`. From `2 ^ 63` on it has
a minus, and from `limit` on the division does not end: `denotes_iff`.
-/

namespace Osdev2.Libk

open Osdev2.Lib

/-! ## The argument -/

/-- The lengths of an `uint64_t`. -/
def wideLengths : List Length := [.ll, .j, .l]

/-- The unsigned conversions, but for `x`. -/
def unsignedConvs : List IntConv := [.u, .o, .X]

namespace Conversion

variable (W : Nat) (c : Conversion) (args : Nat → Nat)

/-- The width, from the format or an argument. -/
def fieldWidth : BitVec 32 := (c.width.take W ⟨args, 0⟩).1

/-- The arguments after those of `*`. -/
def restArgs : VaList := (takePrecision W (c.width.take W ⟨args, 0⟩).2 c.precision).2

/-- The `uint64_t` that is passed. -/
def wideArg : Nat := (va_arg W 64 (c.restArgs W args)).1

/-- The conversion, alone in its format, displays no minus, and characters that denote its argument,
the same on every console. -/
def Denotes (conv : IntConv) : Prop :=
  ∃ l, ch '-' ∉ l ∧ ReadAs conv.radix (strip l) (c.wideArg W args) ∧
    ∀ (σ : Type) (K : Console σ) (t : σ), printf K W (strOf (formatOf [.conv c])) args t =
      some (l.foldl (fun t c => K.putc c t) t)

/-- The division ends on the argument, and the field and the format are of a size `vprintf`
handles. -/
structure Fits (conv : IntConv) : Prop where
  arg : c.wideArg W args < limit conv.radix
  width : -2 ^ 31 + (digitsText conv.radix (c.wideArg W args)).length ≤ (c.fieldWidth W args).toInt ∧
    (c.fieldWidth W args).toInt ≤ 255
  format : (Piece.conv c).text.length < 2 ^ 31

end Conversion

theorem wideArg_lt (W : Nat) (c : Conversion) (args : Nat → Nat) : c.wideArg W args < 2 ^ 64 :=
  Nat.mod_lt _ (by decide)

theorem unsignedArg_wide {W : Nat} {length : Length} (h : length ∈ wideLengths) (va : VaList) :
    unsignedArg W length.code va =
      some (BitVec.ofNat 64 (va_arg W 64 va).1, (va_arg W 64 va).2) := by
  fin_cases h <;> simp +decide only [unsignedArg, if_true, if_false]

theorem radix_eq_base {conv : IntConv} (h : conv ∈ unsignedConvs) :
    conv.signed = false ∧ conv.base.toNat = conv.radix ∧ 1 < conv.radix ∧ conv.radix ≤ 16 ∧
      limit conv.radix ≤ 2 ^ 63 := by
  fin_cases h <;> decide

section Wide

variable {W : Nat} {c : Conversion} {length : Length} {conv : IntConv} {args : Nat → Nat} {σ : Type}
  {K : Console σ}

theorem turn_wide (hW : W = 32 ∨ W = 64) (hflags : c.flags = []) (hk : c.kind = .int length conv)
    (hlen : length ∈ wideLengths) (hconv : conv ∈ unsignedConvs)
    (hmem : (Piece.conv c).text.length < 2 ^ W) (o : Out σ) :
    vprintf.turn K W (strOf (formatOf [.conv c])) 0 ⟨args, 0⟩ o =
      if (Piece.conv c).text.length < 2 ^ 31 then
        (displayInt K W (c.spec (c.fieldWidth W args)
          (takePrecision W (c.width.take W ⟨args, 0⟩).2 c.precision).1 conv.char) conv.base
          (BitVec.ofNat 64 (c.wideArg W args)) o).map fun o =>
            ((Piece.conv c).text.length, (va_arg W 64 (c.restArgs W args)).2, o)
      else none := by
  have hW32 : 32 ≤ W := by omega
  have hformat : formatOf [.conv c] = (Piece.conv c).text := List.append_nil _
  have htext : (Piece.conv c).text.length = c.middle.length + 2 := by
    rw [Piece.text, List.length_cons, List.length_append, List.length_singleton]
  have hat : ReadsAt (strOf (formatOf [.conv c])) 0 (Piece.conv c).text := fun j _ => by
    rw [hformat, Nat.zero_add]
    rfl
  obtain ⟨h0, h1⟩ := readsAt_cons.mp hat
  have hparse := parseSpec_conversion (W := W) h1 (by omega) ⟨args, 0⟩
  have hhh : c.kind.length ≠ .hh := by
    rw [hk]
    rintro rfl
    exact absurd hlen (by decide)
  have hspec : strOf (formatOf [.conv c]) (0 + 1 + c.middle.length) = conv.char := by
    have h := (readsAt_cons.mp (readsAt_append.mp h1).2).1
    rwa [hk] at h
  have hprefix : c.prefixOf conv = [] := by
    have hno : c.has .altForm = false := by rw [Conversion.has, hflags]; rfl
    cases conv <;> simp [Conversion.prefixOf, hno]
  have hconvert : convert K W (c.spec (c.fieldWidth W args)
      (takePrecision W (c.width.take W ⟨args, 0⟩).2 c.precision).1 conv.char) (c.restArgs W args) o =
      (displayInt K W (c.spec (c.fieldWidth W args)
        (takePrecision W (c.width.take W ⟨args, 0⟩).2 c.precision).1 conv.char) conv.base
        (BitVec.ofNat 64 (c.wideArg W args)) o).map fun o =>
          ((va_arg W 64 (c.restArgs W args)).2, o) := by
    rw [convert_unsigned hW32 hk (radix_eq_base hconv).1, hprefix, displayUnsigned, unsignedArg_wide hlen]
    rfl
  simp only [if_neg hhh, hspec] at hparse
  rw [vprintf.turn, vprintf.item, if_pos h0, hparse]
  simp only [Option.bind_eq_bind, Option.bind_some]
  rw [Conversion.fieldWidth, Conversion.restArgs] at hconvert
  rw [hconvert, Conversion.fieldWidth, htext]
  cases displayInt K W (c.spec (c.width.take W ⟨args, 0⟩).1
    (takePrecision W (c.width.take W ⟨args, 0⟩).2 c.precision).1 conv.char) conv.base
    (BitVec.ofNat 64 (c.wideArg W args)) o with
  | none => simp
  | some o =>
    simp only [Option.map_some, Option.bind_some, Option.pure_def,
      show 0 + 1 + c.middle.length + 1 = c.middle.length + 2 by omega]
    rfl

/-- The conversion displays its number if the number can be printed, and else `printf` does not
return. -/
theorem printf_wide (hW : W = 32 ∨ W = 64) (hflags : c.flags = []) (hk : c.kind = .int length conv)
    (hlen : length ∈ wideLengths) (hconv : conv ∈ unsignedConvs)
    (hmem : (Piece.conv c).text.length < 2 ^ W) (t : σ) :
    printf K W (strOf (formatOf [.conv c])) args t =
      if (Piece.conv c).text.length < 2 ^ 31 then
        (displayInt K W (c.spec (c.fieldWidth W args)
          (takePrecision W (c.width.take W ⟨args, 0⟩).2 c.precision).1 conv.char) conv.base
          (BitVec.ofNat 64 (c.wideArg W args)) ⟨0, t⟩).map Out.con
      else none := by
  have hW2 : 2 ^ 32 ≤ 2 ^ W := Nat.pow_le_pow_right (by decide) (by omega)
  obtain ⟨f, hf⟩ : ∃ f, 2 ^ W = f + 2 := ⟨2 ^ W - 2, by omega⟩
  have hformat : formatOf [.conv c] = (Piece.conv c).text := List.append_nil _
  have h0 : strOf (formatOf [.conv c]) 0 ≠ 0 := by
    rw [hformat]
    exact (by decide : ch '%' ≠ 0)
  have hend : strOf (formatOf [.conv c]) (Piece.conv c).text.length = 0 := by
    rw [hformat, strOf, List.getD_eq_default _ _ (Nat.le_refl _)]
  rw [printf, hf, vprintf, if_neg h0, turn_wide hW hflags hk hlen hconv hmem]
  split
  · cases displayInt K W (c.spec (c.fieldWidth W args)
      (takePrecision W (c.width.take W ⟨args, 0⟩).2 c.precision).1 conv.char) conv.base
      (BitVec.ofNat 64 (c.wideArg W args)) ⟨0, t⟩ with
    | none => rfl
    | some o =>
      simp only [Option.map_some, Option.bind_eq_bind, Option.bind_some]
      rw [vprintf, if_pos hend]
      rfl
  · rfl

theorem printf_wide_some (hW : W = 32 ∨ W = 64) (hflags : c.flags = []) (hk : c.kind = .int length conv)
    (hlen : length ∈ wideLengths) (hconv : conv ∈ unsignedConvs)
    (hshort : (Piece.conv c).text.length < 2 ^ 31)
    (hp : c.Printable conv.base (BitVec.ofNat 64 (c.wideArg W args)) (c.fieldWidth W args).toInt) (t : σ) :
    printf K W (strOf (formatOf [.conv c])) args t =
      some ((c.number conv.base (BitVec.ofNat 64 (c.wideArg W args)) (c.fieldWidth W args).toInt).foldl
        (fun t c => K.putc c t) t) := by
  have hW2 : 2 ^ 32 ≤ 2 ^ W := Nat.pow_le_pow_right (by decide) (by omega)
  rw [printf_wide hW hflags hk hlen hconv (by omega), if_pos hshort,
    (displayInt_spec (by omega) (radix_base conv) _ _).1 hp, Option.map_some, display_con]

theorem printf_wide_none (hW : W = 32 ∨ W = 64) (hflags : c.flags = []) (hk : c.kind = .int length conv)
    (hlen : length ∈ wideLengths) (hconv : conv ∈ unsignedConvs)
    (hmem : (Piece.conv c).text.length < 2 ^ W)
    (h : ¬((Piece.conv c).text.length < 2 ^ 31 ∧
      c.Printable conv.base (BitVec.ofNat 64 (c.wideArg W args)) (c.fieldWidth W args).toInt)) (t : σ) :
    printf K W (strOf (formatOf [.conv c])) args t = none := by
  rw [printf_wide hW hflags hk hlen hconv hmem]
  split
  · rename_i hshort
    rw [(displayInt_spec (by omega) (radix_base conv) _ _).2 fun hp => h ⟨hshort, hp⟩]
    rfl
  · rfl

theorem number_bare (hflags : c.flags = []) {base : BitVec 32} (hb : 1 < base.toNat) (hb16 : base.toNat ≤ 16)
    (v : BitVec 64) (width : Int) :
    c.number base v width = padded (unpadded base.toNat v false false) width false false := by
  have hno : ∀ f, c.has f = false := fun f => by rw [Conversion.has, hflags]; rfl
  rw [Conversion.number, hno, hno, hno, hno]
  exact List.takeWhile_eq_self_iff.mpr fun x hx =>
    bne_iff_ne.mpr (text_ne_zero hb hb16 v false false width false false x hx)

theorem printable_iff (hflags : c.flags = []) {base : BitVec 32} (hb : 1 < base.toNat)
    (hb16 : base.toNat ≤ 16) (v : BitVec 64) (width : Int) : c.Printable base v width ↔
      (magnitude v).toNat < limit base.toNat ∧
        -2 ^ 31 + (unpadded base.toNat v false false).length ≤ width ∧ width ≤ 255 := by
  have hno : ∀ f, c.has f = false := fun f => by rw [Conversion.has, hflags]; rfl
  have hne : ∀ x ∈ unpadded base.toNat v false false, x ≠ 0 := fun x hx =>
    text_ne_zero hb hb16 v false false 0 false false x (by
      rw [padded, if_neg Bool.false_ne_true]
      exact List.mem_append_right _ hx)
  rw [Conversion.Printable, hno, hno, hno, room_iff hne]

/-- **Wide arguments.** An unsigned conversion of a wide argument, without flags, is right exactly if
the division ends on the argument, and the field fits. -/
theorem denotes_iff (hW : W = 32 ∨ W = 64) (hflags : c.flags = []) (hk : c.kind = .int length conv)
    (hlen : length ∈ wideLengths) (hconv : conv ∈ unsignedConvs)
    (hmem : (Piece.conv c).text.length < 2 ^ W) : c.Denotes W args conv ↔ c.Fits W args conv := by
  obtain ⟨-, hbase, hb, hb16, hlimit⟩ := radix_eq_base hconv
  rw [← hbase] at hb hb16 hlimit
  obtain ⟨v, hv⟩ : ∃ v, v = BitVec.ofNat 64 (c.wideArg W args) := ⟨_, rfl⟩
  have hvn : v.toNat = c.wideArg W args := by
    rw [hv, BitVec.toNat_ofNat, Nat.mod_eq_of_lt (wideArg_lt W c args)]
  have hnumber := number_bare hflags hb hb16 v (c.fieldWidth W args).toInt
  have hprintable := printable_iff hflags hb hb16 v (c.fieldWidth W args).toInt
  constructor
  · rintro ⟨l, hminus, -, hl⟩
    by_contra hfits
    by_cases h : (Piece.conv c).text.length < 2 ^ 31 ∧
        c.Printable conv.base (BitVec.ofNat 64 (c.wideArg W args)) (c.fieldWidth W args).toInt
    · -- it is displayed, with a minus
      have hshown := (printf_wide_some hW hflags hk hlen hconv h.1 h.2 []).symm.trans (hl _ recorder [])
      simp only [foldl_recorder, List.nil_append, Option.some.injEq, ← hv, hnumber] at hshown
      rw [← hv, hprintable] at h
      apply hfits
      by_cases hneg : v.slt 0 = true
      · refine absurd ?_ hminus
        rw [← hshown, padded, if_neg Bool.false_ne_true, unpadded, signText, if_pos hneg]
        simp
      · have hsmall : v.toNat < 2 ^ 63 := by
          rw [BitVec.slt_eq_decide, BitVec.toInt_eq_toNat_cond] at hneg
          by_contra hge
          rw [if_neg (by omega)] at hneg
          have hlt := v.isLt
          simp at hneg
          omega
        rw [unsigned_text _ hsmall, (magnitude_of_lt hsmall).2, hvn, hbase] at h
        exact ⟨h.2.1, h.2.2, h.1⟩
    · exact absurd ((printf_wide_none (K := recorder) hW hflags hk hlen hconv hmem h []).symm.trans
        (hl _ recorder [])) (by simp)
  · rintro ⟨harg, hwidth, hshort⟩
    rw [← hvn, ← hbase] at harg hwidth
    have hsmall : v.toNat < 2 ^ 63 := by omega
    have hplain := unsigned_text conv.base.toNat hsmall
    have hp : c.Printable conv.base v (c.fieldWidth W args).toInt := by
      rw [hprintable, hplain, (magnitude_of_lt hsmall).2]
      exact ⟨harg, hwidth⟩
    have hdigits : ∀ d ∈ numeral conv.base.toNat v.toNat, d < conv.base.toNat := numeral_lt hb
    have htext : c.number conv.base v (c.fieldWidth W args).toInt =
        List.replicate
          ((c.fieldWidth W args).toInt - (digitsText conv.base.toNat v.toNat).length).toNat (ch ' ') ++
          ([] ++ (numeral conv.base.toNat v.toNat).map digitChar) ++ List.replicate 0 (ch ' ') := by
      rw [hnumber, hplain, padded, if_neg Bool.false_ne_true, if_neg Bool.false_ne_true, List.replicate_zero,
        List.append_nil]
      rfl
    refine ⟨c.number conv.base v (c.fieldWidth W args).toInt, ?_, ?_, fun σ K t => ?_⟩
    · rw [htext]
      intro hmem
      simp only [List.nil_append, List.replicate_zero, List.append_nil, List.mem_append, List.mem_map] at hmem
      rcases hmem with hmem | ⟨d, hd, he⟩
      · exact absurd (List.eq_of_mem_replicate hmem) (by decide)
      · exact (digitChar_facts d (Nat.lt_of_lt_of_le (hdigits d hd) hb16)).2.2.2.1 he
    · rw [htext, ← hbase, readAs_strip hb16 (by decide) (numeral_ne_nil hb) hdigits, horner_numeral hb, ← hvn]
      rfl
    · rw [hv] at hp ⊢
      exact printf_wide_some hW hflags hk hlen hconv hshort hp t

end Wide

/-- `%llu`, `%lo` and their like. -/
def wide (length : Length) (conv : IntConv) : Conversion := ⟨[], .digits [], no_width, none, .int length conv⟩

theorem denotes_iff_two :
    (wide .ll .X).Denotes 32 (fun i => if i = 0 then 2 ^ 31 else 0) .X ↔
      (wide .ll .X).Fits 32 (fun i => if i = 0 then 2 ^ 31 else 0) .X :=
  denotes_iff (.inl rfl) rfl rfl (by decide) (by decide) (by decide)

/-- `%llu` of `2 ^ 64 - 1`: `-1`. -/
theorem denotes_not : ¬(wide .ll .u).Denotes 64 (fun _ => 2 ^ 64 - 1) .u := by
  rintro ⟨l, hminus, -, hl⟩
  have h1 : printf recorder 64 (strOf (formatOf [.conv (wide .ll .u)])) (fun _ => 2 ^ 64 - 1) [] =
      some [ch '-', ch '1'] := by decide +kernel
  have hshown := h1.symm.trans (hl _ recorder [])
  rw [foldl_recorder, List.nil_append, Option.some.injEq] at hshown
  exact hminus (hshown ▸ by decide)

end Osdev2.Libk
