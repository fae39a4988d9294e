import Osdev2.Libk.Number

/-!
# What `printf` does to its console

`Prints I x`: the computation `x` returns, and keeps `I`. For an `I` that `putc`
keeps, the pieces of a format are handled one by one: literal characters
(`vprintf_lits`), a conversion (`vprintf_conv`), the end (`vprintf_end`). The
formats of the kernel follow.
-/

namespace Osdev2.Libk

open Osdev2.Lib

def Prints {σ : Type} (I : σ → Prop) (x : Option (Out σ)) : Prop := ∃ o, x = some o ∧ I o.con

section Prints

variable {σ : Type} {K : Console σ} {W : Nat} {I : σ → Prop} {format : CStr} {o : Out σ}

theorem displayArray_prints (hputc : ∀ c t, I t → I (K.putc c t)) {a : CStr} {n : Nat}
    (hn : n < 2 ^ W) (ha : a n = 0) (hI : I o.con) : Prints I (displayArray K W a o) := by
  let J : Out σ → Prop := fun o => I o.con
  exact forEachChar_returns (I := J) (fun c t h => hputc c t.con h) (fun _ _ => ha) hI
    (Nat.zero_le n) (by omega)

/-- A string is displayed if memory holds a NUL that printing leaves alone: the
scan meets it, or another before it. -/
theorem displayString_prints (hputc : ∀ c t, I t → I (K.putc c t)) {z : Nat} (hz : z < 2 ^ W)
    (hnul : ∀ t, I t → K.mem t z = 0) (p : Nat) (hI : I o.con) :
    Prints I (displayString K W p o) := by
  let J : Out σ → Prop := fun o => I o.con
  obtain ⟨n, hn, he⟩ := exists_ptrAdd p hz
  exact forEachChar_returns (I := J) (n := n) (fun c t h => hputc c t.con h)
    (fun t h => (congrArg (K.mem t.con) he).trans (hnul t.con h)) hI (Nat.zero_le n) (by omega)

theorem vprintf_end {fuel i : Nat} {va : VaList} (h0 : format i = 0) (hI : I o.con) :
    Prints I (vprintf K W format (fuel + 1) i va o) :=
  ⟨o, by rw [vprintf, if_pos h0], hI⟩

theorem vprintf_lits (hputc : ∀ c t, I t → I (K.putc c t)) {va : VaList} {fuel : Nat} :
    ∀ {n i : Nat} {o : Out σ}, i + n < 2 ^ 31 →
      (∀ j, j < n → format (i + j) ≠ 0 ∧ format (i + j) ≠ ch '%') →
      I o.con → (∀ o : Out σ, I o.con → Prints I (vprintf K W format fuel (i + n) va o)) →
      Prints I (vprintf K W format (fuel + n) i va o)
  | 0, _, o, _, _, hI, hk => hk o hI
  | n + 1, i, o, hn, hl, hI, hk => by
    obtain ⟨h1, h2⟩ := hl 0 (Nat.succ_pos n)
    rw [Nat.add_zero] at h1 h2
    rw [← Nat.add_assoc, vprintf, if_neg h1, turn_lit h2 (by omega)]
    refine vprintf_lits hputc (by omega) (fun j hj => ?_) (hputc _ _ hI) fun o ho => ?_
    · rw [show i + 1 + j = i + (j + 1) by omega]
      exact hl (j + 1) (by omega)
    · rw [show i + 1 + n = i + (n + 1) by omega]
      exact hk o ho

theorem vprintf_conv {fuel i j : Nat} {va va' : VaList} {sp : Spec} (hp : format i = ch '%')
    (hs : parseSpec W format (i + 1) va = some (sp, j, va')) (hj : j + 1 < 2 ^ 31)
    (hc : ∃ va'' o', convert K W sp va' o = some (va'', o') ∧ I o'.con)
    (hk : ∀ va (o : Out σ), I o.con → Prints I (vprintf K W format fuel (j + 1) va o)) :
    Prints I (vprintf K W format (fuel + 1) i va o) := by
  obtain ⟨va'', o', he, hI⟩ := hc
  have hne : format i ≠ 0 := hp ▸ by decide
  rw [vprintf, if_neg hne, turn_conv hp hs hj, he]
  exact hk va'' o' hI

theorem convert_X (hputc : ∀ c t, I t → I (K.putc c t)) (hW : 32 ≤ W) {sp : Spec} {va : VaList}
    (h1 : sp.specifier = ch 'X') (h2 : sp.length = 0) (h3 : sp.altForm = false)
    (h4 : -2 ^ 30 ≤ sp.lengthSpec.toInt ∧ sp.lengthSpec.toInt ≤ 255) (hI : I o.con) :
    ∃ va' o', convert K W sp va o = some (va', o') ∧ I o'.con := by
  have hv : (BitVec.ofNat 64 (va_arg W 32 va).1).toNat < 2 ^ 32 := by
    rw [BitVec.toNat_ofNat]
    exact Nat.lt_of_le_of_lt (Nat.mod_le _ _) (Nat.mod_lt _ (by decide))
  have hn : (magnitude (BitVec.ofNat 64 (va_arg W 32 va).1)).toNat < limit (16 : BitVec 32).toNat := by
    rw [(magnitude_of_lt (by omega)).2]
    exact hv
  have hroom : Room (unpadded (16 : BitVec 32).toNat (BitVec.ofNat 64 (va_arg W 32 va).1) sp.plusSign
      sp.spaceNoSign) sp.lengthSpec.toInt sp.leftJustify := room_of_le (by decide) h4
  obtain ⟨s, hs, htext⟩ := int_str_text (fun _ => 0) sp.plusSign sp.spaceNoSign sp.leftJustify
    sp.zeroPad hW (by decide) hn hroom
  obtain ⟨o', ho, hI'⟩ := displayArray_prints hputc (displayed_length_lt hW (by decide) hroom)
    htext.nul hI
  refine ⟨(va_arg W 32 va).2, o', ?_, hI'⟩
  have hd : displayInt K W sp 16 (BitVec.ofNat 64 (va_arg W 32 va).1) o = some o' := by
    rw [displayInt, hs]
    exact ho
  simp only [convert, h1, h2, h3, Bool.false_eq_true, if_false, Option.bind_eq_bind,
    Option.bind_some, displayUnsigned, unsignedArg, true_or, if_true, hd, Option.map_some]
  rfl

theorem convert_s (hputc : ∀ c t, I t → I (K.putc c t)) {z : Nat} (hz : z < 2 ^ W)
    (hnul : ∀ t, I t → K.mem t z = 0) {sp : Spec} {va : VaList} (h1 : sp.specifier = ch 's')
    (hI : I o.con) : ∃ va' o', convert K W sp va o = some (va', o') ∧ I o'.con := by
  obtain ⟨o', ho, hI'⟩ := displayString_prints hputc hz hnul (va_arg W W va).1 hI
  refine ⟨(va_arg W W va).2, o', ?_, hI'⟩
  simp only [convert, h1, ho, Option.map_some]
  rfl

end Prints

/-! ## The formats of the shell -/

section Formats

variable {σ : Type} {K : Console σ} {W : Nat} {I : σ → Prop} {t : σ}

theorem printf_of_prints {format : CStr} {args : Nat → Nat}
    (h : Prints I (vprintf K W format (2 ^ W) 0 ⟨args, 0⟩ ⟨0, t⟩)) :
    ∃ t', printf K W format args t = some t' ∧ I t' := by
  obtain ⟨o, ho, hI⟩ := h
  exact ⟨o.con, by rw [printf, ho]; rfl, hI⟩

theorem printf_text (hputc : ∀ c t, I t → I (K.putc c t)) {l : List Char}
    (hl : ∀ j, j < l.length → lit l j ≠ 0 ∧ lit l j ≠ ch '%') (hlen : l.length < 2 ^ 31)
    (hW : 32 ≤ W) (args : Nat → Nat) (hI : I t) :
    ∃ t', printf K W (lit l) args t = some t' ∧ I t' := by
  have hW2 : 2 ^ 32 ≤ 2 ^ W := Nat.pow_le_pow_right (by decide) hW
  obtain ⟨f, hf⟩ : ∃ f, 2 ^ W = f + 1 + l.length := ⟨2 ^ W - 1 - l.length, by omega⟩
  apply printf_of_prints
  rw [hf]
  refine vprintf_lits hputc (by omega) (fun j hj => ?_) hI fun o ho => vprintf_end ?_ ho
  · rw [Nat.zero_add]; exact hl j hj
  · simp [lit]

theorem printf_text_eq {l : List Char} (hl : ∀ j, j < l.length → lit l j ≠ 0 ∧ lit l j ≠ ch '%')
    (hlen : l.length < 2 ^ 31) (hW : 32 ≤ W) (args : Nat → Nat) (t : σ) :
    printf K W (lit l) args t = some ((l.map ch).foldl (fun t c => K.putc c t) t) := by
  have hloop : ∀ n i (o : Out σ) fuel, i + n = l.length → n < fuel →
      (vprintf K W (lit l) fuel i ⟨args, 0⟩ o).map Out.con =
        some (((l.map ch).drop i).foldl (fun t c => K.putc c t) o.con) := by
    intro n
    induction n with
    | zero =>
      intro i o fuel hi hf
      obtain ⟨fuel, rfl⟩ : ∃ f, fuel = f + 1 := ⟨fuel - 1, by omega⟩
      have hge : (l.map ch).length ≤ i := by
        rw [List.length_map]
        omega
      have hend : lit l i = 0 := List.getD_eq_default _ _ hge
      rw [vprintf, if_pos hend, List.drop_eq_nil_of_le hge]
      rfl
    | succ n ih =>
      intro i o fuel hi hf
      obtain ⟨fuel, rfl⟩ : ∃ f, fuel = f + 1 := ⟨fuel - 1, by omega⟩
      have hlt : i < (l.map ch).length := by
        rw [List.length_map]
        omega
      obtain ⟨h0, hp⟩ := hl i (by omega)
      have hget : lit l i = (l.map ch)[i] := List.getD_eq_getElem _ _ hlt
      rw [vprintf, if_neg h0, turn_lit hp (by omega), List.drop_eq_getElem_cons hlt, List.foldl_cons,
        ← hget]
      exact ih (i + 1) _ fuel (by omega) (by omega)
  have hW2 : 2 ^ 32 ≤ 2 ^ W := Nat.pow_le_pow_right (by decide) hW
  exact hloop l.length 0 ⟨0, t⟩ (2 ^ W) (Nat.zero_add _) (by omega)

theorem parseSpec_width {W i j k : Nat} {format : CStr} {sp : Spec} {n : BitVec 32} {c : Byte}
    (h1 : parseFlags format (2 ^ W) i {} = some (sp, j))
    (h2 : parseNumber format (2 ^ W) j 0 = some (n, k)) (hc : format k = c)
    (h : c ≠ ch '*' ∧ c ≠ ch '.' ∧
      ¬(c = ch 'h' ∨ c = ch 'l' ∨ c = ch 'j' ∨ c = ch 'z' ∨ c = ch 't' ∨ c = ch 'L'))
    (va : VaList) : parseSpec W format i va =
      some ({ sp with lengthSpec := n, precSpec := 6, length := 0, specifier := c }, k, va) := by
  obtain ⟨h3, h4, h5⟩ := h
  simp only [parseSpec, parseNumberOrStar, parseLength, h1, h2, hc, if_neg h3, if_neg h4, if_neg h5,
    Option.bind_eq_bind, Option.bind_some, Option.pure_def]

theorem parseSpec_s {W i : Nat} {format : CStr} (h : format i = ch 's') (va : VaList) :
    parseSpec W format i va = some ({ precSpec := 6, specifier := ch 's' }, i, va) := by
  obtain ⟨f, hf⟩ : ∃ f, 2 ^ W = f + 1 := ⟨2 ^ W - 1, by have := Nat.two_pow_pos W; omega⟩
  have hflags : parseFlags format (2 ^ W) i {} = some ({}, i) := by
    rw [hf, parseFlags, h]
    simp +decide only [if_false]
  have hnum : parseNumber format (2 ^ W) i 0 = some (0, i) := by
    rw [hf, parseNumber, h]
    simp +decide only [if_false]
  exact parseSpec_width hflags hnum h (by decide) va

/-- A conversion `%0dX`, its width one digit. -/
theorem parseSpec_0dX {W i : Nat} {format : CStr} (hW : 32 ≤ W) {dig : Byte}
    (h0 : format i = ch '0') (h1 : format (i + 1) = dig) (h2 : format (i + 2) = ch 'X')
    (hd : dig = ch '2' ∨ dig = ch '8') (va : VaList) : ∃ sp, parseSpec W format i va =
      some (sp, i + 2, va) ∧ sp.specifier = ch 'X' ∧ sp.length = 0 ∧ sp.altForm = false ∧
        -2 ^ 30 ≤ sp.lengthSpec.toInt ∧ sp.lengthSpec.toInt ≤ 255 := by
  have hW2 : 2 ^ 32 ≤ 2 ^ W := Nat.pow_le_pow_right (by decide) hW
  obtain ⟨f, hf⟩ : ∃ f, 2 ^ W = f + 2 := ⟨2 ^ W - 2, by omega⟩
  have hflags : parseFlags format (2 ^ W) i {} = some ({ zeroPad := true }, i + 1) := by
    rw [hf]
    rcases hd with rfl | rfl <;> simp +decide only [parseFlags, h0, h1, if_false, if_true]
  have hnum : parseNumber format (2 ^ W) (i + 1) 0 = some (dig.setWidth 32 - 48, i + 2) := by
    rw [hf, parseNumber, h1, parseNumber, h2]
    rcases hd with rfl | rfl <;> simp +decide only [if_false, if_true] <;> rfl
  exact ⟨_, parseSpec_width hflags hnum h2 (by decide) va, rfl, rfl, rfl,
    by rcases hd with rfl | rfl <;> decide⟩

theorem printf_unknown (hputc : ∀ c t, I t → I (K.putc c t)) (hW : 32 ≤ W) {z : Nat}
    (hz : z < 2 ^ W) (hnul : ∀ t, I t → K.mem t z = 0) (args : Nat → Nat) (hI : I t) :
    ∃ t', printf K W (lit ['U', 'n', 'k', 'n', 'o', 'w', 'n', ' ', 'c', 'o', 'm', 'm', 'a', 'n', 'd',
      ':', ' ', '%', 's']) args t = some t' ∧ I t' := by
  have hW2 : 2 ^ 32 ≤ 2 ^ W := Nat.pow_le_pow_right (by decide) hW
  obtain ⟨f, hf⟩ : ∃ f, 2 ^ W = f + 2 + 17 := ⟨2 ^ W - 19, by omega⟩
  apply printf_of_prints
  rw [hf]
  refine vprintf_lits hputc (by decide) (by decide) hI fun o ho => ?_
  exact vprintf_conv (by decide) (parseSpec_s (by decide) _) (by decide)
    (convert_s hputc hz hnul rfl ho) fun va o ho => vprintf_end (by decide) ho

theorem printf_two (hputc : ∀ c t, I t → I (K.putc c t)) (hW : 32 ≤ W) {sep : List Char}
    (hsep : ∀ j, j < sep.length → lit sep j ≠ 0 ∧ lit sep j ≠ ch '%') (hlen : sep.length < 2 ^ 30)
    (args : Nat → Nat) (hI : I t) : ∃ t', printf K W
      (lit (['%', '0', '8', 'X'] ++ sep ++ ['%', '0', '2', 'X'])) args t = some t' ∧ I t' := by
  have hW2 : 2 ^ 32 ≤ 2 ^ W := Nat.pow_le_pow_right (by decide) hW
  obtain ⟨f, hf⟩ : ∃ f, 2 ^ W = f + 2 + sep.length + 1 := ⟨2 ^ W - sep.length - 3, by omega⟩
  -- the format read at the first conversion, at the separator and at the second
  have hlt : ∀ j, j < 4 →
      lit (['%', '0', '8', 'X'] ++ sep ++ ['%', '0', '2', 'X']) j = lit ['%', '0', '8', 'X'] j := by
    intro j hj
    simp only [lit, List.append_assoc, List.map_append]
    rw [List.getD_append _ _ _ _ (by simpa using hj)]
  have hmid : ∀ j, j < sep.length →
      lit (['%', '0', '8', 'X'] ++ sep ++ ['%', '0', '2', 'X']) (4 + j) = lit sep j := by
    intro j hj
    simp only [lit, List.append_assoc, List.map_append]
    rw [List.getD_append_right _ _ _ _ (by simp), List.getD_append _ _ _ _ (by simpa using hj)]
    simp
  have hend : ∀ j, lit (['%', '0', '8', 'X'] ++ sep ++ ['%', '0', '2', 'X']) (4 + sep.length + j) =
      lit ['%', '0', '2', 'X'] j := by
    intro j
    simp only [lit, List.map_append]
    rw [List.getD_append_right _ _ _ _ (by simp; omega)]
    congr 1
    simp
    omega
  generalize lit (['%', '0', '8', 'X'] ++ sep ++ ['%', '0', '2', 'X']) = format at hlt hmid hend ⊢
  apply printf_of_prints
  obtain ⟨sp, h1, h2, h3, h4, h5⟩ : ∃ sp,
      parseSpec W format (0 + 1) ⟨args, 0⟩ = some (sp, 0 + 1 + 2, ⟨args, 0⟩) ∧
      sp.specifier = ch 'X' ∧ sp.length = 0 ∧ sp.altForm = false ∧
        -2 ^ 30 ≤ sp.lengthSpec.toInt ∧ sp.lengthSpec.toInt ≤ 255 :=
    parseSpec_0dX hW (hlt 1 (by decide)) (hlt 2 (by decide)) (hlt 3 (by decide)) (Or.inr rfl) _
  rw [hf]
  refine vprintf_conv (hlt 0 (by decide)) h1 (by decide) (convert_X hputc hW h2 h3 h4 h5 hI)
    fun va o ho => ?_
  refine vprintf_lits hputc (by omega) (fun j hj => ?_) ho fun o ho => ?_
  · rw [hmid j hj]
    exact hsep j hj
  obtain ⟨sp, h1, h2, h3, h4, h5⟩ : ∃ sp, parseSpec W format (4 + sep.length + 1) va =
      some (sp, 4 + sep.length + 1 + 2, va) ∧
      sp.specifier = ch 'X' ∧ sp.length = 0 ∧ sp.altForm = false ∧
        -2 ^ 30 ≤ sp.lengthSpec.toInt ∧ sp.lengthSpec.toInt ≤ 255 :=
    parseSpec_0dX hW (hend 1) (hend 2) (hend 3) (Or.inl rfl) _
  exact vprintf_conv (hend 0) h1 (by omega) (convert_X hputc hW h2 h3 h4 h5 ho) fun va o ho =>
    vprintf_end (hend 4) ho

end Formats

end Osdev2.Libk
