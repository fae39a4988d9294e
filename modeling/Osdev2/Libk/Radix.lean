import Osdev2.Libk.Render

/-!
# The radix of the unsigned conversions

`vprintf` finds the base of `o`, `u`, `x` and `X` by rewriting the specifier, and
hands it to a table of upper-case digits. `IntConv.text` is what C asks for.
`uses_radix_iff`: `x` alone is wrong, in base 17, from 10 on.
-/

namespace Osdev2.Libk

open Osdev2.Lib

/-- A digit, with letters from 10 on. -/
def letterDigit (upper : Bool) (d : Nat) : Byte :=
  BitVec.ofNat 8 (if d < 10 then 48 + d else if upper then 55 + d else 87 + d)

def IntConv.radix : IntConv → Nat
  | .o => 8
  | .x | .X => 16
  | _ => 10

/-- The shortest numeral of `n`. -/
def IntConv.text (conv : IntConv) (n : Nat) : List Byte :=
  (numeral conv.radix n).map (letterDigit (conv = .X))

/-- The conversion, alone in its format, displays the numeral of its argument `v` and nothing
else, on every console. -/
def IntConv.UsesRadix (W : Nat) (conv : IntConv) (v : BitVec 32) : Prop :=
  ∀ (σ : Type) (K : Console σ) (args : Nat → Nat) (t : σ), args 0 % 2 ^ 32 = v.toNat →
    printf K W (strOf [ch '%', conv.char]) args t =
      some ((conv.text v.toNat).foldl (fun t c => K.putc c t) t)

/-! ## What is displayed -/

/-- `%conv`, without flags, width or precision. -/
def bare (conv : IntConv) : Conversion := ⟨[], .digits [], no_width, none, .int .none conv⟩

theorem display_con {σ : Type} (K : Console σ) (l : List Byte) (o : Out σ) :
    (display K l o).con = l.foldl (fun t c => K.putc c t) o.con := by
  unfold display
  induction l generalizing o with
  | nil => rfl
  | cons c l ih => exact ih (displayCharacter K c o)

theorem foldl_recorder (l out : List Byte) : l.foldl (fun t c => recorder.putc c t) out = out ++ l := by
  induction l generalizing out with
  | nil => exact (List.append_nil out).symm
  | cons c l ih =>
    rw [List.foldl_cons, ih]
    exact List.append_assoc ..

theorem bare_printable {conv : IntConv} {v : BitVec 64} (hv : v.toNat < 2 ^ 32) :
    (bare conv).Printable conv.base v 0 := by
  have hb := (radix_base conv).bounds
  refine ⟨?_, room_of_le (by omega) (by decide)⟩
  rw [(magnitude_of_lt (by omega)).2]
  exact Nat.lt_of_lt_of_le hv (two_pow_le_limit (by omega))

theorem bare_number {conv : IntConv} {v : BitVec 64} (hv : v.toNat < 2 ^ 32) :
    (bare conv).number conv.base v 0 = (digitsText conv.base.toNat v.toNat).takeWhile (· != 0) := by
  obtain ⟨hneg, hmag⟩ := magnitude_of_lt (show v.toNat < 2 ^ 63 by omega)
  have hplain : unpadded conv.base.toNat v false false = digitsText conv.base.toNat v.toNat := by
    rw [unpadded, signText, hneg, hmag]
    rfl
  have hpad : (0 - ((digitsText conv.base.toNat v.toNat).length : Int)).toNat = 0 :=
    Int.toNat_of_nonpos (by omega)
  rw [Conversion.number, show (bare conv).has .plusSign = false from rfl,
    show (bare conv).has .spaceNoSign = false from rfl, hplain, padded, hpad]
  rfl

theorem printf_bare {W : Nat} (hW : W = 32 ∨ W = 64) {conv : IntConv} (hu : conv.signed = false)
    {v : BitVec 32} {σ : Type} (K : Console σ) {args : Nat → Nat} (t : σ)
    (h : args 0 % 2 ^ 32 = v.toNat) : printf K W (strOf [ch '%', conv.char]) args t =
      some (((digitsText conv.base.toNat v.toNat).takeWhile (· != 0)).foldl (fun t c => K.putc c t) t) := by
  have harg : (va_arg W 32 ⟨args, 0⟩).1 = v.toNat := by
    rcases hW with rfl | rfl <;> simpa [va_arg] using h
  have hv : (BitVec.ofNat 64 v.toNat).toNat = v.toNat := by
    have := v.isLt
    rw [BitVec.toNat_ofNat, Nat.mod_eq_of_lt (by omega)]
  have hlt : (BitVec.ofNat 64 v.toNat).toNat < 2 ^ 32 := by
    rw [hv]
    exact v.isLt
  have hnone : (bare conv).prefixOf conv = [] := by
    cases conv <;> rfl
  have hrender : (bare conv).render K W ⟨args, 0⟩ ⟨0, t⟩ = some ((va_arg W 32 ⟨args, 0⟩).2,
      display K ((digitsText conv.base.toNat v.toNat).takeWhile (· != 0)) ⟨0, t⟩) := by
    have hnum : (bare conv).number conv.base _ 0 = _ := bare_number hlt
    rw [hv] at hnum
    rw [← hnum, ← harg]
    simp only [Conversion.render, bare, hu] at hnone ⊢
    rw [hnone]
    rfl
  have hall : AllHandled K W [.conv (bare conv)] 0 ⟨args, 0⟩ ⟨0, t⟩ := by
    intro va' o' _
    have hprint : (bare conv).Printable conv.base
        (Length.none.value W conv.signed (va_arg W 32 ⟨args, 0⟩).1) 0 := by
      rw [hu, harg]
      exact bare_printable hlt
    have hshort : 0 + (Piece.conv (bare conv)).text.length < 2 ^ 31 :=
      show 2 < 2 ^ 31 by decide
    have hl : ¬(Length.none = .l ∧ conv.signed = false ∧ W = 32) := by simp
    have hhandled : (bare conv).Handled W ⟨args, 0⟩ :=
      ⟨show Length.none ≠ .hh by decide, hl, hprint⟩
    exact ⟨hshort, hhandled, trivial⟩
  have hfollows := (follows_iff hW [.conv (bare conv)] ⟨args, 0⟩ ⟨0, t⟩).mpr hall
  have hprint := hfollows.2 _ _ (by rw [renderAll, Piece.render, hrender]; rfl)
  rw [show formatOf [.conv (bare conv)] = [ch '%', conv.char] from rfl] at hprint
  rw [printf, hprint, Option.map_some, display_con]

/-! ## The two digit tables -/

theorem digitChar_letterDigit : (∀ d, d < 16 → digitChar d ≠ 0 ∧ digitChar d = letterDigit true d) ∧
    ∀ d, d < 10 → digitChar d = letterDigit false d := by
  decide

theorem digit_of_letterDigit : ∀ d, d < 17 → ∀ e, e < 16 → digitChar d = letterDigit false e →
    d = e ∧ e < 10 := by
  decide

theorem digitsText_takeWhile {b n : Nat} (hb : 1 < b) (hb16 : b ≤ 16) :
    (digitsText b n).takeWhile (· != 0) = digitsText b n := by
  refine List.takeWhile_eq_self_iff.mpr fun c hc => bne_iff_ne.mpr ?_
  obtain ⟨d, hd, rfl⟩ := List.mem_map.mp hc
  exact (digitChar_letterDigit.1 d (Nat.lt_of_lt_of_le (numeral_lt hb d hd) hb16)).1

theorem digitsText_eq_map {b n : Nat} {upper : Bool} (hb : 1 < b)
    (h : ∀ d, d < b → digitChar d = letterDigit upper d) :
    digitsText b n = (numeral b n).map (letterDigit upper) :=
  List.map_congr_left fun d hd => h d (numeral_lt hb d hd)

/-- A text in both tables has the same digits in both, all below 10. -/
theorem digits_of_texts : ∀ {ds es : List Nat}, (∀ d ∈ ds, d < 17) → (∀ e ∈ es, e < 16) →
    ds.map digitChar = es.map (letterDigit false) → ds = es ∧ ∀ e ∈ es, e < 10
  | [], [], _, _, _ => ⟨rfl, by simp⟩
  | d :: ds, e :: es, hd, he, h => by
    obtain ⟨h0, h1⟩ := List.cons.inj h
    obtain ⟨rfl, hlt⟩ := digit_of_letterDigit d (hd d List.mem_cons_self) e
      (he e List.mem_cons_self) h0
    obtain ⟨rfl, hall⟩ := digits_of_texts (fun x hx => hd x (List.mem_cons_of_mem _ hx))
      (fun x hx => he x (List.mem_cons_of_mem _ hx)) h1
    exact ⟨rfl, List.forall_mem_cons.mpr ⟨hlt, hall⟩⟩

/-- Base 17 shows a number as base 16 would only if it is below 10. -/
theorem lt_ten_of_text {n : Nat}
    (h : (digitsText 17 n).takeWhile (· != 0) = (numeral 16 n).map (letterDigit false)) : n < 10 := by
  -- what base 17 shows are the first digits of its numeral
  rw [digitsText, List.takeWhile_map] at h
  obtain ⟨rest, hrest⟩ := List.takeWhile_prefix (p := ((· != 0) ∘ digitChar)) (l := numeral 17 n)
  obtain ⟨hds, hlt⟩ := digits_of_texts
    (fun d hd => numeral_lt (by decide) d (List.takeWhile_subset _ hd)) (numeral_lt (by decide)) h
  rw [hds] at hrest
  have hvalue : horner 17 0 (numeral 16 n) ≤ n := by
    calc horner 17 0 (numeral 16 n)
        ≤ horner 17 (horner 17 0 (numeral 16 n)) rest := le_horner (by decide)
      _ = horner 17 0 (numeral 17 n) := by rw [← horner_append, hrest]
      _ = n := horner_numeral (by decide)
  -- two digits are worth more in base 17, and one digit is the number
  by_contra hn
  rcases Nat.lt_or_ge n 16 with h16 | h16
  · have hone : numeral 16 n = [n] := by
      rw [numeral_eq (by decide), Nat.div_eq_of_lt h16, if_pos rfl, Nat.mod_eq_of_lt h16]
      rfl
    rw [hone] at hlt
    exact hn (hlt n List.mem_cons_self)
  · have hgt := lt_horner_numeral (show 1 < 16 by decide) (show 16 < 17 by decide) h16
    omega

theorem text_iff {conv : IntConv} (hu : conv.signed = false) (n : Nat) :
    (digitsText conv.base.toNat n).takeWhile (· != 0) = conv.text n ↔ (conv = .x → n < 10) := by
  cases conv with
  | d | i => cases hu
  | u | o =>
    refine iff_of_true ?_ nofun
    exact (digitsText_takeWhile (by decide) (by decide)).trans
      (digitsText_eq_map (by decide) fun d hd => digitChar_letterDigit.2 d (Nat.lt_of_lt_of_le hd (by decide)))
  | X =>
    refine iff_of_true ?_ nofun
    exact (digitsText_takeWhile (by decide) (by decide)).trans
      (digitsText_eq_map (by decide) fun d hd => (digitChar_letterDigit.1 d hd).2)
  | x =>
    refine ⟨fun h _ => lt_ten_of_text h, fun h => ?_⟩
    have hn := h rfl
    have hone : ∀ b, 10 ≤ b → numeral b n = [n] := fun b hb => by
      rw [numeral_eq (by omega), Nat.div_eq_of_lt (by omega), if_pos rfl, Nat.mod_eq_of_lt (by omega)]
      rfl
    have hchar := digitChar_letterDigit.2 n hn
    rw [IntConv.text, digitsText, show IntConv.x.base.toNat = 17 from rfl,
      show IntConv.x.radix = 16 from rfl, hone 17 (by decide), hone 16 (by decide), List.map_singleton,
      List.map_singleton, List.takeWhile_cons_of_pos, List.takeWhile_nil, hchar]
    · rfl
    · exact bne_iff_ne.mpr (digitChar_letterDigit.1 n (by omega)).1

/-- **The radix of an unsigned conversion.** -/
theorem uses_radix_iff {W : Nat} (hW : W = 32 ∨ W = 64) {conv : IntConv} (hu : conv.signed = false)
    (v : BitVec 32) : conv.UsesRadix W v ↔ (conv = .x → v.toNat < 10) := by
  rw [← text_iff hu]
  constructor
  · intro h
    have harg : v.toNat % 2 ^ 32 = v.toNat := Nat.mod_eq_of_lt v.isLt
    have hshown := (printf_bare hW hu recorder [] harg).symm.trans (h _ recorder (fun _ => v.toNat) [] harg)
    simpa only [foldl_recorder, List.nil_append, Option.some.injEq] using hshown
  · intro h σ K args t harg
    rw [printf_bare hW hu K t harg, h]

theorem uses_radix_iff_hex : IntConv.X.UsesRadix 32 255 ↔ (IntConv.X = .x → (255 : BitVec 32).toNat < 10) :=
  uses_radix_iff (Or.inl rfl) rfl 255

/-- `%x` of 255 displays `F0`, and of 16 nothing. -/
theorem hex_not : recorded 255 [.conv (bare .x)] = some [ch 'F', ch '0'] ∧
    recorded 16 [.conv (bare .x)] = some [] ∧ ¬IntConv.x.UsesRadix 32 255 := by
  have h1 : recorded 255 [.conv (bare .x)] = some [ch 'F', ch '0'] := by decide +kernel
  refine ⟨h1, by decide +kernel, fun h => ?_⟩
  have h2 : recorded 255 [.conv (bare .x)] = _ := h _ recorder (fun _ => 255) [] (by decide)
  exact absurd (h1.symm.trans h2) (by decide +kernel)

end Osdev2.Libk
