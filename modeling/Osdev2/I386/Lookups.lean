import Osdev2.I386.Decoder

/-!
# Lookups in the key tables

The default case of `keyboard` takes every code below 0x80 that no other case has,
and indexes a table of 57 characters with it. `Checked.keyboard` is the decoder with
the bound of its tables checked. `mapped_iff`: along every stream the lookups stay in
the tables, and what is called back is from them, exactly if no code arrives that the
tables have no entry for (`NoEntry`).
-/

namespace Osdev2.I386

open Osdev2.Lib Osdev2.Libk Osdev2.Kernel

/-! ## The checked decoder -/

namespace Checked

/-- `table[i]`; `none` is an index outside the table. -/
def lookup (table : List Byte) (i : Int) : Option Byte :=
  if 0 ≤ i ∧ i < table.length then some (table.getD i.toNat 0) else none

variable {A : DriverAddresses} (L : Layout (i386 A))

/-- The default case. -/
def character (sc : Byte) (s : Machine (i386 A)) : Option (Option (Machine (i386 A))) := do
  let kstate := (drivers s).kstate
  let i : Int := sc.toNat - 1
  let ch ← if held kstate KBD_SHIFT then lookup keymap_shift i else lookup keymap i
  let ch :=
    if ISALPHA ch.toInt ∧ held kstate KBD_CAPS then
      if ISLOWER ch.toInt then ch - 32#8 else ch + 32#8
    else ch
  return if ch ≠ 0 then kcallback L ch kstate s else some s

/-- Only the default case has a lookup. -/
def keyboard (sc : Byte) (s : Machine (i386 A)) : Option (Option (Machine (i386 A))) :=
  if sc ∈ modifierCodes ∨ sc = 0x0E#8 ∨ sc ∈ arrowCodes ∨ sc &&& 0x80#8 ≠ 0 then
    some (I386.keyboard L sc s)
  else character L sc s

end Checked

/-! ## Codes without an entry -/

/-- A make code that no case of its own handles. -/
def Default (sc : Byte) : Prop :=
  sc ∉ modifierCodes ∧ sc ≠ 0x0E#8 ∧ sc ∉ arrowCodes ∧ sc &&& 0x80#8 = 0

instance : DecidablePred Default := fun _ => inferInstanceAs (Decidable (_ ∧ _))

/-- One of these that the tables have no entry for: 0, and what follows the space bar. -/
def NoEntry (sc : Byte) : Prop := Default sc ∧ ¬(1 ≤ sc.toNat ∧ sc.toNat ≤ 57)

instance : DecidablePred NoEntry := fun _ => inferInstanceAs (Decidable (_ ∧ _))

variable {A : DriverAddresses}

/-- The interrupt looks up nothing outside the tables, calls back nothing for a code without
an entry, and whatever it calls back with is from the tables. -/
structure Mapped (L : Layout (i386 A)) (sc : Byte) (s : Machine (i386 A)) : Prop where
  inside : Checked.keyboard L sc s = some (keyboard L sc s)
  silent : NoEntry sc → called A s.mem sc (keys s) = none
  fromTables : ∀ c kstate, called A s.mem sc (keys s) = some (c, kstate) →
    c = 0 ∨ c ∈ keymap ++ keymap_shift

section Step

variable {L : Layout (i386 A)} {s : Machine (i386 A)} {sc : Byte}

theorem checked_default (h : Default sc) : Checked.keyboard L sc s = Checked.character L sc s := by
  obtain ⟨hm, hb, ha, hbit⟩ := h
  apply if_neg
  rintro (h | h | h | h)
  · exact hm h
  · exact hb h
  · exact ha h
  · exact h hbit

theorem checked_other (h : ¬Default sc) : Checked.keyboard L sc s = some (keyboard L sc s) := by
  apply if_pos
  by_contra hno
  simp only [not_or, not_not] at hno
  exact h hno

theorem lookup_entry (h1 : 1 ≤ sc.toNat) (h57 : sc.toNat ≤ 57) {table : List Byte} (base : Nat) (m : Mem)
    (ht : table.length = 57) :
    Checked.lookup table (sc.toNat - 1) = some (lookup table base m (sc.toNat - 1)) := by
  have hi : 0 ≤ (sc.toNat : Int) - 1 ∧ (sc.toNat : Int) - 1 < table.length := by omega
  unfold Checked.lookup lookup
  rw [if_pos hi, if_pos hi]

theorem lookup_noEntry (h : ¬(1 ≤ sc.toNat ∧ sc.toNat ≤ 57)) {table : List Byte}
    (ht : table.length = 57) : Checked.lookup table (sc.toNat - 1) = none := by
  refine if_neg fun hi => h ?_
  omega

/-- With an entry the check changes nothing. -/
theorem character_checked (h1 : 1 ≤ sc.toNat) (h57 : sc.toNat ≤ 57) :
    Checked.character L sc s = some (character L sc s) := by
  have hk : Checked.lookup keymap (sc.toNat - 1) = some (lookup keymap A.keymap s.mem (sc.toNat - 1)) :=
    lookup_entry h1 h57 _ _ rfl
  have hs : Checked.lookup keymap_shift (sc.toNat - 1) =
      some (lookup keymap_shift A.keymap_shift s.mem (sc.toNat - 1)) := lookup_entry h1 h57 _ _ rfl
  unfold Checked.character character
  simp only [hk, hs]
  cases held (drivers s).kstate KBD_SHIFT <;> rfl

theorem character_noEntry (h : ¬(1 ≤ sc.toNat ∧ sc.toNat ≤ 57)) : Checked.character L sc s = none := by
  have hk : Checked.lookup keymap (sc.toNat - 1) = none := lookup_noEntry h rfl
  have hs : Checked.lookup keymap_shift (sc.toNat - 1) = none := lookup_noEntry h rfl
  unfold Checked.character
  simp only [hk, hs, ite_self]
  rfl

theorem charOf_mem {sc : Byte} (h1 : 1 ≤ sc.toNat) (h57 : sc.toNat ≤ 57) (shift caps : Bool) :
    charOf sc shift caps ∈ keymap ++ keymap_shift := by
  have hall : ∀ sc : Byte, 1 ≤ sc.toNat → sc.toNat ≤ 57 →
      ∀ shift caps, charOf sc shift caps ∈ keymap ++ keymap_shift := by decide +kernel
  exact hall sc h1 h57 shift caps

theorem called_other (h : ¬Default sc) {m : Mem} {k : Keys} {c kstate : Byte}
    (hc : called A m sc k = some (c, kstate)) : c = 0 := by
  unfold called at hc
  by_cases hm : sc ∈ modifierCodes
  · rw [if_pos hm] at hc
    cases hc
  · by_cases hb : sc = 0x0E#8
    · rw [if_neg hm, if_pos hb] at hc
      exact (Prod.mk.inj (Option.some.inj hc)).1.symm
    · by_cases ha : sc ∈ arrowCodes
      · rw [if_neg hm, if_neg hb, if_pos ha] at hc
        split at hc
        · cases hc
        · exact (Prod.mk.inj (Option.some.inj hc)).1.symm
      · rw [if_neg hm, if_neg hb, if_neg ha, if_neg fun hbit => h ⟨hm, hb, ha, hbit.1⟩] at hc
        cases hc

theorem called_default (h : Default sc) {m : Mem} {k : Keys} {c kstate : Byte}
    (hc : called A m sc k = some (c, kstate)) : c = typed A m sc k.kstate := by
  obtain ⟨hm, hb, ha, -⟩ := h
  unfold called at hc
  rw [if_neg hm, if_neg hb, if_neg ha] at hc
  split at hc
  · exact (Prod.mk.inj (Option.some.inj hc)).1.symm
  · cases hc

theorem mapped_step : Mapped L sc s ↔ ¬NoEntry sc := by
  constructor
  · rintro ⟨hin, -, -⟩ ⟨hd, hno⟩
    rw [checked_default hd, character_noEntry hno] at hin
    cases hin
  · intro h
    refine ⟨?_, fun hno => absurd hno h, fun c kstate hc => ?_⟩
    · by_cases hd : Default sc
      · obtain ⟨h1, h57⟩ := not_not.mp fun hno => h ⟨hd, hno⟩
        have hk : keyboard L sc s = character L sc s := by
          rw [keyboard_other hd.1 hd.2.1 hd.2.2.1, if_pos hd.2.2.2]
        rw [checked_default hd, character_checked h1 h57, hk]
      · exact checked_other hd
    · by_cases hd : Default sc
      · obtain ⟨h1, h57⟩ := not_not.mp fun hno => h ⟨hd, hno⟩
        rw [called_default hd hc, typed_eq A s.mem h1 h57]
        exact Or.inr (charOf_mem h1 h57 _ _)
      · exact Or.inl (called_other hd hc)

end Step

/-- **The tables.** Along every stream of scancodes, from every state, every lookup stays in the
tables and every character is from them exactly if every code has an entry or a case of its own. -/
theorem mapped_iff (L : Layout (i386 A)) (scs : List Byte) (s : Machine (i386 A)) :
    AtEvery (keyboard L) (Mapped L) scs s ↔ AtEvery (keyboard L) (fun sc _ => ¬NoEntry sc) scs s :=
  atEvery_iff (fun _ _ => mapped_step) scs s

/-- A `z` stands behind the table, where F1 finds its character. -/
def strayed : Machine (i386 lowDrivers) :=
  { cleared with mem := Function.update cleared.mem (lowDrivers.keymap + 58) (ch 'z') }

/-- F1 types it. -/
theorem function_key_types : ¬AtEvery (keyboard lowLayout) (Mapped lowLayout) [0x3B#8] strayed ∧
    ∃ s', keyboard lowLayout 0x3B#8 strayed = some s' ∧ s'.read lowLayout (.shellbuf 0) = ch 'z' := by
  constructor
  · intro h
    exact mapped_step.mp (atEvery_cons h).1 (by decide)
  · have hread : strayed.read lowLayout = cleared.read lowLayout := by
      funext x
      refine Function.update_of_ne ?_ _ _
      cases x <;> simp only [Addresses.addr, lowLayout, lowAddresses, lowDrivers] <;> omega
    have hcall : called lowDrivers strayed.mem 0x3B#8 (keys strayed) = some (ch 'z', 0) := by
      decide
    have hkey : (i386 lowDrivers).key (ch 'z') 0 = .char (ch 'z') := by decide
    have hnext : setKeys ((keys strayed).next 0x3B#8).kstate ((keys strayed).next 0x3B#8).extended
        strayed = strayed := rfl
    obtain ⟨s', hs', hread'⟩ : ∃ s', kcallback lowLayout (ch 'z') 0 strayed = some s' ∧
        s'.read lowLayout = (strayed.read lowLayout).step ((i386 lowDrivers).key (ch 'z') 0) := by
      refine kcallback_step ?_ ?_
      · rw [hkey]
        trivial
      · rw [hkey]
        exact ⟨1, by rw [hread]; decide⟩
    refine ⟨s', ?_, ?_⟩
    · rw [keyboard_eq]
      simp only [hcall, hnext]
      exact hs'
    · rw [hread', hkey, hread]
      decide

end Osdev2.I386
