import Osdev2.I386.Decoder

/-!
# Key rollover

The bits of the keys that are held are passed with every callback, and
`kcallback` tests Backspace, Up and Down before it looks at the character.
`rollover_iff`: along every stream, a printable key types its character exactly
when none of the three is held.
-/

namespace Osdev2.I386

open Osdev2.Lib Osdev2.Libk Osdev2.Kernel

variable {A : DriverAddresses} {L : Layout (i386 A)} {s s' : Machine (i386 A)} {c kstate sc : Byte}

/-! ## Printable keys -/

/-- The make code of a printable key. -/
def Types (sc : Byte) : Prop :=
  1 ≤ sc.toNat ∧ sc.toNat ≤ 57 ∧ ch ' ' ≤ keymap.getD (sc.toNat - 1) 0

instance : DecidablePred Types := fun _ => inferInstanceAs (Decidable (_ ∧ _))

/-- Fewer than 255 characters are pending: `shellptr` counts fewer, and beside the NUL that the
next character replaces the buffer has another. -/
structure HasRoom (v : View) : Prop where
  ptr : v .shellptr ≠ 255
  nul : ∃ i, i ≠ v .shellptr ∧ v (.shellbuf i) = 0

/-- The press of a printable key, where there is room, returns and appends its character to
the line, and that is all it does to the line. -/
def Appends (L : Layout (i386 A)) (sc : Byte) (s : Machine (i386 A)) : Prop :=
  Types sc → HasRoom (s.read L) → ∃ s', keyboard L sc s = some s' ∧
    SameLine ((s.read L).append (typed A s.mem sc (keys s).kstate)) (s'.read L)

/-- Neither Backspace nor Up nor Down is held. -/
def NothingHeld (L : Layout (i386 A)) (sc : Byte) (s : Machine (i386 A)) : Prop :=
  Types sc → HasRoom (s.read L) →
    ¬held (keys s).kstate KBD_BCKSP ∧ ¬held (keys s).kstate KBD_UP ∧ ¬held (keys s).kstate KBD_DOWN

theorem typed_printable (A : DriverAddresses) (m : Mem) (h : Types sc) (kstate : Byte) :
    ch ' ' ≤ typed A m sc kstate := by
  have hall : ∀ c, Types c → ∀ shift caps, ch ' ' ≤ charOf c shift caps := by decide +kernel
  rw [typed_eq A m h.1 h.2.1]
  exact hall sc h _ _

theorem called_types (A : DriverAddresses) (m : Mem) (h : Types sc) (k : Keys) :
    called A m sc k = some (typed A m sc k.kstate, k.kstate) ∧ k.next sc = k := by
  have hall : ∀ c, Types c → c ∉ modifierCodes ∧ c ≠ 0x0E#8 ∧ c ∉ arrowCodes ∧
      c &&& 0x80#8 = 0 := by decide +kernel
  have hne : typed A m sc k.kstate ≠ 0 := fun h0 => by
    have hp := typed_printable A m h k.kstate
    rw [h0] at hp
    exact absurd hp (by decide)
  obtain ⟨hm, hb, ha, hbit⟩ := hall sc h
  refine ⟨?_, next_other hm hb ha⟩
  unfold called
  rw [if_neg hm, if_neg hb, if_neg ha, if_pos ⟨hbit, hne⟩]

theorem keyboard_types (h : Types sc) :
    keyboard L sc s = kcallback L (typed A s.mem sc (keys s).kstate) (keys s).kstate s := by
  obtain ⟨hcall, hnext⟩ := called_types A s.mem h (keys s)
  rw [keyboard_eq]
  simp only [hcall, hnext]
  rfl

theorem HasRoom.append {v : View} (h : HasRoom v) (c : Byte) : (v.append c).Terminated := by
  obtain ⟨i, hi, h0⟩ := h.nul
  refine ⟨i, ?_⟩
  unfold View.append
  rw [Function.update_of_ne (by simpa using hi), Function.update_of_ne (by simp)]
  exact h0

theorem backspace_ptr (v : View) : v.backspace .shellptr ≠ v .shellptr + 1#8 := by
  intro h
  unfold View.backspace at h
  rw [Function.update_of_ne (by simp), Function.update_self] at h
  have ht := congrArg BitVec.toNat h
  split at ht
  · rw [BitVec.toNat_sub, BitVec.toNat_add, BitVec.toNat_ofNat] at ht
    omega
  · rw [BitVec.toNat_add, BitVec.toNat_ofNat] at ht
    omega

theorem appends_iff : Appends L sc s ↔ NothingHeld L sc s := by
  have hhist : ∀ row, (s.loadRow L row).read L .histptr = s.read L .histptr := fun row =>
    Machine.read_loadRow_other _ _ (by rintro i ⟨⟩)
  unfold Appends NothingHeld
  refine forall_congr' fun ht => forall_congr' fun hr => ?_
  have hc : typed A s.mem sc (keys s).kstate ≠ ch '\n' := fun h => by
    have hp := typed_printable A s.mem ht (keys s).kstate
    rw [h] at hp
    exact absurd hp (by decide)
  rw [keyboard_types ht]
  generalize typed A s.mem sc (keys s).kstate = c at hc
  rw [kcallback_eq, Platform.key, if_neg hc]
  constructor
  · rintro ⟨s', hs', hsame⟩
    have hstay : s'.read L .histptr = s.read L .histptr := by
      rw [hsame.histptr, View.append, Function.update_of_ne (by simp), Function.update_of_ne (by simp)]
    by_cases hb : held (keys s).kstate (i386 A).KBD_BCKSP
    · rw [if_pos hb] at hs'
      obtain ⟨t, ht, hread, -⟩ := kbd_bcksp_returns L s
      simp only [ht, Option.bind_some] at hs'
      have hp := hsame.shellptr
      rw [(Machine.puts_quiet hs').read, hread, View.append, Function.update_of_ne (by simp),
        Function.update_self] at hp
      exact absurd hp (backspace_ptr _)
    · rw [if_neg hb] at hs'
      by_cases hu : held (keys s).kstate (i386 A).KBD_UP
      · rw [if_pos hu] at hs'
        rw [(Machine.puts_quiet hs').read, kbd_up, hhist, BitVec.sub_eq_add_neg] at hstay
        exact absurd hstay (browse_moves (by decide))
      · rw [if_neg hu] at hs'
        by_cases hd : held (keys s).kstate (i386 A).KBD_DOWN
        · rw [if_pos hd] at hs'
          rw [(Machine.puts_quiet hs').read, kbd_down, hhist] at hstay
          exact absurd hstay (browse_moves (by decide))
        · exact ⟨hb, hu, hd⟩
  · rintro ⟨hb, hu, hd⟩
    rw [if_neg (show ¬held (keys s).kstate (i386 A).KBD_BCKSP from hb),
      if_neg (show ¬held (keys s).kstate (i386 A).KBD_UP from hu),
      if_neg (show ¬held (keys s).kstate (i386 A).KBD_DOWN from hd)]
    obtain ⟨s', hs', hread⟩ := puts_shellbuf_read (read_kbd_char c) (hr.append c)
    exact ⟨s', hs', by rw [hread]; exact SameLine.refl _⟩

/-- **Rollover.** Along every stream of scancodes, every press of a printable key with room for it
appends its character, and nothing else, exactly if none of Backspace, Up and Down is held at
any of them. -/
theorem rollover_iff (L : Layout (i386 A)) (scs : List Byte) (s : Machine (i386 A)) :
    AtEvery (keyboard L) (Appends L) scs s ↔ AtEvery (keyboard L) (NothingHeld L) scs s :=
  atEvery_iff (fun _ _ => appends_iff) scs s

/-- The editor's invariant has room up to 254 characters. -/
theorem Pending.hasRoom {v : View} {l : List Byte} (h : Pending v l) (hl : l.length < 255) :
    HasRoom v := by
  have hp := h.ptr
  refine ⟨fun he => ?_, 255#8, fun he => ?_, ?_⟩
  · rw [he] at hp
    exact absurd hp.symm (Nat.ne_of_lt hl)
  · rw [← he] at hp
    exact absurd hp.symm (Nat.ne_of_lt hl)
  · exact h.tail_zero (Nat.le_of_lt hl)

/-- Backspace held down on the empty line, then A. -/
theorem rollover_deletes : ∃ s₀, shell_init lowLayout cleared = some s₀ ∧
    ¬AtEvery (keyboard lowLayout) (Appends lowLayout) [0x0E#8, 0x1E#8] s₀ := by
  obtain ⟨s₀, hs₀, hp⟩ := shell_init_pending (L := lowLayout) (s := cleared) rfl
  have hk : keys s₀ = Keys.init := quiet_keys (Machine.putsLit_quiet hs₀)
  refine ⟨s₀, hs₀, fun H => ?_⟩
  have hcall : ∀ m, called lowDrivers m 0x0E#8 (keys s₀) = some (0, KBD_BCKSP) := fun m => by
    rw [hk]
    rfl
  -- the first code finds the line empty and leaves it empty
  have hp' : Pending ((setKeys ((keys s₀).next 0x0E#8).kstate ((keys s₀).next 0x0E#8).extended
    s₀).read lowLayout) [] := hp
  have hok : LineOk lowLayout [] (0, KBD_BCKSP) := trivial
  obtain ⟨s₁, hs₁, -, hp₁⟩ := onEvent_pending hp' hok
  have hfirst : keyboard lowLayout 0x0E#8 s₀ = some s₁ := by
    rw [keyboard_eq]
    simp only [hcall]
    exact hs₁
  have hk₁ : keys s₁ = (keys s₀).next 0x0E#8 := by
    apply keyboard_keys (fun k hn => ?_) hfirst
    rw [hcall, Option.some.injEq, Prod.mk.injEq] at hn
    exact absurd hn.1 (by decide)
  have hheld := appends_iff.mp (H [0x0E#8] 0x1E#8 s₁ (List.prefix_refl _)
    (by rw [runs_cons, hfirst]; rfl)) (by decide) (Pending.hasRoom hp₁ (by decide))
  rw [hk₁, hk] at hheld
  exact hheld.1 (by decide)

end Osdev2.I386
