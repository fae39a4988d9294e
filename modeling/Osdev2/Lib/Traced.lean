import Mathlib

/-!
# Programs that log their accesses

`Traced σ ε ω α` is a program over states `σ`: it may never return (`none`), it
may stop early with an error `ε`, and it hands back the list of its accesses
`ω`. With `ok` the accesses that are allowed, `Sound ok x s` says that `x`
returns from `s` and has made allowed accesses only.

`Spec` gives the exact condition for that, and what `x` leaves when it holds.
`Spec.bind` composes the conditions: a program after another one need only be
looked at where the first has behaved. `Keeps.bind` is the rule for what holds of
every program of a kind, whatever its accesses; `Completes.bind` the one for
programs that do not stop early.
-/

namespace Osdev2.Lib

universe u v w

variable {σ : Type u} {ε : Type v} {ω : Type w} {α β : Type}

/-- The result, the state after, and the accesses in order. -/
def Traced (σ : Type u) (ε : Type v) (ω : Type w) (α : Type) : Type (max u v w) :=
  σ → Option (Except ε α × σ × List ω)

namespace Traced

def bind (x : Traced σ ε ω α) (f : α → Traced σ ε ω β) : Traced σ ε ω β := fun s =>
  match x s with
  | none => none
  | some (.error e, s, ops) => some (.error e, s, ops)
  | some (.ok a, s, ops) => (f a s).map fun t => (t.1, t.2.1, ops ++ t.2.2)

instance : Monad (Traced σ ε ω) where
  pure a s := some (.ok a, s, [])
  bind := bind

def throw (e : ε) : Traced σ ε ω α := fun s => some (.error e, s, [])

instance : LawfulMonad (Traced σ ε ω) := by
  refine LawfulMonad.mk' _ (fun x => ?_) (fun a f => ?_) (fun x f g => ?_)
  · funext s
    change x.bind (fun a t => some (.ok a, t, [])) s = x s
    unfold bind
    rcases x s with _ | ⟨_ | a, t, l⟩
    · rfl
    · rfl
    · simp only [Option.map_some, List.append_nil]
  · funext s
    change (f a s).map (fun t => (t.1, t.2.1, [] ++ t.2.2)) = f a s
    simp only [List.nil_append, Prod.mk.eta, Option.map_id']
  · funext s
    change (x.bind f).bind g s = x.bind (fun a => (f a).bind g) s
    unfold bind
    rcases x s with _ | ⟨_ | a, t, l⟩
    · rfl
    · rfl
    · simp only
      rcases f a t with _ | ⟨_ | b, t', l'⟩
      · rfl
      · rfl
      · simp only [Option.map_some, Option.map_map, Function.comp_def, List.append_assoc]

theorem bind_ok {x : Traced σ ε ω α} {f : α → Traced σ ε ω β} {s s' : σ} {a : α} {ops : List ω}
    (h : x s = some (.ok a, s', ops)) :
    (x >>= f) s = (f a s').map fun t => (t.1, t.2.1, ops ++ t.2.2) := by
  change x.bind f s = _
  simp only [bind, h]

theorem bind_none {x : Traced σ ε ω α} {f : α → Traced σ ε ω β} {s : σ} (h : x s = none) :
    (x >>= f) s = none := by
  change x.bind f s = _
  simp only [bind, h]

theorem bind_error {x : Traced σ ε ω α} {f : α → Traced σ ε ω β} {s s' : σ} {e : ε} {ops : List ω}
    (h : x s = some (.error e, s', ops)) : (x >>= f) s = some (.error e, s', ops) := by
  change x.bind f s = _
  simp only [bind, h]

theorem bind_quiet {x : Traced σ ε ω α} {f : α → Traced σ ε ω β} {s s' : σ} {a : α}
    (h : x s = some (.ok a, s', [])) : (x >>= f) s = f a s' := by
  rw [bind_ok h]
  simp only [List.nil_append, Prod.mk.eta, Option.map_id']

/-- Never returns. -/
def diverge : Traced σ ε ω α := fun _ => none

end Traced

section Sound

variable (ok : ω → Prop)

/-- The program returns, every access allowed. -/
def Sound (x : Traced σ ε ω α) (s : σ) : Prop :=
  ∃ r s' ops, x s = some (r, s', ops) ∧ ∀ op ∈ ops, ok op

/-- `C` is when `x` is sound from `s`, and `Q` what it then leaves. -/
structure Spec (x : Traced σ ε ω α) (s : σ) (C : Prop) (Q : Except ε α → σ → Prop) : Prop where
  sound : Sound ok x s ↔ C
  leaves : C → ∀ r s' ops, x s = some (r, s', ops) → Q r s'

end Sound

section Rules

variable {ok : ω → Prop} {x : Traced σ ε ω α} {f : α → Traced σ ε ω β} {s : σ} {C D : Prop}
  {Q Q' : Except ε α → σ → Prop} {R : Except ε β → σ → Prop}

theorem sound_bind : Sound ok (x >>= f) s ↔ ∃ r s' ops, x s = some (r, s', ops) ∧
    (∀ op ∈ ops, ok op) ∧ ∀ a, r = .ok a → Sound ok (f a) s' := by
  change Sound ok (x.bind f) s ↔ _
  constructor
  · rintro ⟨r, s', ops, h, hok⟩
    unfold Traced.bind at h
    split at h
    · cases h
    · rename_i e t l hx
      cases h
      exact ⟨_, _, _, hx, hok, fun a ha => by cases ha⟩
    · rename_i a t l hx
      obtain ⟨⟨r', t', l'⟩, hf, heq⟩ := Option.map_eq_some_iff.mp h
      cases heq
      refine ⟨_, _, _, hx, fun op hop => hok op (List.mem_append_left _ hop), fun b hb => ?_⟩
      cases hb
      exact ⟨r', t', l', hf, fun op hop => hok op (List.mem_append_right _ hop)⟩
  · rintro ⟨r, s', ops, hx, hok, hf⟩
    cases r with
    | error e => exact ⟨.error e, s', ops, by simp only [Traced.bind, hx], hok⟩
    | ok a =>
      obtain ⟨r', t', l', hfa, hok'⟩ := hf a rfl
      refine ⟨r', t', ops ++ l', by simp only [Traced.bind, hx, hfa, Option.map_some], ?_⟩
      intro op hop
      rcases List.mem_append.mp hop with h | h
      · exact hok op h
      · exact hok' op h

theorem bind_eq_some {r : Except ε β} {s' : σ} {ops : List ω}
    (h : (x >>= f) s = some (r, s', ops)) :
    (∃ e, r = .error e ∧ x s = some (.error e, s', ops)) ∨
      ∃ a t l l', x s = some (.ok a, t, l) ∧ f a t = some (r, s', l') ∧ ops = l ++ l' := by
  change x.bind f s = _ at h
  unfold Traced.bind at h
  split at h
  · cases h
  · rename_i e t l hx
    cases h
    exact .inl ⟨e, rfl, hx⟩
  · rename_i a t l hx
    obtain ⟨⟨r', t', l'⟩, hf, heq⟩ := Option.map_eq_some_iff.mp h
    cases heq
    exact .inr ⟨a, t, l, l', hx, hf, rfl⟩

namespace Spec

theorem of_eq {r : Except ε α} {s' : σ} {ops : List ω} (h : x s = some (r, s', ops))
    (hC : (∀ op ∈ ops, ok op) ↔ C) (hQ : C → Q r s') : Spec ok x s C Q where
  sound := by
    refine Iff.trans ⟨?_, fun hok => ⟨r, s', ops, h, hok⟩⟩ hC
    rintro ⟨r', t', l', h', hok⟩
    cases h.symm.trans h'
    exact hok
  leaves hc r' t' l' h' := by
    cases h.symm.trans h'
    exact hQ hc

theorem pure (a : α) : Spec ok (Pure.pure a : Traced σ ε ω α) s True
    fun r s' => r = .ok a ∧ s' = s :=
  of_eq rfl (by simp) fun _ => ⟨rfl, rfl⟩

theorem throw (e : ε) : Spec ok (Traced.throw e : Traced σ ε ω α) s True
    fun r s' => r = .error e ∧ s' = s :=
  of_eq rfl (by simp) fun _ => ⟨rfl, rfl⟩

theorem congr (h : Spec ok x s C Q) (hC : C ↔ D) : Spec ok x s D Q :=
  ⟨h.sound.trans hC, fun hc => h.leaves (hC.mpr hc)⟩

theorem mono (h : Spec ok x s C Q) (hQ : ∀ r s', C → Q r s' → Q' r s') : Spec ok x s C Q' :=
  ⟨h.sound, fun hc r s' ops he => hQ r s' hc (h.leaves hc r s' ops he)⟩

theorem of_imp (hn : Sound ok x s → C) (h : C → Spec ok x s D Q) :
    Spec ok x s (C ∧ D) Q where
  sound := ⟨fun hs => ⟨hn hs, (h (hn hs)).sound.mp hs⟩, fun hc => (h hc.1).sound.mpr hc.2⟩
  leaves hc := (h hc.1).leaves hc.2

theorem run (h : Spec ok x s C Q) (hc : C) :
    ∃ r s' ops, x s = some (r, s', ops) ∧ (∀ op ∈ ops, ok op) ∧ Q r s' := by
  obtain ⟨r, s', ops, he, hok⟩ := h.sound.mpr hc
  exact ⟨r, s', ops, he, hok, h.leaves hc r s' ops he⟩

/-- **Composition.** The second program runs where the first has left `.ok`. -/
theorem bind (hx : Spec ok x s C Q) (hf : ∀ a s', C → Q (.ok a) s' → Spec ok (f a) s' D R)
    (he : ∀ e s', C → Q (.error e) s' → D ∧ R (.error e) s') :
    Spec ok (x >>= f) s (C ∧ D) R where
  sound := by
    rw [sound_bind]
    constructor
    · rintro ⟨r, s', ops, h, hok, hrest⟩
      have hc : C := hx.sound.mp ⟨r, s', ops, h, hok⟩
      have hq := hx.leaves hc r s' ops h
      refine ⟨hc, ?_⟩
      cases r with
      | error e => exact (he e s' hc hq).1
      | ok a => exact (hf a s' hc hq).sound.mp (hrest a rfl)
    · rintro ⟨hc, hd⟩
      obtain ⟨r, s', ops, h, hok, hq⟩ := hx.run hc
      refine ⟨r, s', ops, h, hok, ?_⟩
      rintro a rfl
      exact (hf a s' hc hq).sound.mpr hd
  leaves := by
    rintro ⟨hc, hd⟩ r s' ops h
    rcases bind_eq_some h with ⟨e, rfl, hxe⟩ | ⟨a, t, l, l', hxa, hfa, -⟩
    · exact (he e s' hc (hx.leaves hc _ _ _ hxe)).2
    · exact (hf a t hc (hx.leaves hc _ _ _ hxa)).leaves hd _ _ _ hfa

theorem bind_ok {a : α} {s' : σ} (hx : Spec ok x s C fun r t => r = .ok a ∧ t = s')
    (hf : C → Spec ok (f a) s' D R) : Spec ok (x >>= f) s (C ∧ D) R :=
  hx.bind (by rintro _ _ hc ⟨⟨⟩, rfl⟩; exact hf hc) (by rintro _ _ _ ⟨⟨⟩, -⟩)

theorem ite {c : Prop} [Decidable c] {y : Traced σ ε ω α} (hx : c → Spec ok x s C Q)
    (hy : ¬c → Spec ok y s True Q) : Spec ok (if c then x else y) s (c → C) Q := by
  by_cases hc : c
  · rw [if_pos hc]
    exact (hx hc).congr ⟨fun h _ => h, fun h => h hc⟩
  · rw [if_neg hc]
    exact (hy hc).congr ⟨fun _ h => absurd h hc, fun _ => trivial⟩

theorem bind_known {a : α} {s' : σ} (hx : Spec ok x s C fun r t => r = .ok a ∧ t = s') (hc : C)
    (hf : Spec ok (f a) s' D R) : Spec ok (x >>= f) s D R :=
  (hx.bind_ok fun _ => hf).congr (and_iff_right hc)

/-- Composition of programs that are sound wherever an invariant holds. -/
theorem seq {I : σ → Prop} (hx : Spec ok x s True fun _ s' => I s')
    (hf : ∀ a s', I s' → Spec ok (f a) s' True fun _ s' => I s') :
    Spec ok (x >>= f) s True fun _ s' => I s' :=
  (hx.bind (fun a s' _ hI => hf a s' hI) fun _ _ _ hI => ⟨trivial, hI⟩).congr (and_self_iff)

end Spec

theorem Sound.mono {ok' : ω → Prop} (h : Sound ok x s) (hok : ∀ op, ok op → ok' op) :
    Sound ok' x s := by
  obtain ⟨r, s', ops, hx, hops⟩ := h
  exact ⟨r, s', ops, hx, fun op hop => hok op (hops op hop)⟩

/-- A relation between the states before and after a program, and its accesses. -/
def Keeps (P : σ → σ → List ω → Prop) (x : Traced σ ε ω α) : Prop :=
  ∀ s r s' ops, x s = some (r, s', ops) → P s s' ops

theorem Keeps.bind {P : σ → σ → List ω → Prop}
    (hP : ∀ s t u l l', P s t l → P t u l' → P s u (l ++ l')) (hx : Keeps P x)
    (hf : ∀ a, Keeps P (f a)) : Keeps P (x >>= f) := by
  intro s r s' ops h
  rcases bind_eq_some h with ⟨e, -, hxe⟩ | ⟨a, t, l, l', hxa, hfa, rfl⟩
  · exact hx _ _ _ _ hxe
  · exact hP _ _ _ _ _ (hx _ _ _ _ hxa) (hf a _ _ _ _ hfa)

theorem Keeps.ite {P : σ → σ → List ω → Prop} {c : Prop} [Decidable c] {y : Traced σ ε ω α}
    (hx : Keeps P x) (hy : Keeps P y) : Keeps P (if c then x else y) := by
  split
  · exact hx
  · exact hy

/-- The program does not stop early. -/
def Completes (x : Traced σ ε ω α) : Prop := ∀ s e s' ops, x s ≠ some (.error e, s', ops)

theorem Completes.of_ok (h : ∀ s, ∃ a s' ops, x s = some (.ok a, s', ops)) : Completes x := by
  intro s e s' ops he
  obtain ⟨a, t, l, ha⟩ := h s
  cases ha.symm.trans he

theorem Completes.bind (hx : Completes x) (hf : ∀ a, Completes (f a)) : Completes (x >>= f) := by
  intro s e s' ops h
  rcases bind_eq_some h with ⟨e', -, hxe⟩ | ⟨a, t, l, l', -, hfa, -⟩
  · exact hx _ _ _ _ hxe
  · exact hf a _ _ _ _ hfa

theorem Completes.ite {c : Prop} [Decidable c] {y : Traced σ ε ω α} (hx : Completes x)
    (hy : Completes y) : Completes (if c then x else y) := by
  split
  · exact hx
  · exact hy

theorem Completes.error (hf : ∀ a, Completes (f a)) {e : ε} {s' : σ} {ops : List ω}
    (h : (x >>= f) s = some (.error e, s', ops)) : x s = some (.error e, s', ops) := by
  rcases bind_eq_some h with ⟨e', he, hxe⟩ | ⟨a, t, l, l', -, hfa, -⟩
  · cases he
    exact hxe
  · exact absurd hfa (hf a _ _ _ _)

/-- Where `x` succeeds, `y` does the same. -/
def Backs (x y : Traced σ ε ω α) : Prop :=
  ∀ s a s' ops, x s = some (.ok a, s', ops) → y s = some (.ok a, s', ops)

theorem Backs.refl (x : Traced σ ε ω α) : Backs x x := fun _ _ _ _ h => h

theorem Backs.bind {y : Traced σ ε ω α} {g : α → Traced σ ε ω β} (hx : Backs x y)
    (hf : ∀ a, Backs (f a) (g a)) : Backs (x >>= f) (y >>= g) := by
  intro s b s' ops h
  rcases bind_eq_some h with ⟨e, he, -⟩ | ⟨a, t, l, l', hxa, hfa, rfl⟩
  · cases he
  · rw [Traced.bind_ok (hx _ _ _ _ hxa), hf a _ _ _ _ hfa]
    rfl

theorem Backs.ite {c : Prop} [Decidable c] {x y x' y' : Traced σ ε ω α} (hx : Backs x x')
    (hy : Backs y y') : Backs (if c then x else y) (if c then x' else y') := by
  split
  · exact hx
  · exact hy

end Rules

end Osdev2.Lib
