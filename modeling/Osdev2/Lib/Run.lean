import Mathlib

/-!
# Runs of an event-driven machine

A machine is a step function `step : ε → σ → Option σ`; `none` is a step that
never returns. `runs` feeds it a list of events. The rules here turn a step
lemma into a run lemma:

* `runs_preserves`: an invariant of every step holds along every run;
* `runs_history`: the same for an invariant that reads the events so far;
* `atEvery_iff`, `everyStep_iff`: two step properties that agree on every step
  agree on runs;
* `runs_simulates`: a total abstract machine simulated step by step, the
  concrete run returning as long as each event is allowed where it arrives.
-/

namespace Osdev2.Lib

universe u v w

variable {σ : Type u} {ε : Type v} {α : Type w}

/-- Feed the events to the machine one by one. -/
def runs (step : ε → σ → Option σ) : List ε → σ → Option σ
  | [], s => some s
  | e :: es, s => (step e s).bind (runs step es)

section Runs

variable {step : ε → σ → Option σ}

@[simp] theorem runs_nil (s : σ) : runs step [] s = some s := rfl

@[simp] theorem runs_cons (e : ε) (es : List ε) (s : σ) :
    runs step (e :: es) s = (step e s).bind (runs step es) := rfl

theorem runs_append (es fs : List ε) (s : σ) :
    runs step (es ++ fs) s = (runs step es s).bind (runs step fs) := by
  induction es generalizing s with
  | nil => rfl
  | cons e es ih =>
    simp only [List.cons_append, runs_cons]
    cases step e s with
    | none => rfl
    | some t => exact ih t

theorem runs_snoc {es : List ε} {e : ε} {s s' : σ} :
    runs step (es ++ [e]) s = some s' ↔ ∃ t, runs step es s = some t ∧ step e t = some s' := by
  rw [runs_append, Option.bind_eq_some_iff]
  simp only [runs_cons, Option.bind_eq_some_iff, runs_nil, Option.some.injEq, exists_eq_right]

theorem runs_history {I : List ε → σ → Prop} {s : σ} (h0 : I [] s)
    (hstep : ∀ es e t t', runs step es s = some t → I es t → step e t = some t' →
      I (es ++ [e]) t') :
    ∀ {es : List ε} {s' : σ}, runs step es s = some s' → I es s' := by
  intro es
  induction es using List.reverseRecOn with
  | nil => intro s' h; cases h; exact h0
  | append_singleton es e ih =>
    intro s' h
    obtain ⟨t, ht, he⟩ := runs_snoc.mp h
    exact hstep es e t s' ht (ih ht) he

theorem runs_preserves {I : σ → Prop} (hstep : ∀ e s s', I s → step e s = some s' → I s')
    {es : List ε} {s s' : σ} (h0 : I s) (h : runs step es s = some s') : I s' :=
  runs_history (I := fun _ => I) h0 (fun _ e t t' _ => hstep e t t') h

/-- `Q` holds of every event of the run at the state it arrives in. -/
def AtEvery (step : ε → σ → Option σ) (Q : ε → σ → Prop) (es : List ε) (s : σ) : Prop :=
  ∀ pre e t, pre ++ [e] <+: es → runs step pre s = some t → Q e t

theorem atEvery_cons {Q : ε → σ → Prop} {e : ε} {es : List ε} {s : σ}
    (h : AtEvery step Q (e :: es) s) :
    Q e s ∧ ∀ t, step e s = some t → AtEvery step Q es t := by
  refine ⟨h [] e s ⟨es, rfl⟩ rfl, fun t ht pre e' t' hp hr => ?_⟩
  refine h (e :: pre) e' t' ?_ ?_
  · exact List.cons_prefix_cons.mpr ⟨rfl, hp⟩
  · rw [runs_cons, ht]
    exact hr

theorem atEvery_iff {Q Q' : ε → σ → Prop} (h : ∀ e t, Q e t ↔ Q' e t) (es : List ε) (s : σ) :
    AtEvery step Q es s ↔ AtEvery step Q' es s :=
  ⟨fun H pre e t hp ht => (h e t).mp (H pre e t hp ht),
    fun H pre e t hp ht => (h e t).mpr (H pre e t hp ht)⟩

theorem atEvery_nil (Q : ε → σ → Prop) (s : σ) : AtEvery step Q [] s :=
  fun _ _ _ hp => absurd (List.prefix_nil.mp hp) (by simp)

theorem AtEvery.cons {Q : ε → σ → Prop} {e : ε} {es : List ε} {s : σ} (h : Q e s)
    (hs : ∀ t, step e s = some t → AtEvery step Q es t) : AtEvery step Q (e :: es) s := by
  intro pre e' t hp hr
  cases pre with
  | nil =>
    obtain ⟨rfl, -⟩ := List.cons_prefix_cons.mp hp
    cases hr
    exact h
  | cons a pre =>
    obtain ⟨rfl, hpre⟩ := List.cons_prefix_cons.mp hp
    obtain ⟨t₁, ht₁, hr⟩ := Option.bind_eq_some_iff.mp hr
    exact hs t₁ ht₁ pre e' t hpre hr

/-- Two properties of a step that agree where `I` holds agree on runs; `I` reads the events to come,
and a step with the second property keeps it. -/
theorem atEvery_iff_of {I : List ε → σ → Prop} {Q Q' : ε → σ → Prop}
    (hQ : ∀ e es s, I (e :: es) s → (Q e s ↔ Q' e s))
    (hI : ∀ e es s s', I (e :: es) s → Q' e s → step e s = some s' → I es s')
    {es : List ε} {s : σ} (h : I es s) : AtEvery step Q es s ↔ AtEvery step Q' es s := by
  induction es generalizing s with
  | nil => exact iff_of_true (atEvery_nil Q s) (atEvery_nil Q' s)
  | cons e es ih =>
    constructor
    · intro hall
      obtain ⟨h0, hrest⟩ := atEvery_cons hall
      have h0' := (hQ e es s h).mp h0
      exact AtEvery.cons h0' fun t ht => (ih (hI e es s t h h0' ht)).mp (hrest t ht)
    · intro hall
      obtain ⟨h0, hrest⟩ := atEvery_cons hall
      exact AtEvery.cons ((hQ e es s h).mpr h0) fun t ht => (ih (hI e es s t h h0 ht)).mpr (hrest t ht)

theorem forall_reaches {f : σ → Option σ} {P : σ → Prop} {s : σ} :
    (∀ t, StateTransition.Reaches f s t → P t) ↔
      P s ∧ ∀ s', f s = some s' → ∀ t, StateTransition.Reaches f s' t → P t := by
  constructor
  · intro h
    exact ⟨h s Relation.ReflTransGen.refl, fun s' hs t ht => h t (Relation.ReflTransGen.head hs ht)⟩
  · rintro ⟨h0, h⟩ t ht
    rcases Relation.ReflTransGen.cases_head ht with rfl | ⟨s', hs, ht⟩
    · exact h0
    · exact h s' hs t ht

/-- `Q` holds after each prefix of the run, all of which return. -/
def AfterEvery (step : ε → σ → Option σ) (Q : σ → Prop) (es : List ε) (s : σ) : Prop :=
  ∀ pre, pre <+: es → ∃ t, runs step pre s = some t ∧ Q t

/-- Where a step keeps `Q` exactly if `Ok` holds before it, a run does exactly if `Ok` holds before
every step; `I` is an invariant and `D` the events considered. -/
theorem afterEvery_iff {I Q : σ → Prop} {D Ok : ε → σ → Prop}
    (hstep : ∀ e s, I s → Q s → D e s → ∃ s', step e s = some s' ∧ I s' ∧ (Q s' ↔ Ok e s))
    {es : List ε} {s : σ} (hI : I s) (hQ : Q s) (hD : AtEvery step D es s) :
    AfterEvery step Q es s ↔ AtEvery step Ok es s := by
  induction es generalizing s with
  | nil =>
    refine ⟨fun _ => atEvery_nil Ok s, fun _ pre hp => ?_⟩
    · rw [List.prefix_nil.mp hp]
      exact ⟨s, rfl, hQ⟩
  | cons e es ih =>
    obtain ⟨hd, hrest⟩ := atEvery_cons hD
    obtain ⟨s', hs', hI', hiff⟩ := hstep e s hI hQ hd
    constructor
    · intro h
      obtain ⟨t, ht, hQt⟩ := h [e] (List.cons_prefix_cons.mpr ⟨rfl, List.nil_prefix⟩)
      rw [runs_cons, hs'] at ht
      cases ht
      refine AtEvery.cons (hiff.mp hQt) fun t ht => ?_
      obtain rfl : s' = t := Option.some.inj (hs'.symm.trans ht)
      refine (ih hI' hQt (hrest s' hs')).mp fun pre hp => ?_
      obtain ⟨t, ht, hQt⟩ := h (e :: pre) (List.cons_prefix_cons.mpr ⟨rfl, hp⟩)
      rw [runs_cons, hs'] at ht
      exact ⟨t, ht, hQt⟩
    · intro h pre hp
      obtain ⟨hok, hoks⟩ := atEvery_cons h
      cases pre with
      | nil => exact ⟨s, rfl, hQ⟩
      | cons a pre =>
        obtain ⟨rfl, hpre⟩ := List.cons_prefix_cons.mp hp
        have hall := (ih hI' (hiff.mpr hok) (hrest s' hs')).mpr (hoks s' hs')
        obtain ⟨t, ht, hQt⟩ := hall pre hpre
        exact ⟨t, by rw [runs_cons, hs']; exact ht, hQt⟩

/-- `Q` holds of every step the run of `es` from `s` takes. -/
def EveryStep (step : ε → σ → Option σ) (Q : ε → σ → σ → Prop) (es : List ε) (s : σ) : Prop :=
  ∀ pre e t t', pre ++ [e] <+: es → runs step pre s = some t → step e t = some t' → Q e t t'

theorem everyStep_iff {Q Q' : ε → σ → σ → Prop}
    (h : ∀ e t t', step e t = some t' → (Q e t t' ↔ Q' e t t')) (es : List ε) (s : σ) :
    EveryStep step Q es s ↔ EveryStep step Q' es s :=
  ⟨fun H pre e t t' hp ht he => (h e t t' he).mp (H pre e t t' hp ht he),
    fun H pre e t t' hp ht he => (h e t t' he).mpr (H pre e t t' hp ht he)⟩

end Runs

/-- Each event is allowed (`ok`) at the abstract state it arrives in. -/
def Along (astep : α → ε → α) (ok : α → ε → Prop) : α → List ε → Prop
  | _, [] => True
  | a, e :: es => ok a e ∧ Along astep ok (astep a e) es

section Simulation

variable {astep : α → ε → α} {ok : α → ε → Prop}

theorem Along.append {a : α} {es fs : List ε} (h : Along astep ok a (es ++ fs)) :
    Along astep ok a es ∧ Along astep ok (es.foldl astep a) fs := by
  induction es generalizing a with
  | nil => exact ⟨trivial, h⟩
  | cons e es ih =>
    obtain ⟨h1, h2⟩ := h
    obtain ⟨h3, h4⟩ := ih h2
    exact ⟨⟨h1, h3⟩, h4⟩

/-- **Forward simulation.** -/
theorem runs_simulates {step : ε → σ → Option σ} {R : α → σ → Prop}
    (hstep : ∀ a e s, R a s → ok a e → ∃ s', step e s = some s' ∧ R (astep a e) s')
    {a : α} {es : List ε} {s : σ} (hR : R a s) (hok : Along astep ok a es) :
    ∃ s', runs step es s = some s' ∧ R (es.foldl astep a) s' := by
  induction es generalizing a s with
  | nil => exact ⟨s, rfl, hR⟩
  | cons e es ih =>
    obtain ⟨t, he, hRt⟩ := hstep a e s hR hok.1
    obtain ⟨s', hr, hRs⟩ := ih hRt hok.2
    exact ⟨s', by rw [runs_cons, he]; exact hr, hRs⟩

end Simulation

end Osdev2.Lib
