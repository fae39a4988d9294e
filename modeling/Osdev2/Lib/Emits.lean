import Osdev2.Lib.Run

/-!
# What a run emits

`emits step f es s` collects what `f` reads off each event of a run and the state it
arrives in: the items put into a queue, the calls made, the steps of another machine.

* `emits_conserve`: if every step conserves a queue (what was in it and what enters are what
  leaves and what stays), so does the run; nothing is lost, doubled or overtaken;
* `runs_emits`: if every step of a machine is a few steps of another one, so is the run;
* `countP_le`: where some events use up a measure, a run has no more of them than the
  measure it began with and what was added.

The invariant under which a step does so is asked for along the run (`Always`).
-/

namespace Osdev2.Lib

universe u v w

variable {σ : Type u} {ε : Type v} {α : Type w}

section Always

variable {step : ε → σ → Option σ} {I : σ → Prop} {Q : ε → σ → σ → Prop} {es : List ε} {s s' : σ}

/-- `I` holds wherever the run comes by. -/
def Always (step : ε → σ → Option σ) (I : σ → Prop) (es : List ε) (s : σ) : Prop :=
  ∀ pre t, pre <+: es → runs step pre s = some t → I t

theorem Always.last (h : Always step I es s) (hr : runs step es s = some s') : I s' :=
  h es s' (List.prefix_refl es) hr

theorem Always.tail {e : ε} {t : σ} (h : Always step I (e :: es) s) (ht : step e s = some t) :
    Always step I es t := by
  intro pre u hp hr
  refine h (e :: pre) u (List.cons_prefix_cons.mpr ⟨rfl, hp⟩) ?_
  rw [runs_cons, ht]
  exact hr

theorem Always.upTo {pre : List ε} (h : Always step I es s) (hp : pre <+: es) : Always step I pre s :=
  fun p t hpt => h p t (hpt.trans hp)

theorem Always.drop {pre post : List ε} {t : σ} (h : Always step I (pre ++ post) s)
    (ht : runs step pre s = some t) : Always step I post t := by
  intro p u hp hr
  refine h (pre ++ p) u ((List.prefix_append_right_inj pre).mpr hp) ?_
  rw [runs_append, ht]
  exact hr

theorem EveryStep.tail {e : ε} {t : σ} (h : EveryStep step Q (e :: es) s) (ht : step e s = some t) :
    EveryStep step Q es t := by
  intro pre e' u u' hp hr
  refine h (e :: pre) e' u u' (List.cons_prefix_cons.mpr ⟨rfl, hp⟩) ?_
  rw [runs_cons, ht]
  exact hr

theorem EveryStep.head {e : ε} {t : σ} (h : EveryStep step Q (e :: es) s) (ht : step e s = some t) :
    Q e s t :=
  h [] e s t (List.cons_prefix_cons.mpr ⟨rfl, List.nil_prefix⟩) rfl ht

theorem EveryStep.always (hstep : ∀ e t t', I t → step e t = some t' → Q e t t' → I t') (h0 : I s)
    (h : EveryStep step Q es s) : Always step I es s := by
  induction es generalizing s with
  | nil =>
    intro pre t hp hr
    rw [List.prefix_nil.mp hp] at hr
    cases hr
    exact h0
  | cons e es ih =>
    intro pre t hp hr
    cases pre with
    | nil =>
      cases hr
      exact h0
    | cons a pre =>
      obtain ⟨rfl, hpre⟩ := List.cons_prefix_cons.mp hp
      obtain ⟨u, hu, hr⟩ := Option.bind_eq_some_iff.mp hr
      exact ih (hstep a s u h0 hu (h.head hu)) (h.tail hu) pre t hpre hr

end Always

/-- What the events of a run emit, in order. -/
def emits (step : ε → σ → Option σ) (f : ε → σ → List α) : List ε → σ → List α
  | [], _ => []
  | e :: es, s => f e s ++ (step e s).elim [] (emits step f es)

section Emits

variable {step : ε → σ → Option σ} {f : ε → σ → List α} {I : σ → Prop} {es : List ε} {s s' : σ}

@[simp] theorem emits_nil (s : σ) : emits step f [] s = [] := rfl

theorem emits_cons {e : ε} {t : σ} (h : step e s = some t) :
    emits step f (e :: es) s = f e s ++ emits step f es t := by
  rw [emits, h]
  rfl

theorem emits_append {fs : List ε} {t : σ} (h : runs step es s = some t) :
    emits step f (es ++ fs) s = emits step f es s ++ emits step f fs t := by
  induction es generalizing s with
  | nil =>
    cases h
    rfl
  | cons e es ih =>
    obtain ⟨u, hu, hr⟩ := Option.bind_eq_some_iff.mp h
    rw [List.cons_append, emits_cons hu, emits_cons hu, ih hr, List.append_assoc]

theorem emits_eq_flatMap {g : ε → List α} (h : runs step es s = some s') :
    emits step (fun e _ => g e) es s = es.flatMap g := by
  induction es generalizing s with
  | nil => rfl
  | cons e es ih =>
    obtain ⟨t, ht, hr⟩ := Option.bind_eq_some_iff.mp h
    rw [emits_cons ht, ih hr, List.flatMap_cons]

/-- **Conservation**, of a queue whose contents are `held`, oldest first. -/
theorem emits_conserve {held : σ → List α} {ins outs : ε → σ → List α} (hI : Always step I es s)
    (hstep : ∀ e t t', I t → step e t = some t' → held t ++ ins e t = outs e t ++ held t')
    (h : runs step es s = some s') :
    held s ++ emits step ins es s = emits step outs es s ++ held s' := by
  induction es generalizing s with
  | nil =>
    cases h
    rw [emits_nil, emits_nil, List.append_nil, List.nil_append]
  | cons e es ih =>
    obtain ⟨t, ht, hr⟩ := Option.bind_eq_some_iff.mp h
    have h0 := hI [] s List.nil_prefix rfl
    rw [emits_cons ht, emits_cons ht, ← List.append_assoc, hstep e s t h0 ht, List.append_assoc,
      ih (hI.tail ht) hr, List.append_assoc]

/-- **Projection** onto another machine, of which each step is the steps `proj`. -/
theorem runs_emits {τ : Type*} {astep : α → τ → Option τ} {abs : σ → τ} {proj : ε → σ → List α}
    (hI : Always step I es s)
    (hstep : ∀ e t t', I t → step e t = some t' → runs astep (proj e t) (abs t) = some (abs t'))
    (h : runs step es s = some s') :
    runs astep (emits step proj es s) (abs s) = some (abs s') := by
  induction es generalizing s with
  | nil =>
    cases h
    rfl
  | cons e es ih =>
    obtain ⟨t, ht, hr⟩ := Option.bind_eq_some_iff.mp h
    have h0 := hI [] s List.nil_prefix rfl
    rw [emits_cons ht, runs_append, hstep e s t h0 ht]
    exact ih (hI.tail ht) hr

/-- What is read off the steps of the other machine can be read off the events themselves. -/
theorem filterMap_emits {β : Type*} {g : α → Option β} :
    (emits step f es s).filterMap g = emits step (fun e s => (f e s).filterMap g) es s := by
  induction es generalizing s with
  | nil => rfl
  | cons e es ih =>
    simp only [emits]
    rw [List.filterMap_append]
    cases step e s with
    | none => rfl
    | some t => exact congrArg _ ih

/-- **Progress.** -/
theorem countP_le {p : ε → σ → Bool} {μ : σ → Nat} {ins : ε → σ → List α} {k : Nat}
    (hI : Always step I es s)
    (hstep : ∀ e t t', I t → step e t = some t' →
      (if p e t then 1 else 0) + μ t' ≤ μ t + k * (ins e t).length)
    (h : runs step es s = some s') :
    (emits step (fun e t => if p e t then [e] else []) es s).length + μ s' ≤
      μ s + k * (emits step ins es s).length := by
  induction es generalizing s with
  | nil =>
    cases h
    simp only [emits_nil, List.length_nil, Nat.zero_add, Nat.mul_zero, Nat.add_zero, le_refl]
  | cons e es ih =>
    obtain ⟨t, ht, hr⟩ := Option.bind_eq_some_iff.mp h
    have h0 := hstep e s t (hI [] s List.nil_prefix rfl) ht
    have hrest := ih (hI.tail ht) hr
    have hone : (if p e s then [e] else []).length = if p e s then 1 else 0 := by
      split <;> rfl
    rw [emits_cons ht, emits_cons ht, List.length_append, List.length_append, hone, Nat.mul_add]
    omega

end Emits

end Osdev2.Lib
