import Osdev2.Lib.Program

/-!
# Preconditions of programs

`ask i s R` is what instruction `i` needs in state `s` to hand an answer and a state to `R`; the
state may be a ghost that no instruction computes. `p.wp ask Q s` is what the whole program
needs to end with a `Q`, each instruction on the way having found what it asks for. As it
is defined by the next instruction, it can be kept along a run that takes one at a time.
-/

namespace Osdev2.Lib.Program

universe u v

variable {ι : Type u} {ρ : ι → Type} {α β : Type} {σ : Type v}

def wp (ask : ∀ i, σ → (ρ i → σ → Prop) → Prop) : Program ρ α → (α → σ → Prop) → σ → Prop
  | .ret a, Q, s => Q a s
  | .step i k, Q, s => ask i s fun r t => (k r).wp ask Q t

section Wp

variable {ask : ∀ i, σ → (ρ i → σ → Prop) → Prop} {Q : α → σ → Prop} {s : σ}

@[simp] theorem wp_pure (a : α) : (pure a : Program ρ α).wp ask Q s ↔ Q a s := Iff.rfl

@[simp] theorem wp_instr (i : ι) {Q : ρ i → σ → Prop} :
    (instr i : Program ρ (ρ i)).wp ask Q s ↔ ask i s Q := Iff.rfl

@[simp] theorem wp_bind (p : Program ρ α) (f : α → Program ρ β) {Q : β → σ → Prop} :
    (p >>= f).wp ask Q s ↔ p.wp ask (fun a t => (f a).wp ask Q t) s := by
  change (p.bind f).wp ask Q s ↔ _
  induction p generalizing s with
  | ret a => exact Iff.rfl
  | step i k ih =>
    change (ask i s fun r t => ((k r).bind f).wp ask Q t) ↔ ask i s _
    simp only [ih]

theorem wp_ite {c : Prop} [Decidable c] {p q : Program ρ α} (hp : c → p.wp ask Q s)
    (hq : ¬c → q.wp ask Q s) : (if c then p else q).wp ask Q s := by
  split
  · exact hp ‹_›
  · exact hq ‹_›

end Wp

end Osdev2.Lib.Program
