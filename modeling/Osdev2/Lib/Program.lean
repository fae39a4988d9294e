import Osdev2.Lib.Traced

/-!
# Programs as instructions

A `Program ρ α` is an instruction with the rest of the program as a function of
its answer; instruction `i` answers with a `ρ i`. `Program.run` executes it whole, in any
monad; as its first constructor is its next instruction, it can also be run one
instruction at a time, with other things happening in between.

`Uses P p` says that every instruction of `p` is a `P`, whatever the answers were;
`keeps_run` turns a fact about each of them into one about the whole run.
-/

namespace Osdev2.Lib

universe u v w

variable {ι : Type u}

inductive Program (ρ : ι → Type) (α : Type)
  | ret (a : α)
  | step (i : ι) (k : ρ i → Program ρ α)

namespace Program

variable {ρ : ι → Type} {α β : Type}

def bind : Program ρ α → (α → Program ρ β) → Program ρ β
  | .ret a, f => f a
  | .step i k, f => .step i fun r => (k r).bind f

instance : Monad (Program ρ) where
  pure := .ret
  bind := bind

/-- One instruction. -/
def instr (i : ι) : Program ρ (ρ i) := .step i .ret

section Run

variable {m : Type → Type v} [Monad m] (exec : ∀ i, m (ρ i))

/-- The whole program, each instruction by `exec`. -/
def run : Program ρ α → m α
  | .ret a => pure a
  | .step i k => exec i >>= fun r => (k r).run

@[simp] theorem run_pure (a : α) : (pure a : Program ρ α).run exec = pure a := rfl

variable [LawfulMonad m]

@[simp] theorem run_instr (i : ι) : (instr i : Program ρ (ρ i)).run exec = exec i :=
  bind_pure (exec i)

@[simp] theorem run_bind (p : Program ρ α) (f : α → Program ρ β) :
    (p >>= f).run exec = p.run exec >>= fun a => (f a).run exec := by
  change (p.bind f).run exec = _
  induction p with
  | ret a => exact (pure_bind a fun a => (f a).run exec).symm
  | step i k ih =>
    change (exec i >>= fun r => ((k r).bind f).run exec) = (exec i >>= fun r => (k r).run exec) >>= _
    rw [bind_assoc]
    exact bind_congr ih

end Run

/-! ## Which instructions a program uses -/

/-- Every instruction the program may come to is a `P`. -/
inductive Uses (P : ι → Prop) : Program ρ α → Prop
  | ret (a : α) : Uses P (.ret a)
  | step {i : ι} {k : ρ i → Program ρ α} (h : P i) (hk : ∀ r, Uses P (k r)) : Uses P (.step i k)

variable {P P' : ι → Prop}

theorem Uses.pure (a : α) : Uses P (Pure.pure a : Program ρ α) := .ret a

theorem Uses.instr {i : ι} (h : P i) : Uses P (Program.instr i : Program ρ (ρ i)) := .step h .ret

theorem Uses.bind {p : Program ρ α} {f : α → Program ρ β} (hp : Uses P p)
    (hf : ∀ a, Uses P (f a)) : Uses P (p >>= f) := by
  change Uses P (p.bind f)
  induction hp with
  | ret a => exact hf a
  | step h _ ih => exact .step h ih

theorem Uses.ite {c : Prop} [Decidable c] {p q : Program ρ α} (hp : c → Uses P p)
    (hq : ¬c → Uses P q) : Uses P (if c then p else q) := by
  split
  · exact hp ‹_›
  · exact hq ‹_›

theorem Uses.mono {p : Program ρ α} (h : Uses P p) (hP : ∀ i, P i → P' i) : Uses P' p := by
  induction h with
  | ret a => exact .ret a
  | step h _ ih => exact .step (hP _ h) ih

theorem Uses.head {i : ι} {k : ρ i → Program ρ α} (h : Uses P (.step i k)) :
    P i ∧ ∀ r, Uses P (k r) := by
  cases h with
  | step h hk => exact ⟨h, hk⟩

section Machine

variable {σ : Type v} {ε : Type w} {ω : Type w} {exec : ∀ i, Traced σ ε ω (ρ i)}

/-- A relation that every instruction of the program keeps holds of its runs. -/
theorem keeps_run {R : σ → σ → List ω → Prop} (hnil : ∀ s, R s s [])
    (htrans : ∀ s t u l l', R s t l → R t u l' → R s u (l ++ l')) {p : Program ρ α}
    (hp : Uses P p) (h : ∀ i, P i → Keeps R (exec i)) : Keeps R (p.run exec) := by
  induction hp with
  | ret a =>
    intro s r s' ops hs
    cases hs
    exact hnil s
  | step hi _ ih => exact Keeps.bind htrans (h _ hi) ih

end Machine

end Program

end Osdev2.Lib
