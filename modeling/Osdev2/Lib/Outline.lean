import Osdev2.Lib.Run

/-!
# Proof outlines

A finite list of notes, each with its meaning `γ`, annotates a program that runs while other
things happen to the state it reads. If every step from a state some note describes is to a state
described by the same note or one of its successors, and the list has the successors of each
of its notes, then it describes wherever a run gets to (`runs_outline`). That the list is
closed is decided by evaluation.
-/

namespace Osdev2.Lib

universe u v w

variable {σ : Type u} {ε : Type v} {ν : Type w}

section Outline

variable {step : ε → σ → Option σ} {γ : ν → List ε → σ → Prop} {post : ν → List ν} {s : σ}

/-- The list has every successor of its notes. -/
def Closed (post : ν → List ν) (outline : List ν) : Prop := ∀ a ∈ outline, ∀ a' ∈ post a, a' ∈ outline

instance [DecidableEq ν] (outline : List ν) : Decidable (Closed post outline) :=
  inferInstanceAs (Decidable (∀ a ∈ outline, ∀ a' ∈ post a, a' ∈ outline))

/-- Collect the notes that can be got to. -/
def explore [DecidableEq ν] (post : ν → List ν) : Nat → List ν → List ν → List ν
  | 0, _, seen => seen
  | _ + 1, [], seen => seen
  | fuel + 1, a :: todo, seen =>
    if a ∈ seen then explore post fuel todo seen else explore post fuel (post a ++ todo) (a :: seen)

theorem runs_outline {outline : List ν} (hclosed : Closed post outline) (h0 : ∃ a ∈ outline, γ a [] s)
    (hstep : ∀ a ∈ outline, ∀ es e t t', runs step es s = some t → γ a es t → step e t = some t' →
      ∃ a' ∈ a :: post a, γ a' (es ++ [e]) t')
    {es : List ε} {s' : σ} (h : runs step es s = some s') : ∃ a ∈ outline, γ a es s' := by
  refine runs_history (I := fun es t => ∃ a ∈ outline, γ a es t) h0 ?_ h
  intro es e t t' ht hI he
  obtain ⟨a, ha, hγ⟩ := hI
  obtain ⟨a', ha', hγ'⟩ := hstep a ha es e t t' ht hγ he
  rcases List.mem_cons.mp ha' with rfl | hpost
  · exact ⟨a', ha, hγ'⟩
  · exact ⟨a', hclosed a ha a' hpost, hγ'⟩

end Outline

end Osdev2.Lib
