import Osdev2.Aarch64.Interrupt
import Osdev2.Aarch64.Receive
import Osdev2.Lib.Run

/-!
# Interrupts taken through `interrupt_entry`

`interrupt_handler` reads `ICC_IAR1_EL1`, which makes the interrupt active, and no
code of the kernel writes `ICC_EOIR1_EL1`. `completes_iff`: a run leaves no interrupt
active after an `eret` exactly if it takes none; and one that is active stays so, and
bars every interrupt that is no more urgent (`barred_of_run`).
-/

namespace Osdev2.Aarch64

open Osdev2.Lib

/-! ## The controller -/

namespace Gic

variable {g : Gic} {i j : Intid}

theorem accepts_of_highest (h : g.highest = some i) : g.Accepts i := by
  have hmem := List.argmin_mem h
  exact of_decide_eq_true (List.mem_filter.mp hmem).2

theorem highest_ne_none (hi : i ∈ g.pending) (h : g.Accepts i) : g.highest ≠ none := by
  intro hnone
  rw [highest, List.argmin_eq_none] at hnone
  exact List.ne_nil_of_mem (List.mem_filter.mpr ⟨hi, decide_eq_true h⟩) hnone

theorem acknowledge_active (h : g.highest ≠ none) : ∃ i, g.acknowledge.2.active = i :: g.active := by
  obtain ⟨i, hi⟩ := Option.ne_none_iff_exists'.mp h
  exact ⟨i, by rw [acknowledge, hi]⟩

/-- What is signalled meanwhile does not call an interrupt off. -/
theorem highest_signal (h : g.highest ≠ none) (is : List Intid) : (g.signal is).highest ≠ none := by
  intro hnone
  unfold highest signal at hnone
  rw [List.argmin_eq_none, List.filter_append, List.append_eq_nil_iff] at hnone
  apply h
  unfold highest
  rw [List.argmin_eq_none]
  exact hnone.1

theorem barred (hi : i ∈ g.active) (h : g.highest = some j) : g.priority j < g.priority i :=
  accepts_of_highest h i hi

end Gic

/-! ## The handler -/

/-- Active interrupts stay, and no priority changes. -/
structure Holds (g g' : Gic) : Prop where
  priority : g'.priority = g.priority
  active : g.active <:+ g'.active

theorem Holds.refl (g : Gic) : Holds g g := ⟨rfl, List.suffix_refl _⟩

theorem Holds.trans {g g' g'' : Gic} (h : Holds g g') (h' : Holds g' g'') : Holds g g'' :=
  ⟨h'.priority.trans h.priority, h.active.trans h'.active⟩

theorem holds_acknowledge (g : Gic) : Holds g g.acknowledge.2 := by
  unfold Gic.acknowledge
  split
  · exact ⟨rfl, List.suffix_cons _ _⟩
  · exact Holds.refl g

/-- Not a write of `ICC_EOIR1_EL1`. -/
def Op.Continues (op : Op) : Prop := ∀ i, op ≠ .eoir i

theorem loadPl_gic (off : Nat) (bits : BitVec 32) (s : Board) : (loadPl off bits s).2.gic = s.gic := by
  unfold loadPl
  repeat' split
  all_goals rfl

theorem storePl_gic (off : Nat) (v : BitVec 64) (s : Board) : (storePl off v s).gic = s.gic := by
  unfold storePl
  repeat' split
  all_goals rfl

theorem holds_effect {op : Op} (h : op.Continues) (bits : BitVec 32) :
    Keeps (fun s s' _ => Holds s.gic s'.gic) (op.effect bits) := by
  intro s r s' ops hs
  cases op with
  | eoir i => exact absurd rfl (h i)
  | iar => cases hs; exact holds_acknowledge s.gic
  | load b p off =>
    cases b with
    | pl => cases hs; rw [loadPl_gic]; exact Holds.refl _
    | ns | fallback => cases hs; exact Holds.refl _
  | store b p off size v =>
    cases b with
    | pl => cases hs; rw [storePl_gic]; exact Holds.refl _
    | ns | fallback => cases hs; exact Holds.refl _
  | read | write | call | clear | spin => cases hs; exact Holds.refl _

theorem holds_exec (env : Nat → Env) {op : Op} (h : op.Continues) :
    Keeps (fun s s' _ => Holds s.gic s'.gic) (op.exec env) := by
  intro s _ _ _ hs
  have helapse : Holds s.gic (s.elapse (env s.time)).gic := ⟨rfl, List.suffix_refl _⟩
  exact helapse.trans (holds_effect h _ _ _ _ _ hs)

theorem Op.Handles.continues {op : Op} (h : op.Handles) : op.Continues := by
  rintro i rfl
  exact h

theorem holds_on (env : Nat → Env) {p : Code α} (hp : p.Uses Op.Handles) :
    Keeps (fun s s' _ => Holds s.gic s'.gic) (p.on env) :=
  Program.keeps_run (fun s => Holds.refl s.gic) (fun _ _ _ _ _ h h' => h.trans h') hp
    fun _ h => holds_exec env h.continues

theorem handler_active {env : Nat → Env} {fuel : Nat} {s t : Board} {r : Except Polling Unit}
    {calls : List Call} (hirq : s.gic.highest ≠ none)
    (h : (Code.interrupt_handler fuel).on env s = some (r, t, calls)) : t.gic.active ≠ [] := by
  unfold Code.interrupt_handler at h
  have hiar : Code.on env .iar s = some (.ok ((s.elapse (env s.time)).gic.acknowledge.1.setWidth 64),
      { s.elapse (env s.time) with gic := (s.elapse (env s.time)).gic.acknowledge.2 }, []) := rfl
  rw [on_bind, Traced.bind_quiet hiar] at h
  obtain ⟨i, hi⟩ := Gic.acknowledge_active (Gic.highest_signal hirq (env s.time).signalled)
  have hrest : Program.Uses Op.Handles
      (do let kcallback ← Code.read .kcallback; Code.uart_int fuel kcallback) :=
    .bind (.instr trivial) fun f => uses_int fuel f
  have hkeep := holds_on env hrest _ _ _ _ h
  intro hnil
  have hsuffix := hkeep.active
  rw [hnil, List.suffix_nil] at hsuffix
  exact List.cons_ne_nil i _ (hi.symm.trans hsuffix)

/-! ## `interrupt_entry` -/

section Entry

variable (env : Nat → Env) (fuel : Nat) (call : Cpu → Cpu) (link : BitVec 64)

/-- What the handler makes of the board, if it returns. -/
def handled (s : Board) : Option Board :=
  match (Code.interrupt_handler fuel).on env s with
  | some (.ok (), t, _) => some t
  | _ => none

/-- An instruction of `interrupt_entry`: the `bl` runs the handler on the board too. -/
def Ins.take (i : Ins) (s : Cpu × Board) : Option (Cpu × Board) :=
  match i with
  | .bl => (handled env fuel s.2).map fun t => (i.exec call link s.1, t)
  | _ => some (i.exec call link s.1, s.2)

def take (s : Cpu × Board) : Option (Cpu × Board) := runs (Ins.take env fuel call link) interrupt_entry s

/-- What happens on the CPU. -/
inductive Event where
  /-- A step of the code that is interrupted. -/
  | main (op : Op)
  | irq

/-- An interrupt is taken if the controller signals one. -/
def Event.step (e : Event) (s : Cpu × Board) : Option (Cpu × Board) :=
  match e with
  | .main op =>
    match op.exec env s.2 with
    | some (.ok _, t, _) => some (s.1, t)
    | _ => none
  | .irq => if s.2.gic.highest = none then none else take env fuel call link s

end Entry

section Run

variable {env : Nat → Env} {fuel : Nat} {call : Cpu → Cpu} {link : BitVec 64}

theorem runs_noCall {is : List Ins} (h : .bl ∉ is) (s : Cpu × Board) :
    runs (Ins.take env fuel call link) is s = some (execs call link is s.1, s.2) := by
  induction is generalizing s with
  | nil => rfl
  | cons i is ih =>
    rw [List.mem_cons, not_or] at h
    have hi : Ins.take env fuel call link i s = some (i.exec call link s.1, s.2) := by
      cases i with
      | bl => exact absurd rfl h.1
      | subSp | addSp | stp | ldp | mrs | movSp | eret => rfl
    rw [runs_cons, hi]
    exact ih h.2 _

theorem take_eq (s : Cpu × Board) :
    take env fuel call link s = (handled env fuel s.2).map fun t => (irq call link s.1, t) := by
  have hentry : interrupt_entry = save ++ ([.movSp (.x 0)] ++ ([.bl] ++ (restore ++ [.eret]))) := by
    simp only [interrupt_entry, List.append_assoc, List.cons_append, List.nil_append]
  have hsave : Ins.bl ∉ save := by simp [save]
  have hrestore : Ins.bl ∉ restore ++ [.eret] := by simp [restore]
  unfold take irq
  rw [hentry, runs_append, runs_noCall hsave, Option.bind_some, runs_append,
    runs_noCall (by simp), Option.bind_some, runs_append, execs_append, execs_append, execs_append]
  cases hh : handled env fuel s.2 with
  | none => rw [runs_cons, Ins.take, hh]; rfl
  | some t =>
    rw [runs_cons, Ins.take, hh, Option.map_some, Option.bind_some, runs_nil, Option.bind_some,
      runs_noCall hrestore]
    rfl

variable {e : Event} {es : List Event} {s s' : Cpu × Board}

theorem handled_eq {s t : Board} (h : handled env fuel s = some t) :
    ∃ calls, (Code.interrupt_handler fuel).on env s = some (.ok (), t, calls) := by
  unfold handled at h
  split at h
  · rename_i calls hrun
    cases h
    exact ⟨calls, hrun⟩
  · cases h

theorem irq_eq_some (h : Event.step env fuel call link .irq s = some s') :
    s.2.gic.highest ≠ none ∧ s'.1 = irq call link s.1 ∧ ∃ calls,
      (Code.interrupt_handler fuel).on env s.2 = some (.ok (), s'.2, calls) := by
  unfold Event.step at h
  simp only at h
  split at h
  · cases h
  · rename_i hirq
    rw [take_eq] at h
    obtain ⟨t, ht, rfl⟩ := Option.map_eq_some_iff.mp h
    exact ⟨hirq, rfl, handled_eq ht⟩

/-- After the `eret` the interrupt is still active. -/
theorem irq_active (h : Event.step env fuel call link .irq s = some s') : s'.2.gic.active ≠ [] := by
  obtain ⟨hirq, -, calls, hrun⟩ := irq_eq_some h
  exact handler_active hirq hrun

/-- A step of the kernel. -/
def Event.Ours : Event → Prop
  | .main op => op.Continues
  | .irq => True

theorem holds_step (he : e.Ours) (h : e.step env fuel call link s = some s') :
    Holds s.2.gic s'.2.gic := by
  cases e with
  | main op =>
    unfold Event.step at h
    simp only at h
    split at h
    · rename_i t calls hop
      cases h
      exact holds_exec env he _ _ _ _ hop
    · cases h
  | irq =>
    obtain ⟨-, -, calls, hrun⟩ := irq_eq_some h
    exact holds_on env (uses_handler fuel) _ _ _ _ hrun

theorem holds_run (hes : ∀ e ∈ es, e.Ours) (h : runs (Event.step env fuel call link) es s = some s') :
    Holds s.2.gic s'.2.gic := by
  induction es generalizing s with
  | nil => cases h; exact Holds.refl _
  | cons e es ih =>
    obtain ⟨t, ht, h⟩ := Option.bind_eq_some_iff.mp h
    have hstep := holds_step (hes e List.mem_cons_self) ht
    exact hstep.trans (ih (fun e he => hes e (List.mem_cons_of_mem _ he)) h)

/-- From the first interrupt on, one that is no more urgent never reaches the CPU. -/
theorem barred_of_run (hes : ∀ e ∈ es, e.Ours)
    (h : runs (Event.step env fuel call link) es s = some s') {i j : Intid}
    (hi : i ∈ s.2.gic.active) (hj : s'.2.gic.highest = some j) :
    s.2.gic.priority j < s.2.gic.priority i := by
  have hrun := holds_run hes h
  have hlt := Gic.barred (hrun.active.subset hi) hj
  rwa [hrun.priority] at hlt

variable (env fuel call link)

/-- No interrupt of the run is still active after its `eret`. -/
def Completes (es : List Event) (s : Cpu × Board) : Prop :=
  EveryStep (Event.step env fuel call link) (fun e _ s' => e = .irq → s'.2.gic.active = []) es s

/-- The run takes no interrupt. -/
def Untaken (es : List Event) (s : Cpu × Board) : Prop :=
  EveryStep (Event.step env fuel call link) (fun e _ _ => e ≠ .irq) es s

/-- **No interrupt is completed.** -/
theorem completes_iff (es : List Event) (s : Cpu × Board) :
    Completes env fuel call link es s ↔ Untaken env fuel call link es s := by
  apply everyStep_iff
  intro e s s' h
  constructor
  · rintro hdone rfl
    exact irq_active h (hdone rfl)
  · intro hne he
    exact absurd he hne

end Run

/-- A byte has come, and the UART's interrupt with it. -/
def signalled : Cpu × Board :=
  (⟨fun _ => 0, 0x4000, fun _ => 0, fun _ => 0⟩,
    { receiving [0x61] with gic := ⟨fun _ => 0, [33], []⟩ })

theorem signalled_highest : signalled.2.gic.highest ≠ none :=
  Gic.highest_ne_none (List.mem_singleton.mpr rfl) fun _ h => absurd h List.not_mem_nil

/-- The first interrupt is left active. -/
theorem completes_not :
    ¬∀ env fuel call link es s, s.2.gic.active = [] → Completes env fuel call link es s := fun H => by
  have hs : OnPl011 signalled.2 := ⟨(receiving_onPl011 [0x61]).ns, (receiving_onPl011 [0x61]).pl⟩
  rcases handler_spec 1 hs (misAfter_of_mis (fun _ => still) rfl 4) with
    ⟨n, c, t, -, -, -, hrun⟩ | ⟨hnone, -⟩
  · have hstep : Event.step (fun _ => still) 1 id 0 .irq signalled =
        some (irq id 0 signalled.1, t) := by
      rw [Event.step, if_neg signalled_highest, take_eq, handled, hrun, Option.map_some]
    have hdone := H (fun _ => still) 1 id 0 [.irq] signalled rfl [] .irq _ _ (List.prefix_refl _)
      (runs_nil _) hstep
    exact irq_active hstep (hdone rfl)
  · exact absurd (List.append_eq_nil_iff.mp (hnone 0 Nat.zero_lt_one)).1 (List.cons_ne_nil _ _)

end Osdev2.Aarch64
