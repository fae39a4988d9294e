import Osdev2.I386.Delivery

/-!
# Every byte is handled, or none is (`kernel/arch/i386/arch.c`, `kbd.c`)

The controller's line rises once for a byte and falls when the handler has read it. An
ICW1 makes the master forget the rises there have been (`Master.outb_icw1`): a byte that is in
the buffer when `pic_remap` writes its first command keeps the line up, so it never rises again.

`delivery_live`: if the buffer was empty then, a run that nothing can go on but a key has handled
every byte; if it was not, no run handles any. And how long a run can go on is bounded by the
bytes there are (`weight`).
-/

namespace Osdev2.I386

open Osdev2.Lib Osdev2.Libk Osdev2.Kernel

section Progress

variable {D : DriverAddresses} {A : Linked} {L : Layout (i386 D)} {s s' : Computer D} {e : Turn}

/-- An event that brings a byte on its way. -/
def Turn.productive (e : Turn) (s : Computer D) : Bool :=
  match e with
  | .send | .intr => true
  | .cpu => !s.frames.isEmpty
  | _ => false

/-- None can happen. -/
def AtRest (A : Linked) (L : Layout (i386 D)) (s : Computer D) : Prop :=
  ∀ e : Turn, e.productive s → s.step A L e = none

/-- The buffer is empty when the master gets its ICW1. -/
def EmptyAtIcw1 (e : Turn) (s _ : Computer D) : Prop :=
  e = .cpu → s.program.head? = some icw1 → s.out = none

/-- A byte in the buffer has its request, or its handler. -/
def Live (s : Computer D) : Prop :=
  s.out.isSome = true → s.requested = true ∨ s.frames = [.entered]

/-- A byte in the buffer has neither. -/
def Dead (s : Computer D) : Prop :=
  s.out.isSome = true ∧ s.requested = false ∧ s.frames = []

/-! ## The two ways to go on -/

theorem line_irr {m : Master} {k : Fin 8} (hk : k ≠ 1) (up : Bool) :
    (if up then m.raise k else m.lower k).irr 1 = m.irr 1 := by
  have hne : (1 : Fin 8) ≠ k := Ne.symm hk
  cases up with
  | false => exact Function.update_of_ne hne _ _
  | true =>
    simp only [if_true, Master.raise]
    split
    · rfl
    · exact Function.update_of_ne hne _ _

theorem setup_irr (h : Sound A s) {i : Setup} {rest : List Setup} (hp : s.program = i :: rest)
    (hi : i ≠ icw1) :
    ({ s with program := rest }.exec i).master.irr = s.master.irr := by
  have hsuf := h.suffix
  rw [hp] at hsuf
  cases i with
  | outb w => exact (s.master.outb_of_not_command (outb_of_ne_icw1 (hsuf.subset List.mem_cons_self) hi)).1
  | _ => rfl

theorem Live.step (h : Sound A s) (hlive : icw1 ∉ s.program → Live s) (hs : s.step A L e = some s')
    (hempty : EmptyAtIcw1 e s s') : icw1 ∉ s'.program → Live s' := by
  cases moves_of_step hs with
  | key sc => exact hlive
  | send hqueue hout =>
    intro hn _
    left
    have hlow : s.master.lines 1 = false := by rw [h.line, hout]; rfl
    simp only [Computer.requested, Master.raise, hlow, Bool.false_eq_true, if_false, Function.update_self]
  | line hk up =>
    intro hn hout
    rw [Computer.requested, line_irr hk]
    exact hlive hn hout
  | intr hif hk =>
    intro _ _
    right
    rw [(h.intr_step hif hk).2.2.2.1]
  | @setup i rest hf hp =>
    intro hn hsome
    rw [Computer.exec_program] at hn
    rw [Computer.exec_out] at hsome
    by_cases hi : i = icw1
    · have hnone := hempty rfl (by rw [hp, hi, List.head?_cons])
      rw [hnone] at hsome
      cases hsome
    · left
      rw [Computer.requested, setup_irr h hp hi]
      have hnot : icw1 ∉ s.program := by
        rw [hp, List.mem_cons, not_or]
        exact ⟨Ne.symm hi, hn⟩
      refine (hlive hnot hsome).resolve_right fun hentered => ?_
      rw [hf] at hentered
      cases hentered
  | idle => exact hlive
  | main => exact hlive
  | inb hf =>
    intro _ hsome
    cases hsome
  | body hf hm =>
    intro hn hsome
    left
    refine (hlive hn hsome).resolve_right fun hentered => ?_
    rw [hf] at hentered
    cases hentered
  | eoi hf =>
    intro hn hsome
    left
    refine (hlive hn hsome).resolve_right fun hentered => ?_
    rw [hf] at hentered
    cases hentered
  | iret hf =>
    intro hn hsome
    left
    refine (hlive hn hsome).resolve_right fun hentered => ?_
    rw [hf] at hentered
    cases hentered

/-- **Nothing comes of a byte without a request.** -/
theorem Dead.step (h : Sound A s) (hn : icw1 ∉ s.program) (hdead : Dead s) (hs : s.step A L e = some s') :
    icw1 ∉ s'.program ∧ Dead s' ∧ (Computer.ticks e s).filterMap Tick.scancode = [] := by
  obtain ⟨hout, hirr, hframes⟩ := hdead
  have hno : ∀ {f : Stage} {fs : List Stage}, s.frames ≠ f :: fs := fun hf => by
    rw [hframes] at hf
    cases hf
  cases moves_of_step hs with
  | key sc => exact ⟨hn, ⟨hout, hirr, hframes⟩, rfl⟩
  | send hqueue hnone =>
    rw [hnone] at hout
    cases hout
  | line hk up => exact ⟨hn, ⟨hout, (line_irr hk up).trans hirr, hframes⟩, rfl⟩
  | intr hif hk =>
    have hrequest := (h.intr_step hif hk).2.2.1
    rw [Computer.requested, hrequest] at hirr
    cases hirr
  | @setup i rest hf hp =>
    rw [hp, List.mem_cons, not_or] at hn
    unfold Dead Computer.requested
    rw [Computer.exec_program, Computer.exec_out, Computer.exec_frames, setup_irr h hp (Ne.symm hn.1)]
    refine ⟨hn.2, ⟨hout, hirr, hframes⟩, ?_⟩
    simp only [Computer.ticks, hf, hp, List.filterMap_nil]
  | idle hf hp hb =>
    refine ⟨hn, ⟨hout, hirr, hframes⟩, ?_⟩
    simp only [Computer.ticks, hf, hp, hb, if_true, List.filterMap_nil]
  | main hf hp hb hmain =>
    refine ⟨hn, ⟨hout, hirr, hframes⟩, ?_⟩
    simp only [Computer.ticks, hf, hp, if_neg hb]
    rfl
  | inb hf => exact absurd hf hno
  | body hf => exact absurd hf hno
  | eoi hf => exact absurd hf hno
  | iret hf => exact absurd hf hno

theorem icw1_once {rest : List Setup} (h : icw1 :: rest <:+ arch_init A) : icw1 ∉ rest := by
  have hinit : ∃ a b tail, arch_init A = a :: b :: icw1 :: tail ∧ a ≠ icw1 ∧ b ≠ icw1 ∧ icw1 ∉ tail := by
    refine ⟨_, _, _, rfl, Setup.noConfusion, Setup.noConfusion, ?_⟩
    simp [iowait, icw1]
  obtain ⟨a, b, tail, heq, ha, hb, htail⟩ := hinit
  obtain ⟨pre, hpre⟩ := h
  rw [heq] at hpre
  rcases pre with _ | ⟨_, _ | ⟨_, _ | ⟨_, pre⟩⟩⟩
  · exact absurd (List.cons.inj hpre).1.symm ha
  · exact absurd (List.cons.inj (List.cons.inj hpre).2).1.symm hb
  · rw [(List.cons.inj (List.cons.inj (List.cons.inj hpre).2).2).2]
    exact htail
  · have hin : pre ++ icw1 :: rest = tail := (List.cons.inj (List.cons.inj (List.cons.inj hpre).2).2).2
    refine absurd ?_ htail
    rw [← hin]
    exact List.mem_append_right _ List.mem_cons_self

/-- The ICW1 with a byte in the buffer. -/
theorem dead_of_icw1 (h : Sound A s) (hs : s.step A L .cpu = some s') (hp : s.program.head? = some icw1)
    (hout : s.out ≠ none) : icw1 ∉ s'.program ∧ Dead s' := by
  obtain ⟨rest, hrest⟩ : ∃ rest, s.program = icw1 :: rest := List.head?_eq_some_iff.mp hp
  have hne : s.program ≠ [] := by rw [hrest]; exact List.cons_ne_nil _ _
  cases moves_of_step hs with
  | @setup i rest' hf hp' =>
    rw [hp', List.cons.injEq] at hrest
    obtain ⟨rfl, rfl⟩ := hrest
    have hsuf := h.suffix
    rw [hp'] at hsuf
    refine ⟨icw1_once hsuf, Option.isSome_iff_ne_none.mpr hout, ?_, hf⟩
    exact congrFun (s.master.outb_icw1 (b := 0x11) (by decide)).1 1
  | idle hf hp' => exact absurd hp' hne
  | main hf hp' => exact absurd hp' hne
  | inb hf => exact absurd (h.handler hf).2.2 hne
  | body hf => exact absurd (h.handler hf).2.2 hne
  | eoi hf => exact absurd (h.handler hf).2.2 hne
  | iret hf => exact absurd (h.handler hf).2.2 hne

/-! ## The whole run -/

theorem handledBy_append {pre post : List Turn} {t : Computer D}
    (h : runs (Computer.step A L) pre s = some t) :
    handledBy A L (pre ++ post) s = handledBy A L pre s ++ handledBy A L post t := by
  rw [handledBy, ticksOf, emits_append h, List.filterMap_append]
  rfl

theorem handledBy_snoc {pre : List Turn} {t t' : Computer D} (h : runs (Computer.step A L) pre s = some t)
    (he : t.step A L e = some t') :
    handledBy A L (pre ++ [e]) s = handledBy A L pre s ++ (Computer.ticks e t).filterMap Tick.scancode := by
  have hone : handledBy A L [e] t = (Computer.ticks e t).filterMap Tick.scancode := by
    rw [handledBy, ticksOf, emits_cons he, emits_nil, List.append_nil]
  rw [handledBy_append h, hone]

theorem program_done_stays (hs : s.step A L e = some s') (hp : s.program = []) : s'.program = [] := by
  cases moves_of_step hs with
  | @setup i rest hf hp' =>
    rw [hp] at hp'
    cases hp'
  | @intr k hif hk =>
    simp only [Computer.accept]
    split
    · exact hp
    · split <;> exact hp
  | _ => exact hp

theorem Sound.no_handler (h : Sound A s) (hp : s.program ≠ []) : s.frames = [] := by
  cases hf : s.frames with
  | nil => rfl
  | cons f fs => exact absurd (h.handler hf).2.2 hp

theorem setup_ticks (h : Sound A s) (hp : s.program ≠ []) (e : Turn) :
    (Computer.ticks e s).filterMap Tick.scancode = [] := by
  cases e with
  | cpu =>
    cases hprog : s.program with
    | nil => exact absurd hprog hp
    | cons i rest => simp only [Computer.ticks, h.no_handler hp, hprog, List.filterMap_nil]
  | _ => rfl

theorem handledBy_setup {es : List Turn} (hI : Always (Computer.step A L) (Sound A) es s)
    (h : runs (Computer.step A L) es s = some s') (hp : s'.program ≠ []) : handledBy A L es s = [] := by
  refine runs_history
    (I := fun es t => Always (Computer.step A L) (Sound A) es s → t.program ≠ [] → handledBy A L es s = [])
    (fun _ _ => rfl) (fun es e t t' ht ih he hI hp => ?_) h hI hp
  have hprogram : t.program ≠ [] := fun hnil => hp (program_done_stays he hnil)
  have hpre := hI.upTo (List.prefix_append es [e])
  rw [handledBy_snoc ht he, ih hpre hprogram, setup_ticks (hpre.last ht) hprogram]
  rfl

/-- After the setup began with a byte in the buffer, nothing is either. -/
theorem handledBy_dead {es : List Turn} (hI : Always (Computer.step A L) (Sound A) es s)
    (hn : icw1 ∉ s.program) (hdead : Dead s) (h : runs (Computer.step A L) es s = some s') :
    Dead s' ∧ handledBy A L es s = [] := by
  have hrun := runs_history
    (I := fun es t => Always (Computer.step A L) (Sound A) es s →
      icw1 ∉ t.program ∧ Dead t ∧ handledBy A L es s = [])
    (fun _ => ⟨hn, hdead, rfl⟩) (fun es e t t' ht ih he hI => ?_) h hI
  · exact hrun.2
  · have hpre := hI.upTo (List.prefix_append es [e])
    obtain ⟨hn, hdead, hnone⟩ := ih hpre
    obtain ⟨hn', hdead', hticks⟩ := Dead.step (hpre.last ht) hn hdead he
    refine ⟨hn', hdead', ?_⟩
    rw [handledBy_snoc ht he, hnone, hticks]
    rfl

/-- Nothing can happen, and no byte waits for its request. -/
theorem atRest_cases (h : Sound A s) (hp : s.program = []) (hlive : Live s) (hq : AtRest A L s) :
    (∃ sc, s.frames = [.took sc] ∧ keyboard L sc s.booting.machine = none) ∨ s.held = [] := by
  rcases h.frames with ⟨hf, hif⟩ | ⟨f, hf, hlost, -⟩
  · right
    have hw := h.working_of_done hp
    have hconfig := h.configured
    rw [Computer.settled, hp, List.foldl_nil] at hconfig
    have hpic : s.master.pic = _ := hconfig.master
    have hirr : s.master.irr 1 = false := by
      refine Bool.eq_false_iff.mpr fun hirr => ?_
      obtain ⟨k, hk⟩ := Master.request_isSome (k := 1) s.master (by rw [Master.asks, hpic]; exact hirr)
        (by rw [hpic]; decide) (fun j _ => by rw [hw.isr, hf, List.any_nil, Bool.and_false])
      have hnone := hq .intr rfl
      simp only [Computer.step, hif.mpr hp, if_true, hk, Option.map_some] at hnone
      cases hnone
    have hout : s.out = none := by
      refine Option.not_isSome_iff_eq_none.mp fun hsome => ?_
      rcases hlive hsome with hr | hentered
      · rw [Computer.requested, hirr] at hr
        cases hr
      · rw [hf] at hentered
        cases hentered
    have hqueue : s.queue = [] := by
      cases hqueue : s.queue with
      | nil => rfl
      | cons sc queue =>
        have hnone := hq .send rfl
        simp only [Computer.step, hqueue, hout] at hnone
        cases hnone
    rw [Computer.held, hf, hout, hqueue]
    rfl
  · left
    have hnone := hq .cpu (by simp only [Turn.productive, hf]; rfl)
    cases f with
    | took sc =>
      refine ⟨sc, hf, ?_⟩
      simpa [Computer.step, Computer.cpu, hf] using hnone
    | lost => exact absurd rfl hlost
    | entered => simp [Computer.step, Computer.cpu, hf] at hnone
    | handled => simp [Computer.step, Computer.cpu, hf] at hnone
    | returning => simp [Computer.step, Computer.cpu, hf] at hnone

/-! ## How long it takes -/

def Stage.weight : Stage → Nat
  | .took _ => 3
  | .handled => 2
  | .returning => 1
  | .entered | .lost => 0

/-- How many productive events the bytes on the way can still have. -/
def weight (s : Computer D) : Nat :=
  6 * s.queue.length + 4 * s.out.toList.length + s.requested.toNat + (s.frames.map Stage.weight).sum

theorem weight_step (h : Sound A s) (hs : s.step A L e = some s') :
    (if e.productive s then 1 else 0) + weight s' ≤ weight s + 6 * e.typed.length := by
  cases moves_of_step hs with
  | key sc =>
    simp only [weight, Computer.requested, Turn.productive, Turn.typed, List.length_append,
      List.length_singleton]
    simp only [Bool.false_eq_true, if_false]
    omega
  | send hqueue hout =>
    have hle := Bool.toNat_le ((s.master.raise 1).irr 1)
    simp only [weight, Computer.requested, Turn.productive, Turn.typed, hqueue, hout, List.length_cons,
      Option.toList_none, Option.toList_some, List.length_nil, if_true]
    omega
  | line hk up =>
    simp only [weight, Computer.requested, Turn.productive, Turn.typed, line_irr hk, Bool.false_eq_true,
      if_false]
    omega
  | intr hif hk =>
    obtain ⟨-, hf, hirr, haccept, -⟩ := h.intr_step hif hk
    rw [haccept]
    simp only [weight, Computer.requested, Turn.productive, Turn.typed, hf, hirr, Master.acknowledge,
      Function.update_self, List.map_cons, List.map_nil, List.sum_cons, List.sum_nil, Stage.weight,
      Bool.toNat_true, Bool.toNat_false, if_true]
    omega
  | @setup i rest hf hp =>
    have hproductive : Turn.cpu.productive s = false := by rw [Turn.productive, hf]; rfl
    have hqueue : ({ s with program := rest }.exec i).queue = s.queue := by cases i <;> rfl
    have hirr : (({ s with program := rest }.exec i).master.irr 1).toNat ≤ (s.master.irr 1).toNat := by
      by_cases hi : i = icw1
      · have hnone := congrFun (s.master.outb_icw1 (b := 0x11) (by decide)).1 1
        rw [hi, icw1, Computer.exec, hnone]
        exact Nat.zero_le _
      · rw [setup_irr h hp hi]
    simp only [weight, Computer.requested, hproductive, hqueue, Computer.exec_out, Computer.exec_frames,
      Bool.false_eq_true, if_false]
    omega
  | idle hf =>
    have hproductive : Turn.cpu.productive s = false := by rw [Turn.productive, hf]; rfl
    rw [hproductive, if_neg Bool.false_ne_true, Nat.zero_add]
    exact Nat.le_add_right _ _
  | main hf =>
    have hproductive : Turn.cpu.productive s = false := by rw [Turn.productive, hf]; rfl
    rw [hproductive, if_neg Bool.false_ne_true, Nat.zero_add]
    exact Nat.le_add_right _ _
  | inb hf =>
    obtain ⟨rfl, -, hp⟩ := h.handler hf
    obtain ⟨b, hb⟩ := Option.isSome_iff_exists.mp ((h.working_of_done hp).entered hf)
    simp only [weight, Computer.requested, Turn.productive, Computer.inb, Master.lower,
      Function.update_self, hf, hb, List.isEmpty_cons, Bool.not_false, if_true, Option.toList_none,
      Option.toList_some, List.length_cons, List.length_nil, List.map_cons, List.map_nil, List.sum_cons,
      List.sum_nil, Stage.weight, Bool.toNat_false]
    omega
  | body hf =>
    simp only [weight, Computer.requested, Turn.productive, hf, List.isEmpty_cons, Bool.not_false,
      if_true, List.map_cons, List.sum_cons, Stage.weight]
    omega
  | eoi hf =>
    simp only [weight, Computer.requested, Turn.productive, Computer.exec, hf, List.isEmpty_cons,
      Bool.not_false, if_true, List.map_cons, List.sum_cons, Stage.weight]
    have hirr : (s.master.outb (0x20, 0x20)).irr = s.master.irr := rfl
    rw [hirr]
    omega
  | iret hf =>
    simp only [weight, Computer.requested, Turn.productive, hf, List.isEmpty_cons, Bool.not_false,
      if_true, List.map_cons, List.sum_cons, Stage.weight]
    omega

/-- **All or nothing.** In every run there are at most six productive events for each byte, and one
for a request left over. If the keyboard's buffer was empty when the master got its ICW1 and nothing
can go on but by a key, then every byte has been handled, unless a handler does not return; if it
was not empty, no byte ever is. -/
theorem delivery_live {es : List Turn} (hA : Apart A L) (h0 : Start A s)
    (hspare : EveryStep (Computer.step A L) (Spares A) es s) (h : runs (Computer.step A L) es s = some s')
    (hp : s'.program = []) :
    (emits (Computer.step A L) (fun e t => if e.productive t then [e] else []) es s).length ≤
        6 * (s.held ++ es.flatMap Turn.typed).length + 1 ∧
      (EveryStep (Computer.step A L) EmptyAtIcw1 es s → AtRest A L s' →
        (∃ sc, s'.frames = [.took sc] ∧ keyboard L sc s'.booting.machine = none) ∨
          handledBy A L es s = s.held ++ es.flatMap Turn.typed) ∧
      (¬EveryStep (Computer.step A L) EmptyAtIcw1 es s →
        handledBy A L es s = [] ∧ s.held ++ es.flatMap Turn.typed ≠ []) := by
  have hI := always_sound hA h0 hspare
  refine ⟨?_, fun hempty hq => ?_, fun hnot => ?_⟩
  · have hcount := countP_le hI (fun e t t' hI ht => weight_step hI ht) h
    rw [emits_eq_flatMap h] at hcount
    have hle := Bool.toNat_le (s.master.irr 1)
    have hstart : weight s ≤ 6 * s.held.length + 1 := by
      simp only [weight, Computer.requested, Computer.held, h0.frames, List.map_nil, List.sum_nil,
        List.reverse_nil, List.filterMap_nil, List.nil_append, List.length_append]
      omega
    rw [List.length_append]
    omega
  · have hlive : Live s' := by
      have hrun : EveryStep (Computer.step A L) (fun e t t' => Spares A e t t' ∧ EmptyAtIcw1 e t t') es s :=
        fun pre e t t' hpre ht he => ⟨hspare pre e t t' hpre ht he, hempty pre e t t' hpre ht he⟩
      have halways := EveryStep.always (I := fun t => Sound A t ∧ (icw1 ∉ t.program → Live t))
        (fun e t t' hI ht hQ => ⟨hI.1.step hA ht hQ.1, Live.step hI.1 hI.2 ht hQ.2⟩)
        ⟨h0.sound, fun hn => absurd (by rw [h0.program]; simp [arch_init, icw1, pic_init, pic_remap]) hn⟩ hrun
      exact (halways.last h).2 (by rw [hp]; exact List.not_mem_nil)
    refine (atRest_cases (hI.last h) hp hlive hq).imp_right fun hheld => ?_
    rw [held_conserved hI h, hheld, List.append_nil]
  · simp only [EveryStep, EmptyAtIcw1, not_forall] at hnot
    obtain ⟨pre, e, t, t', ⟨post, rfl⟩, ht, he, rfl, hhead, hout⟩ := hnot
    have hprefix : pre <+: pre ++ [Turn.cpu] ++ post :=
      (List.prefix_append pre [.cpu]).trans (List.prefix_append _ _)
    have hIt := (hI.upTo hprefix).last ht
    obtain ⟨hn, hdead⟩ := dead_of_icw1 hIt he hhead hout
    have ht' : runs (Computer.step A L) (pre ++ [.cpu]) s = some t' := runs_snoc.mpr ⟨t, ht, he⟩
    obtain ⟨u, hu, hr⟩ : ∃ u, runs (Computer.step A L) (pre ++ [.cpu]) s = some u ∧
        runs (Computer.step A L) post u = some s' :=
      Option.bind_eq_some_iff.mp ((runs_append _ _ _).symm.trans h)
    obtain rfl : t' = u := Option.some.inj (ht'.symm.trans hu)
    obtain ⟨hdead', hnone⟩ := handledBy_dead (hI.drop ht') hn hdead hr
    have hprogram : t.program ≠ [] := fun hnil => by
      rw [hnil] at hhead
      cases hhead
    have hpre : handledBy A L pre s = [] := handledBy_setup (hI.upTo hprefix) ht hprogram
    have hall : handledBy A L (pre ++ [.cpu] ++ post) s = [] := by
      rw [handledBy_append ht', handledBy_snoc ht he, hpre, setup_ticks hIt hprogram, hnone]
      rfl
    refine ⟨hall, fun hnil => ?_⟩
    have hcons := held_conserved hI h
    rw [hnil, hall, List.nil_append, Computer.held] at hcons
    obtain ⟨b, hb⟩ := Option.isSome_iff_exists.mp hdead'.1
    rw [hb] at hcons
    simp at hcons

end Progress

/-- Shift again, its byte sent before the setup. -/
def shiftEarly : List Turn := [.key 0x2A, .send] ++ List.replicate 22 .cpu

theorem early_spares :
    EveryStep (Computer.step lowLinked lowLayout) (Spares lowLinked) shiftEarly switchedOn := by
  refine spares_of_bytes (P := fun sc => sc = 0x2A#8) low_apart switchedOn_start
    (fun sc m m' hsc hm k _ => ?_) (by decide)
  subst hsc
  cases hm
  rfl

/-- It is never handled, nor anything after it. -/
theorem delivery_early : ∃ s', runs (Computer.step lowLinked lowLayout) shiftEarly switchedOn = some s' ∧
    s'.program = [] ∧ handledBy lowLinked lowLayout shiftEarly switchedOn = [] := by
  have hruns : ∃ s', runs (Computer.step lowLinked lowLayout) shiftEarly switchedOn = some s' ∧
      s'.program = [] :=
    ⟨_, rfl, rfl⟩
  obtain ⟨s', h, hp⟩ := hruns
  have hlive := delivery_live low_apart switchedOn_start early_spares h hp
  refine ⟨s', h, hp, (hlive.2.2 fun hempty => ?_).1⟩
  have hprefix : [Turn.key 0x2A, .send, .cpu, .cpu] ++ [.cpu] <+: shiftEarly := ⟨List.replicate 19 .cpu, rfl⟩
  have hout := hempty _ _ _ _ hprefix rfl rfl rfl rfl
  cases hout

end Osdev2.I386
