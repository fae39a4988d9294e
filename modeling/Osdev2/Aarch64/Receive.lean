import Osdev2.Aarch64.Board

/-!
# Receiving (`uart_getc`, `uart_int` and `interrupt_handler`)

The receive side of `kernel/arch/aarch64/uart.c` and the handler of `arch.c`, step by
step on a `Board`. `uart_int` fetches one byte, hands it to the callback and clears
the interrupt (`uart_int_spec`), so what else the FIFO holds stays there with no
interrupt pending for it (`drains_iff`).
-/

namespace Osdev2.Aarch64

open Osdev2.Lib

def ns_rx : Nat := 0x00

/-! ## The code -/

namespace Code

def read (x : Var) : Code (BitVec 64) := .instr (Op.read x)

def write (x : Var) (v : BitVec 64) : Code Unit := .instr (Op.write x v)

def load (b : Block) (p : BitVec 64) (off : Nat) : Code (BitVec 32) := .instr (Op.load b p off)

def store (b : Block) (p : BitVec 64) (off size : Nat) (v : BitVec 64) : Code Unit :=
  .instr (Op.store b p off size v)

def call (c : Call) : Code Unit := .instr (Op.call c)

def iar : Code (BitVec 64) := .instr Op.iar

def spin : Code Unit := .instr Op.spin

/-- Read the register until it is `ready`, `fuel` times at most. -/
def poll (b : Block) (p : BitVec 64) (off : Nat) (ready : BitVec 32 → Bool) : Nat → Code Unit
  | 0 => spin
  | fuel + 1 => do
    let v ← load b p off
    if ready v then pure () else poll b p off ready fuel

variable (fuel : Nat)

def uart_getc : Code Byte := do
  let ns ← read .uart_ns
  if ns ≠ 0 then do
    poll .ns ns ns_lsr (fun v => v &&& 0x01#32 != 0) fuel
    let rx ← load .ns ns ns_rx
    pure (rx.setWidth 8)
  else do
    let pl ← read .uart_pl
    if pl ≠ 0 then do
      poll .pl pl pl_fr (fun v => v &&& 0x10#32 == 0) fuel
      let dr ← load .pl pl pl_dr
      pure (dr.setWidth 8)
    else pure 0

def uart_int (kcallback : BitVec 64) : Code Unit := do
  let pl ← read .uart_pl
  if pl ≠ 0 then do
    let mis ← load .pl pl pl_mis
    if mis &&& 0x10#32 ≠ 0 then do
      let c ← uart_getc fuel
      call ⟨kcallback, c, 0⟩
      store .pl pl pl_icr 4 0x10
    else pure ()
  else pure ()

/-- The frame is not looked at, and `irq_id` not used. -/
def interrupt_handler : Code Unit := do
  let _irq_id ← iar
  let kcallback ← read .kcallback
  uart_int fuel kcallback

end Code

/-! ## Which instructions the handler uses -/

/-- Not a write of a variable, of `shellbuf` or of `ICC_EOIR1_EL1`. -/
def Op.Handles : Op → Prop
  | .write _ _ | .eoir _ | .clear _ => False
  | _ => True

theorem uses_poll (b : Block) (p : BitVec 64) (off : Nat) (ready : BitVec 32 → Bool) :
    ∀ fuel, (Code.poll b p off ready fuel).Uses Op.Handles
  | 0 => .instr trivial
  | fuel + 1 => by
    unfold Code.poll
    refine .bind (.instr trivial) fun v => .ite (fun _ => .pure _) fun _ => ?_
    exact uses_poll b p off ready fuel

theorem uses_getc (fuel : Nat) : (Code.uart_getc fuel).Uses Op.Handles := by
  unfold Code.uart_getc
  refine .bind (.instr trivial) fun ns => .ite (fun _ => ?_) fun _ => ?_
  · refine .bind (uses_poll _ _ _ _ fuel) fun _ => ?_
    exact .bind (.instr trivial) fun rx => .pure _
  · refine .bind (.instr trivial) fun pl => .ite (fun _ => ?_) fun _ => .pure _
    refine .bind (uses_poll _ _ _ _ fuel) fun _ => ?_
    exact .bind (.instr trivial) fun dr => .pure _

theorem uses_int (fuel : Nat) (f : BitVec 64) : (Code.uart_int fuel f).Uses Op.Handles := by
  unfold Code.uart_int
  refine .bind (.instr trivial) fun pl => .ite (fun _ => ?_) fun _ => .pure _
  refine .bind (.instr trivial) fun mis => .ite (fun _ => ?_) fun _ => .pure _
  refine .bind (uses_getc fuel) fun c => ?_
  exact .bind (.instr trivial) fun _ => .instr trivial

theorem uses_handler (fuel : Nat) : (Code.interrupt_handler fuel).Uses Op.Handles := by
  unfold Code.interrupt_handler
  exact .bind (.instr trivial) fun _ => .bind (.instr trivial) fun f => uses_int fuel f

/-! ## Time -/

section Time

variable (env : Nat → Env)

/-- The bytes that arrive in `n` steps from time `t` on. -/
def arrivals (t n : Nat) : List Byte := (List.range n).flatMap fun i => (env (t + i)).arrived

/-- The receive interrupt is raised in one of them. -/
def raises (t n : Nat) : Bool := (List.range n).any fun i => (env (t + i)).raised

/-- `n` steps have passed that leave the receive side to the environment. -/
structure Passed (n : Nat) (s t : Board) : Prop where
  vars : t.vars = s.vars
  fifo : t.fifo = s.fifo ++ arrivals env s.time n
  pending : t.pending = (s.pending || raises env s.time n)
  imsc : t.imsc = s.imsc
  time : t.time = s.time + n

theorem passed_elapse (s : Board) : Passed env 1 s (s.elapse (env s.time)) where
  vars := rfl
  fifo := by simp [arrivals, Board.elapse]
  pending := by simp [raises, Board.elapse]
  imsc := rfl
  time := rfl

variable {env}

theorem arrivals_add (t n m : Nat) :
    arrivals env t (n + m) = arrivals env t n ++ arrivals env (t + n) m := by
  unfold arrivals
  rw [List.range_add, List.flatMap_append, List.flatMap_map]
  simp only [Nat.add_assoc]

theorem raises_add (t n m : Nat) :
    raises env t (n + m) = (raises env t n || raises env (t + n) m) := by
  unfold raises
  rw [List.range_add, List.any_append, List.any_map]
  simp only [Function.comp_def, Nat.add_assoc]

theorem Passed.trans {n m : Nat} {s t u : Board} (h : Passed env n s t) (h' : Passed env m t u) :
    Passed env (n + m) s u where
  vars := h'.vars.trans h.vars
  fifo := by rw [h'.fifo, h.fifo, h.time, arrivals_add, List.append_assoc]
  pending := by rw [h'.pending, h.pending, h.time, raises_add, Bool.or_assoc]
  imsc := h'.imsc.trans h.imsc
  time := by rw [h'.time, h.time, Nat.add_assoc]

end Time

/-- Bit 4 of `mis`, `n` steps later. -/
def Board.misAfter (env : Nat → Env) (n : Nat) (s : Board) : Bool :=
  (s.pending || raises env s.time n) && s.imsc.getLsbD 4

theorem Passed.mis {env : Nat → Env} {n : Nat} {s t : Board} (h : Passed env n s t) :
    t.mis = s.misAfter env n := by
  rw [Board.mis, Board.misAfter, h.pending, h.imsc]

theorem misAfter_of_mis (env : Nat → Env) {s : Board} (h : s.mis = true) (n : Nat) :
    s.misAfter env n = true := by
  rw [Board.mis, Bool.and_eq_true] at h
  rw [Board.misAfter, h.1, h.2]
  rfl

/-! ## What the code does -/

/-- The program on the board. -/
def Code.on (env : Nat → Env) (p : Code α) : Kernel α := p.run (Op.exec env)

/-- The driver has found a PL011. -/
structure OnPl011 (s : Board) : Prop where
  ns : s.vars .uart_ns = 0
  pl : s.vars .uart_pl ≠ 0

section Specs

variable {env : Nat → Env} {s : Board}

theorem withBit4_and (bits : BitVec 32) (b : Bool) :
    withBit4 bits b &&& 0x10#32 = if b then 0x10#32 else 0#32 := by
  unfold withBit4
  ext i hi
  simp only [BitVec.getElem_and, BitVec.getElem_or, BitVec.getElem_not]
  cases b <;> cases h : (0x10#32)[i] <;> simp [h]

theorem withBit4_eq_zero (bits : BitVec 32) (b : Bool) :
    withBit4 bits b &&& 0x10#32 = 0 ↔ b = false := by
  rw [withBit4_and]
  cases b <;> decide

theorem on_bind (p : Code α) (f : α → Code β) :
    Code.on env (p >>= f) = Code.on env p >>= fun a => Code.on env (f a) :=
  Program.run_bind _ p f

theorem on_pure (a : α) : Code.on env (pure a) s = some (.ok a, s, []) := rfl

theorem on_read (x : Var) :
    Code.on env (Code.read x) s = some (.ok (s.vars x), s.elapse (env s.time), []) := rfl

theorem on_load_fr (env : Nat → Env) (s : Board) (p : BitVec 64) : ∃ bits,
    Code.on env (Code.load .pl p pl_fr) s =
      some (.ok (withBit4 bits (s.elapse (env s.time)).fifo.isEmpty), s.elapse (env s.time), []) :=
  ⟨_, rfl⟩

theorem on_load_mis (env : Nat → Env) (s : Board) (p : BitVec 64) : ∃ bits,
    Code.on env (Code.load .pl p pl_mis) s =
      some (.ok (withBit4 bits (s.elapse (env s.time)).mis), s.elapse (env s.time), []) :=
  ⟨_, rfl⟩

theorem on_load_dr (p : BitVec 64) {c : Byte} {cs : List Byte} (h : s.fifo = c :: cs) :
    Code.on env (Code.load .pl p pl_dr) s =
      some (.ok (c.setWidth 32), { s.elapse (env s.time) with fifo := cs ++ (env s.time).arrived },
        []) := by
  have hfifo : (s.elapse (env s.time)).fifo = c :: (cs ++ (env s.time).arrived) := by
    rw [Board.elapse, h, List.cons_append]
  change some (Except.ok (loadPl pl_dr _ _).1, (loadPl pl_dr _ _).2, []) = _
  rw [loadPl, if_pos rfl, hfifo]

theorem Passed.onPl011 {n : Nat} {t : Board} (h : Passed env n s t) (hs : OnPl011 s) : OnPl011 t :=
  ⟨h.vars ▸ hs.ns, h.vars ▸ hs.pl⟩

/-- The loop ends at the first look that finds a byte. -/
theorem poll_spec (p : BitVec 64) : ∀ (fuel : Nat) (s : Board),
    (∃ n t, n < fuel ∧ Passed env (n + 1) s t ∧ t.fifo ≠ [] ∧
      Code.on env (.poll .pl p pl_fr (fun v => v &&& 0x10#32 == 0) fuel) s = some (.ok (), t, [])) ∨
    (∀ n < fuel, s.fifo ++ arrivals env s.time (n + 1) = []) ∧ ∃ t,
      Code.on env (.poll .pl p pl_fr (fun v => v &&& 0x10#32 == 0) fuel) s = some (.error .mk, t, [])
  | 0, s => .inr ⟨fun n hn => absurd hn (Nat.not_lt_zero n), _, rfl⟩
  | fuel + 1, s => by
    have hpass := passed_elapse env s
    obtain ⟨bits, hload⟩ := on_load_fr env s p
    unfold Code.poll
    rw [on_bind, Traced.bind_quiet hload]
    simp only [beq_iff_eq, withBit4_eq_zero, List.isEmpty_eq_false_iff]
    by_cases hf : (s.elapse (env s.time)).fifo = []
    · simp only [hf, ne_eq, not_true_eq_false, if_false]
      rcases poll_spec p fuel (s.elapse (env s.time)) with ⟨n, t, hn, ht, hne, h⟩ | ⟨hnone, t, h⟩
      · refine .inl ⟨n + 1, t, Nat.succ_lt_succ hn, ?_, hne, h⟩
        rw [Nat.add_comm (n + 1)]
        exact hpass.trans ht
      · refine .inr ⟨fun n hn => ?_, t, h⟩
        rw [Nat.add_comm n, arrivals_add, ← List.append_assoc, ← hpass.fifo, hf, List.nil_append]
        cases n with
        | zero => rfl
        | succ n =>
          have hrest := hnone n (Nat.lt_of_succ_lt_succ hn)
          rw [hf, hpass.time] at hrest
          exact hrest
    · refine .inl ⟨0, _, Nat.succ_pos fuel, hpass, hf, ?_⟩
      simp only [ne_eq, hf, not_false_eq_true, if_true]
      rfl

variable (fuel : Nat)

/-- `uart_getc` waits for a byte and takes it. -/
theorem getc_spec (hs : OnPl011 s) :
    (∃ n k c t, n < fuel ∧ s.fifo ++ arrivals env s.time (n + 3) ≠ [] ∧ t.vars = s.vars ∧
      t.time = s.time + k ∧ s.fifo ++ arrivals env s.time k = c :: t.fifo ∧
      Code.on env (.uart_getc fuel) s = some (.ok c, t, [])) ∨
    (∀ n < fuel, s.fifo ++ arrivals env s.time (n + 3) = []) ∧ ∃ t,
      Code.on env (.uart_getc fuel) s = some (.error .mk, t, []) := by
  have h1 := passed_elapse env s
  have h2 := h1.trans (passed_elapse env _)
  have hs2 := h2.onPl011 hs
  unfold Code.uart_getc
  rw [on_bind, Traced.bind_quiet (on_read _), hs.ns, if_neg (not_not_intro rfl), on_bind,
    Traced.bind_quiet (on_read _), if_pos (h1.onPl011 hs).pl, on_bind]
  generalize (s.elapse (env s.time)).vars .uart_pl = pl
  generalize Board.elapse _ (s.elapse (env s.time)) = u at h2 hs2
  rcases poll_spec pl fuel u with ⟨n, v, hn, hv, hne, hpoll⟩ | ⟨hnone, t, hpoll⟩
  · left
    have h3 := h2.trans hv
    obtain ⟨c, cs, hfifo⟩ := List.exists_cons_of_ne_nil hne
    rw [Traced.bind_quiet hpoll, on_bind, Traced.bind_quiet (on_load_dr pl hfifo)]
    have h4 := h3.trans (passed_elapse env v)
    refine ⟨n, 1 + 1 + (n + 1) + 1, c,
      { v.elapse (env v.time) with fifo := cs ++ (env v.time).arrived }, hn, ?_, h4.vars, h4.time, ?_, ?_⟩
    · rw [show n + 3 = 1 + 1 + (n + 1) by omega, ← h3.fifo]
      exact hne
    · rw [← h4.fifo, Board.elapse, hfifo, List.cons_append]
    · rw [on_pure, BitVec.setWidth_setWidth_of_le _ (by decide), BitVec.setWidth_eq]
  · right
    refine ⟨fun n hn => ?_, t, Traced.bind_error hpoll⟩
    have hnil := hnone n hn
    rw [h2.fifo, h2.time, List.append_assoc, ← arrivals_add] at hnil
    rw [show n + 3 = 1 + 1 + (n + 1) by omega]
    exact hnil

/-- The call of the callback, and the write that clears the interrupt. -/
theorem on_deliver (p : BitVec 64) (k : Call) :
    Code.on env (do Code.call k; Code.store .pl p pl_icr 4 0x10) s =
      some (.ok (), { (s.elapse (env s.time)).elapse (env (s.time + 1)) with pending := false },
        [k]) := by
  have hcall : Code.on env (.call k) s = some (.ok (), s.elapse (env s.time), [k]) := rfl
  rw [on_bind, Traced.bind_ok hcall]
  change some (Except.ok (), storePl pl_icr 0x10#64 _, [k]) = _
  rw [storePl, if_neg (by decide), if_pos rfl, show (0x10#64).getLsbD 4 = true from rfl, Bool.not_true,
    Bool.and_false]
  rfl

theorem uart_int_null {fuel : Nat} (h : s.vars .uart_pl = 0) (f : BitVec 64) :
    Code.on env (.uart_int fuel f) s = some (.ok (), s.elapse (env s.time), []) := by
  unfold Code.uart_int
  rw [on_bind, Traced.bind_quiet (on_read _), h, if_neg (not_not_intro rfl), on_pure]

theorem uart_int_idle {fuel : Nat} (h : s.vars .uart_pl ≠ 0) (hm : s.misAfter env 2 = false) (f : BitVec 64) :
    ∃ t, Passed env 2 s t ∧ Code.on env (.uart_int fuel f) s = some (.ok (), t, []) := by
  have h1 := passed_elapse env s
  have h2 := h1.trans (passed_elapse env _)
  obtain ⟨bits, hmis⟩ := on_load_mis env (s.elapse (env s.time)) (s.vars .uart_pl)
  refine ⟨_, h2, ?_⟩
  unfold Code.uart_int
  rw [on_bind, Traced.bind_quiet (on_read _), if_pos h, on_bind, Traced.bind_quiet hmis,
    if_neg (not_not_intro ((withBit4_eq_zero _ _).mpr (h2.mis.trans hm))), on_pure]

theorem uart_int_spec (hs : OnPl011 s) (hm : s.misAfter env 2 = true) (f : BitVec 64) :
    (∃ n k c t, n < fuel ∧ s.fifo ++ arrivals env s.time (n + 5) ≠ [] ∧ t.vars = s.vars ∧
      t.pending = false ∧ s.fifo ++ arrivals env s.time k = c :: t.fifo ∧
      Code.on env (.uart_int fuel f) s = some (.ok (), t, [⟨f, c, 0⟩])) ∨
    (∀ n < fuel, s.fifo ++ arrivals env s.time (n + 5) = []) ∧ ∃ t,
      Code.on env (.uart_int fuel f) s = some (.error .mk, t, []) := by
  have h1 := passed_elapse env s
  have h2 := h1.trans (passed_elapse env _)
  obtain ⟨bits, hmis⟩ := on_load_mis env (s.elapse (env s.time)) (s.vars .uart_pl)
  have hset : withBit4 bits (Board.elapse _ (s.elapse (env s.time))).mis &&& 0x10#32 ≠ 0 := fun h0 => by
    rw [withBit4_eq_zero, h2.mis, hm] at h0
    cases h0
  unfold Code.uart_int
  rw [on_bind, Traced.bind_quiet (on_read _), if_pos hs.pl, on_bind, Traced.bind_quiet hmis,
    if_pos hset, on_bind]
  have hafter : ∀ k, s.fifo ++ arrivals env s.time (2 + k) =
      (Board.elapse _ (s.elapse (env s.time))).fifo ++
        arrivals env (Board.elapse _ (s.elapse (env s.time))).time k := fun k => by
    rw [h2.fifo, h2.time, List.append_assoc, ← arrivals_add]
  rcases getc_spec fuel (h2.onPl011 hs) with
    ⟨n, k, c, t, hn, hne, hvars, htime, hfifo, hget⟩ | ⟨hnone, t, hget⟩
  · left
    rw [Traced.bind_quiet hget, on_deliver]
    have h4 := (passed_elapse env t).trans (passed_elapse env _)
    refine ⟨n, 2 + (k + 2), c,
      { (t.elapse (env t.time)).elapse (env (t.time + 1)) with pending := false }, hn, ?_,
      h4.vars.trans (hvars.trans h2.vars), rfl, ?_, rfl⟩
    · rw [show n + 5 = 2 + (n + 3) by omega, hafter]
      exact hne
    · rw [hafter, arrivals_add, ← List.append_assoc, hfifo, ← htime, List.cons_append]
      exact congrArg _ h4.fifo.symm
  · right
    refine ⟨fun n hn => ?_, t, Traced.bind_error hget⟩
    rw [show n + 5 = 2 + (n + 3) by omega, hafter]
    exact hnone n hn

end Specs

section Handler

variable {env : Nat → Env} {s : Board}

theorem handler_eq (env : Nat → Env) (s : Board) : ∃ u, Passed env 2 s u ∧ ∀ fuel,
    Code.on env (.interrupt_handler fuel) s =
      Code.on env (.uart_int fuel (s.vars .kcallback)) u := by
  have hiar : Code.on env .iar s = some (.ok ((s.elapse (env s.time)).gic.acknowledge.1.setWidth 64),
      { s.elapse (env s.time) with gic := (s.elapse (env s.time)).gic.acknowledge.2 }, []) := rfl
  have h1 : Passed env 1 s
      { s.elapse (env s.time) with gic := (s.elapse (env s.time)).gic.acknowledge.2 } :=
    ⟨rfl, (passed_elapse env s).fifo, (passed_elapse env s).pending, rfl, rfl⟩
  refine ⟨_, h1.trans (passed_elapse env _), fun fuel => ?_⟩
  unfold Code.interrupt_handler
  rw [on_bind, Traced.bind_quiet hiar, on_bind, Traced.bind_quiet (on_read _)]
  rfl

theorem Passed.misAfter {n : Nat} {t : Board} (h : Passed env n s t) (m : Nat) :
    t.misAfter env m = s.misAfter env (n + m) := by
  rw [Board.misAfter, Board.misAfter, h.pending, h.imsc, h.time, raises_add, Bool.or_assoc]

theorem handler_spec (fuel : Nat) (hs : OnPl011 s) (hm : s.misAfter env 4 = true) :
    (∃ n c t, n < fuel ∧ s.fifo ++ arrivals env s.time (n + 7) ≠ [] ∧ t.vars = s.vars ∧
      Code.on env (.interrupt_handler fuel) s = some (.ok (), t, [⟨s.vars .kcallback, c, 0⟩])) ∨
    (∀ n < fuel, s.fifo ++ arrivals env s.time (n + 7) = []) ∧ ∃ t,
      Code.on env (.interrupt_handler fuel) s = some (.error .mk, t, []) := by
  obtain ⟨u, hu, hrun⟩ := handler_eq env s
  have hafter : ∀ n, s.fifo ++ arrivals env s.time (n + 7) = u.fifo ++ arrivals env u.time (n + 5) :=
    fun n => by
      rw [hu.fifo, hu.time, List.append_assoc, ← arrivals_add, show n + 7 = 2 + (n + 5) by omega]
  have hmu : u.misAfter env 2 = true := (hu.misAfter 2).trans hm
  rw [hrun]
  rcases uart_int_spec fuel (hu.onPl011 hs) hmu (s.vars .kcallback) with
    ⟨n, -, c, t, hn, hne, hvars, -, -, h⟩ | ⟨hnone, h⟩
  · exact .inl ⟨n, c, t, hn, (hafter n).symm ▸ hne, hvars.trans hu.vars, h⟩
  · exact .inr ⟨fun n hn => (hafter n).trans (hnone n hn), h⟩

theorem handler_idle (fuel : Nat) (h : s.vars .uart_pl = 0 ∨ s.misAfter env 4 = false) :
    ∃ t, t.vars = s.vars ∧ Code.on env (.interrupt_handler fuel) s = some (.ok (), t, []) := by
  obtain ⟨u, hu, hrun⟩ := handler_eq env s
  rw [hrun]
  by_cases hpl : s.vars .uart_pl = 0
  · have hnull : u.vars .uart_pl = 0 := (congrFun hu.vars _).trans hpl
    exact ⟨u.elapse (env u.time), hu.vars, uart_int_null hnull _⟩
  · have hmu : u.misAfter env 2 = false := (hu.misAfter 2).trans (h.resolve_left hpl)
    obtain ⟨t, ht, h⟩ := uart_int_idle (hu.vars ▸ hpl) hmu (s.vars .kcallback)
    exact ⟨t, ht.vars.trans hu.vars, h⟩

end Handler

/-! ## No lost input -/

/-- When `uart_int` returns with the interrupt cleared, its calls of `f` have handed over what was
in the FIFO, in order and each byte once, and after it only what has come since. -/
def Drains (env : Nat → Env) (f : BitVec 64) (s : Board) : Prop :=
  ∀ fuel t calls, Code.on env (.uart_int fuel f) s = some (.ok (), t, calls) → t.pending = false →
    ∃ later, calls = (s.fifo ++ later).map fun c => ⟨f, c, 0⟩

section Drains

variable {env : Nat → Env} {s : Board} {f : BitVec 64}

theorem Drains.length_le (h : Drains env f s) (hs : OnPl011 s) (hm : s.mis = true) :
    s.fifo.length ≤ 1 := by
  -- one look at `fr` is enough
  rcases uart_int_spec 1 hs (misAfter_of_mis env hm 2) f with
    ⟨n, k, c, t, -, -, -, hclear, -, hrun⟩ | ⟨hnone, -⟩
  · obtain ⟨later, hcalls⟩ := h 1 t _ hrun hclear
    have hcount := congrArg List.length hcalls
    rw [List.length_singleton, List.length_map, List.length_append] at hcount
    omega
  · rw [(List.append_eq_nil_iff.mp (hnone 0 Nat.zero_lt_one)).1]
    exact Nat.zero_le 1

/-- **The receive interrupt.** It is handled without loss exactly if the FIFO holds one byte at
most: of more than one, all but the first are left there with the interrupt cleared. -/
theorem drains_iff (hs : OnPl011 s) (hm : s.mis = true) :
    Drains env f s ↔ s.fifo.length ≤ 1 := by
  refine ⟨fun h => h.length_le hs hm, fun hlen fuel t calls hrun _ => ?_⟩
  rcases uart_int_spec fuel hs (misAfter_of_mis env hm 2) f with
    ⟨n, k, c, t', -, -, -, -, hfifo, hrun'⟩ | ⟨-, t', hrun'⟩
  · cases hrun.symm.trans hrun'
    cases hcs : s.fifo with
    | nil => exact ⟨[c], rfl⟩
    | cons b bs =>
      rw [hcs, List.length_cons] at hlen
      obtain rfl : bs = [] := List.length_eq_zero_iff.mp (by omega)
      rw [hcs] at hfifo
      obtain ⟨rfl, -⟩ := List.cons_eq_cons.mp hfifo
      exact ⟨[], rfl⟩
  · cases hrun.symm.trans hrun'

end Drains

/-- A PL011 with its receive interrupt on and pending. -/
def receiving (fifo : List Byte) : Board where
  vars := Function.update (fun _ => 0) .uart_pl 0x9000000
  fifo := fifo
  pending := true
  imsc := 0x10
  gic := ⟨fun _ => 0, [], []⟩
  time := 0

theorem receiving_onPl011 (fifo : List Byte) : OnPl011 (receiving fifo) :=
  ⟨rfl, show (0x9000000 : BitVec 64) ≠ 0 by decide⟩

/-- Nothing happens. -/
def still : Env := ⟨[], false, [], 0⟩

theorem drains_iff_one : Drains (fun _ => still) 0x1000 (receiving [0x61]) :=
  (drains_iff (receiving_onPl011 _) rfl).mpr (Nat.le_refl 1)

/-- Of two bytes one stays. -/
theorem drains_not : ¬∀ env f s, OnPl011 s → s.mis = true → Drains env f s := fun H =>
  absurd ((H (fun _ => still) 0x1000 (receiving [0x61, 0x62]) (receiving_onPl011 _) rfl).length_le
    (receiving_onPl011 _) rfl) (by decide)

end Osdev2.Aarch64
