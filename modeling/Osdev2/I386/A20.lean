import Osdev2.Lib.Memory
import Osdev2.Lib.Emits
import Osdev2.Lib.Outline

/-!
# Opening the A20 gate (`kernel/arch/i386/bootstrap.asm`)

The boot sector asks the keyboard controller for its output port, sets bit 1 of the answer and
writes it back. `step` runs that code one instruction at a time; between any two of them the
controller may take what was written to it, put its answer into the output buffer, or put a
byte of the keyboard there.

The code takes whatever is in the output buffer for the answer. `a20_opened`: what a
key left there before the keyboard was turned off is what the output port gets.
-/

namespace Osdev2.I386.A20

open Osdev2.Lib

/-! ## The controller -/

/-- Ports 0x60 and 0x64. -/
inductive Port where
  | data
  | command
  deriving DecidableEq

structure Controller where
  /-- Written, and not yet taken. -/
  input : Option (Port × Byte)
  output : Option Byte
  /-- The output port: bit 0 low resets the processor, bit 1 is A20. -/
  outport : Byte
  /-- The keyboard may send. -/
  clock : Bool
  /-- The next byte at the data port is for the output port. -/
  expects : Bool
  /-- The output port has been asked for. -/
  answer : Bool
  deriving DecidableEq

namespace Controller

variable (k : Controller)

/-- The status register; `noise` has the bits that the code does not look at. -/
def status (noise : Byte) : Byte :=
  (noise &&& 0xFC#8) ||| (if k.output.isSome then 1#8 else 0#8) ||| (if k.input.isSome then 2#8 else 0#8)

def command (b : Byte) : Controller :=
  { k with
    input := none
    clock := if b = 0xAD#8 then false else if b = 0xAE#8 then true else k.clock
    expects := b = 0xD1#8
    answer := k.answer || b = 0xD0#8 }

/-- Take what was written. Data it does not expect goes to the keyboard. -/
def take : Option Controller :=
  match k.input with
  | none => none
  | some (.command, b) => some (k.command b)
  | some (.data, b) =>
    some { k with input := none, outport := if k.expects then b else k.outport, expects := false }

/-- The answer goes into the output buffer; whether the controller waits for that to be empty is
left open. -/
def give : Option Controller :=
  if k.answer then some { k with output := some k.outport, answer := false } else none

/-- A byte of the keyboard. -/
def key (sc : Byte) : Option Controller :=
  if k.clock ∧ k.output = none then some { k with output := some sc } else none

end Controller

/-! ## The code -/

inductive Ins where
  | movAl (b : Byte)
  | orAl (b : Byte)
  | testAl (b : Byte)
  | inAl (p : Port)
  | outAl (p : Port)
  | pushEax
  | popEax
  | call (l : Nat)
  | ret
  | jnz (l : Nat)
  | jz (l : Nat)
  | jmp (l : Nat)
  deriving DecidableEq

def a20wait : Nat := 20
def a20wait2 : Nat := 24
def done : Nat := 28

def code : List Ins :=
  [.call a20wait, .movAl 0xAD, .outAl .command,
    .call a20wait, .movAl 0xD0, .outAl .command,
    .call a20wait2, .inAl .data, .pushEax,
    .call a20wait, .movAl 0xD1, .outAl .command,
    .call a20wait, .popEax, .orAl 2, .outAl .data,
    .call a20wait, .movAl 0xAE, .outAl .command, .jmp done,
    -- a20wait
    .inAl .command, .testAl 2, .jnz a20wait, .ret,
    -- a20wait2
    .inAl .command, .testAl 1, .jz a20wait2, .ret]

/-- What is on the stack: return addresses, and `eax`. -/
inductive Entry (α : Type) where
  | link (pc : Nat)
  | word (v : α)
  deriving DecidableEq

structure State where
  pc : Nat
  eax : BitVec 32
  zf : Bool
  stack : List (Entry (BitVec 32))
  kbc : Controller

def al (eax : BitVec 32) : Byte := eax.setWidth 8

def setAl (eax : BitVec 32) (b : Byte) : BitVec 32 := (eax &&& 0xFFFFFF00#32) ||| b.setWidth 32

@[simp] theorem al_setAl (eax : BitVec 32) (b : Byte) : al (setAl eax b) = b := by
  simp [al, setAl]

/-- One instruction. -/
def Ins.exec (noise : Byte) (s : State) : Ins → Option State
  | .movAl b => some { s with pc := s.pc + 1, eax := setAl s.eax b }
  | .orAl b => some { s with pc := s.pc + 1, eax := setAl s.eax (al s.eax ||| b) }
  | .testAl b => some { s with pc := s.pc + 1, zf := al s.eax &&& b == 0#8 }
  | .inAl .command => some { s with pc := s.pc + 1, eax := setAl s.eax (s.kbc.status noise) }
  | .inAl .data =>
    some { s with
      pc := s.pc + 1
      eax := setAl s.eax (s.kbc.output.getD noise)
      kbc := { s.kbc with output := none } }
  | .outAl p => some { s with pc := s.pc + 1, kbc := { s.kbc with input := some (p, al s.eax) } }
  | .pushEax => some { s with pc := s.pc + 1, stack := .word s.eax :: s.stack }
  | .popEax =>
    match s.stack with
    | .word v :: rest => some { s with pc := s.pc + 1, eax := v, stack := rest }
    | _ => none
  | .call l => some { s with pc := l, stack := .link (s.pc + 1) :: s.stack }
  | .ret =>
    match s.stack with
    | .link l :: rest => some { s with pc := l, stack := rest }
    | _ => none
  | .jnz l => some { s with pc := if s.zf then s.pc + 1 else l }
  | .jz l => some { s with pc := if s.zf then l else s.pc + 1 }
  | .jmp l => some { s with pc := l }

inductive Event where
  | cpu (noise : Byte)
  | take
  | give
  | key (sc : Byte)

def State.with (s : State) (k : Controller) : State := { s with kbc := k }

/-- The processor only runs while bit 0 of the output port is high. -/
def step : Event → State → Option State
  | .cpu noise, s => if s.kbc.outport.getLsbD 0 then code[s.pc]?.bind (Ins.exec noise s) else none
  | .take, s => s.kbc.take.map s.with
  | .give, s => s.kbc.give.map s.with
  | .key sc, s => (s.kbc.key sc).map s.with

/-! ## The outline -/

/-- What is known of `al`: the status register, the byte taken for the answer, or that with bit 1. -/
inductive Sym where
  | any
  | const (b : Byte)
  | status
  | got
  | opened
  deriving DecidableEq

/-- What ZF says: set, that the input buffer is empty; clear, that the output buffer is full. -/
inductive Flag where
  | any
  | empty
  | full
  deriving DecidableEq

structure Note where
  pc : Nat
  al : Sym
  zf : Flag
  stack : List (Entry Sym)
  /-- How many bytes have been written. -/
  sent : Nat
  /-- The data port has been read. -/
  got : Bool
  /-- The input buffer is known to be empty. -/
  empty : Bool
  /-- The output buffer is known to be full. -/
  full : Bool
  deriving DecidableEq

def script : List (Port × Sym) :=
  [(.command, .const 0xAD), (.command, .const 0xD0), (.command, .const 0xD1), (.data, .opened),
    (.command, .const 0xAE)]

namespace Note

variable (n : Note)

def next : Note := { n with pc := n.pc + 1 }

/-- The notes after an instruction. -/
def after : Ins → List Note
  | .movAl b => [{ n.next with al := .const b }]
  | .orAl b => [{ n.next with al := if n.al = .got ∧ b = 2#8 then .opened else .any }]
  | .testAl b =>
    [{ n.next with
      zf :=
        if n.al = .status ∧ b = 2#8 then .empty else if n.al = .status ∧ b = 1#8 then .full else .any }]
  | .inAl .command => [{ n.next with al := .status }]
  | .inAl .data => [{ n.next with al := .got, zf := .any, got := true, full := false }]
  | .outAl _ => [{ n.next with zf := .any, sent := n.sent + 1, empty := false }]
  | .pushEax => [{ n.next with stack := .word n.al :: n.stack }]
  | .popEax =>
    match n.stack with
    | .word v :: rest => [{ n.next with al := if v = .status then .any else v, stack := rest }]
    | _ => []
  | .call l => [{ n with pc := l, stack := .link (n.pc + 1) :: n.stack }]
  | .ret =>
    match n.stack with
    | .link l :: rest => [{ n with pc := l, stack := rest }]
    | _ => []
  | .jnz l => [{ n with pc := l }, { n.next with empty := n.empty || n.zf = .empty }]
  | .jz l => [{ n with pc := l }, { n.next with full := n.full || n.zf = .full }]
  | .jmp l => [{ n with pc := l }]

def post : List Note := (code[n.pc]?).elim [] n.after

/-- What an instruction must find: nothing is written but the script, with the input buffer
empty, and the data port is read when there is something. -/
def allows : Ins → Prop
  | .outAl p => n.empty ∧ script[n.sent]? = some (p, n.al) ∧ (n.got ∨ n.sent < 2)
  | .inAl .data => n.full ∧ n.got = false ∧ n.sent = 2 ∧ n.stack = []
  | i => n.after i ≠ []

instance (i : Ins) : Decidable (n.allows i) := by
  unfold allows
  split <;> infer_instance

/-- And where the program is with this note. -/
def ok : Prop :=
  (∀ i, code[n.pc]? = some i → n.allows i) ∧ (n.pc = a20wait2 → n.got = false ∧ n.sent = 2) ∧
    (n.pc = done → n.got ∧ n.sent = 5) ∧ (n.pc ≠ done → code[n.pc]?.isSome)

instance : Decidable n.ok :=
  have : Decidable (∀ i, code[n.pc]? = some i → n.allows i) :=
    match h : code[n.pc]? with
    | none => isTrue fun i hi => by cases hi
    | some i => decidable_of_iff (n.allows i) ⟨fun hn j hj => by cases hj; exact hn, fun hn => hn i rfl⟩
  inferInstanceAs (Decidable (_ ∧ _))

def start : Note := ⟨0, .any, .any, [], 0, false, false, false⟩

end Note

def outline : List Note := explore Note.post 200 [.start] []

theorem outline_closed : Closed Note.post outline := by decide +kernel

theorem outline_ok : ∀ n ∈ outline, n.ok := by decide +kernel

/-! ## What the controller has seen -/

/-- A byte taken, and what was in the output buffer then. -/
abbrev Taken := (Port × Byte) × Option Byte

def taken : Event → State → List Taken
  | .take, s => (s.kbc.input.map fun w => (w, s.kbc.output)).toList
  | _, _ => []

/-- What the code writes when it gets `b`. -/
def written (b : Byte) : List (Port × Byte) :=
  [(.command, 0xAD#8), (.command, 0xD0#8), (.command, 0xD1#8), (.data, b ||| 2#8), (.command, 0xAE#8)]

/-- The output buffer when the keyboard was turned off. -/
def leftOver (log : List Taken) : Option Byte := log.head?.bind Prod.snd

/-- The answer and the output buffer. -/
inductive Buffer (p₀ b : Byte) (log : List Taken) : Bool → Controller → Prop
  | before {k : Controller} (hlog : log.length = 0) (hanswer : k.answer = false) : Buffer p₀ b log false k
  | asked {k : Controller} (hlog : log.length = 1 ∧ k.answer = false ∨ log.length = 2 ∧ k.answer = true)
      (hout : k.output = leftOver log) : Buffer p₀ b log false k
  | given {k : Controller} (hlog : log.length = 2) (hanswer : k.answer = false)
      (hout : k.output = some p₀) : Buffer p₀ b log false k
  /-- It was the answer that was read. -/
  | clean {k : Controller} (hlog : 2 ≤ log.length) (hanswer : k.answer = false) (hb : b = p₀) :
      Buffer p₀ b log true k
  /-- It was not, and the answer is still to come, -/
  | early {k : Controller} (hlog : log.length = 1) (hanswer : k.answer = false)
      (hb : leftOver log = some b) : Buffer p₀ b log true k
  /-- or there. -/
  | stale {k : Controller} (hlog : 2 ≤ log.length) (hkeeps : k.answer = true ∨ k.output ≠ none)
      (hb : leftOver log = some b) : Buffer p₀ b log true k

/-- The controller after `sent` bytes were written to it and those of `log` taken. -/
structure Ctl (p₀ b : Byte) (log : List Taken) (sent : Nat) (got : Bool) (k : Controller) : Prop where
  took : log.map Prod.fst = (written b).take log.length
  input : k.input = none ∧ log.length = sent ∨ k.input = (written b)[log.length]? ∧ log.length + 1 = sent
  sent : sent ≤ if got then 5 else 2
  outport : k.outport = if log.length < 4 then p₀ else b ||| 2#8
  expects : k.expects = decide (log.length = 3)
  clock : 1 ≤ log.length → k.clock = decide (log.length = 5)
  buffer : Buffer p₀ b log got k

section Ctl

variable {p₀ b : Byte} {log : List Taken} {sent : Nat} {got : Bool} {k k' : Controller}

theorem leftOver_append {l : List Taken} (h : 1 ≤ log.length) : leftOver (log ++ l) = leftOver log := by
  cases log with
  | nil => cases h
  | cons _ _ => rfl

theorem Ctl.give (h : Ctl p₀ b log sent got k) (hk : k.give = some k') : Ctl p₀ b log sent got k' := by
  obtain ⟨hanswer, heq⟩ := Option.ite_none_right_eq_some.mp hk
  obtain rfl := Option.some.inj heq
  refine ⟨h.took, h.input, h.sent, h.outport, h.expects, h.clock, ?_⟩
  have hout := h.outport
  cases h.buffer with
  | before _ hno => rw [hno] at hanswer; cases hanswer
  | asked hlog _ =>
    rcases hlog with ⟨-, hno⟩ | ⟨hlen, -⟩
    · rw [hno] at hanswer
      cases hanswer
    · rw [if_pos (by omega)] at hout
      exact .given hlen rfl (congrArg some hout)
  | given _ hno _ => rw [hno] at hanswer; cases hanswer
  | clean _ hno _ => rw [hno] at hanswer; cases hanswer
  | early _ hno _ => rw [hno] at hanswer; cases hanswer
  | stale hlog _ hb => exact .stale hlog (.inr (Option.some_ne_none _)) hb

theorem Ctl.key {sc : Byte} (h : Ctl p₀ b log sent got k) (hk : k.key sc = some k') :
    Ctl p₀ b log sent got k' := by
  obtain ⟨⟨hclock, hnone⟩, heq⟩ := Option.ite_none_right_eq_some.mp hk
  obtain rfl := Option.some.inj heq
  have hoff : ¬(1 ≤ log.length ∧ log.length ≤ 4) := fun hlen => by
    rw [h.clock hlen.1, decide_eq_false (by omega)] at hclock
    cases hclock
  refine ⟨h.took, h.input, h.sent, h.outport, h.expects, h.clock, ?_⟩
  cases h.buffer with
  | before hlog hno => exact .before hlog hno
  | asked hlog _ => omega
  | given hlog _ _ => omega
  | clean hlog hno hb => exact .clean hlog hno hb
  | early hlog _ _ => omega
  | stale hlog _ hb => exact .stale hlog (.inr (Option.some_ne_none _)) hb

theorem Ctl.input_some {w : Port × Byte} (h : Ctl p₀ b log sent got k) (hw : k.input = some w) :
    (written b)[log.length]? = some w ∧ log.length + 1 = sent := by
  rcases h.input with ⟨hnone, -⟩ | ⟨hinput, hlen⟩
  · rw [hnone] at hw
    cases hw
  · exact ⟨hinput.symm.trans hw, hlen⟩

theorem took_snoc {w : Taken} (htook : log.map Prod.fst = (written b).take log.length)
    (hw : (written b)[log.length]? = some w.1) :
    (log ++ [w]).map Prod.fst = (written b).take (log ++ [w]).length := by
  rw [List.map_append, List.length_append, List.length_singleton, List.take_add_one, hw, htook]
  rfl

theorem Ctl.taken {w : Port × Byte} (h : Ctl p₀ b log sent got k) (hw : k.input = some w)
    (hk : k.take = some k') :
    k'.input = none ∧ k'.output = k.output ∧ k'.answer = (k.answer || decide (log.length = 1)) ∧
      k'.outport = (if log.length + 1 < 4 then p₀ else b ||| 2#8) ∧
      k'.expects = decide (log.length + 1 = 3) ∧ k'.clock = decide (log.length + 1 = 5) := by
  have hnext := (h.input_some hw).1
  have hlt : log.length < 5 := (List.getElem?_eq_some_iff.mp hnext).1
  have hout := h.outport
  have hexpects := h.expects
  have hclock := h.clock
  unfold Controller.take at hk
  rw [hw] at hk
  obtain hl | hl | hl | hl | hl : log.length = 0 ∨ log.length = 1 ∨ log.length = 2 ∨ log.length = 3 ∨
      log.length = 4 := by omega
  all_goals
    rw [hl] at hnext hout hexpects hclock
    obtain rfl := Option.some.inj hnext
    obtain rfl := Option.some.inj hk
    simp_all [Controller.command]

theorem Buffer.take {w : Port × Byte} (h : Buffer p₀ b log got k) (hgot : got = false → log.length ≤ 1)
    (hout : k'.output = k.output) (hanswer : k'.answer = (k.answer || decide (log.length = 1))) :
    Buffer p₀ b (log ++ [(w, k.output)]) got k' := by
  have hlength : (log ++ [(w, k.output)]).length = log.length + 1 := List.length_append
  cases h with
  | before hlog hno =>
    obtain rfl := List.length_eq_zero_iff.mp hlog
    rw [hno] at hanswer
    exact .asked (.inl ⟨rfl, hanswer⟩) hout
  | asked hlog ho =>
    have hlen := hgot rfl
    obtain ⟨hone, -⟩ := hlog.resolve_right fun htwo => by omega
    refine .asked (.inr ⟨by omega, ?_⟩) ?_
    · rw [hanswer, decide_eq_true hone, Bool.or_true]
    · rw [hout, ho, leftOver_append hone.ge]
  | given hlog => exact absurd (hgot rfl) (by omega)
  | clean hlog hno hb =>
    refine .clean (by omega) ?_ hb
    rw [hanswer, hno, decide_eq_false (by omega), Bool.or_false]
  | early hlog hno hb =>
    refine .stale (by omega) (.inl ?_) ((leftOver_append hlog.ge).trans hb)
    rw [hanswer, decide_eq_true hlog, Bool.or_true]
  | stale hlog hkeeps hb =>
    refine .stale (by omega) ?_ ((leftOver_append (by omega)).trans hb)
    rw [hanswer, hout]
    exact hkeeps.imp_left fun ha => by rw [ha, Bool.true_or]

theorem Ctl.take {w : Port × Byte} (h : Ctl p₀ b log sent got k) (hw : k.input = some w)
    (hk : k.take = some k') : Ctl p₀ b (log ++ [(w, k.output)]) sent got k' := by
  obtain ⟨hnext, hlen⟩ := h.input_some hw
  obtain ⟨hinput, hout, hanswer, hport, hexpects, hclock⟩ := h.taken hw hk
  have hlength : (log ++ [(w, k.output)]).length = log.length + 1 := List.length_append
  have hsent := h.sent
  refine ⟨took_snoc h.took hnext, .inl ⟨hinput, by omega⟩, h.sent, ?_, ?_, fun _ => ?_, ?_⟩
  · rw [hport, hlength]
  · rw [hexpects, hlength]
  · rw [hclock, hlength]
  · refine h.buffer.take (fun hgot => ?_) hout hanswer
    rw [hgot] at hsent
    simp only [Bool.false_eq_true, if_false] at hsent
    omega

theorem Ctl.length_of_empty (h : Ctl p₀ b log sent got k) (hempty : k.input = none) :
    log.length = sent := by
  rcases h.input with ⟨-, hlen⟩ | ⟨hsome, hlen⟩
  · exact hlen
  · have hle : sent ≤ 5 := by
      have := h.sent
      split at this <;> omega
    have hlt : log.length < (written b).length := by
      change _ < 5
      omega
    rw [hempty, List.getElem?_eq_getElem hlt] at hsome
    cases hsome

theorem Ctl.write {w : Port × Byte} (h : Ctl p₀ b log sent got k) (hempty : k.input = none)
    (hw : (written b)[sent]? = some w) (hsent : sent + 1 ≤ if got then 5 else 2) :
    Ctl p₀ b log (sent + 1) got { k with input := some w } := by
  have hlen := h.length_of_empty hempty
  refine ⟨h.took, .inr ⟨?_, by rw [hlen]⟩, hsent, h.outport, h.expects, h.clock, ?_⟩
  · rw [hlen, hw]
  · cases h.buffer with
    | before hlog hno => exact .before hlog hno
    | asked hlog ho => exact .asked hlog ho
    | given hlog hno ho => exact .given hlog hno ho
    | clean hlog hno hb => exact .clean hlog hno hb
    | early hlog hno hb => exact .early hlog hno hb
    | stale hlog hkeeps hb => exact .stale hlog hkeeps hb

theorem Ctl.read {c : Byte} (h : Ctl p₀ b log 2 false k) (hout : k.output = some c) :
    Ctl p₀ c log 2 true { k with output := none } := by
  have hlog : log.length ≤ 2 := by
    rcases h.input with ⟨-, hlen⟩ | ⟨-, hlen⟩ <;> omega
  have hport := h.outport
  rw [if_pos (by omega)] at hport
  have htake : (written c).take log.length = (written b).take log.length := by
    obtain hl | hl | hl : log.length = 0 ∨ log.length = 1 ∨ log.length = 2 := by omega
    all_goals
      rw [hl]
      rfl
  refine ⟨htake ▸ h.took, ?_, by decide, by rw [if_pos (by omega), hport], h.expects, h.clock, ?_⟩
  · refine h.input.imp_right fun ⟨hinput, hlen⟩ => ⟨?_, hlen⟩
    obtain hl : log.length = 1 := by omega
    rw [hl] at hinput ⊢
    exact hinput
  · cases h.buffer with
    | before hzero hno => rcases h.input with ⟨-, hlen⟩ | ⟨-, hlen⟩ <;> omega
    | asked hlen ho =>
      rw [hout] at ho
      rcases hlen with ⟨hone, hno⟩ | ⟨htwo, hyes⟩
      · exact .early hone hno ho.symm
      · exact .stale htwo.ge (.inl hyes) ho.symm
    | given htwo hno ho =>
      rw [hout] at ho
      exact .clean htwo.ge hno (Option.some.inj ho)

end Ctl

/-! ## What a note says -/

/-- The byte, if the note has it. -/
def Sym.value (b : Byte) : Sym → Option Byte
  | .const c => some c
  | .got => some b
  | .opened => some (b ||| 2#8)
  | .any | .status => none

/-- `v` is what the note has. -/
def Sym.Knows (b v : Byte) (a : Sym) : Prop := ∀ c, a.value b = some c → v = c

/-- The bits 0 and 1 of a status read before. -/
def StatusSays (k : Controller) (v : Byte) : Prop :=
  (v &&& 2#8 = 0#8 → k.input = none) ∧ (v &&& 1#8 ≠ 0#8 → k.output ≠ none)

def Flag.Says (k : Controller) (zf : Bool) : Flag → Prop
  | .any => True
  | .empty => zf = true → k.input = none
  | .full => zf = false → k.output ≠ none

inductive Entry.Knows (b : Byte) : Entry Sym → Entry (BitVec 32) → Prop
  | link (pc : Nat) : Entry.Knows b (.link pc) (.link pc)
  | word {a : Sym} {v : BitVec 32} (h : a.Knows b (al v)) : Entry.Knows b (.word a) (.word v)

structure Meaning (p₀ b : Byte) (n : Note) (log : List Taken) (s : State) : Prop where
  pc : s.pc = n.pc
  al : n.al.Knows b (al s.eax)
  status : n.al = .status → StatusSays s.kbc (A20.al s.eax)
  zf : n.zf.Says s.kbc s.zf
  stack : List.Forall₂ (Entry.Knows b) n.stack s.stack
  empty : n.empty → s.kbc.input = none
  full : n.full → s.kbc.output ≠ none
  alive : n.sent = 5 → b.getLsbD 0
  ctl : Ctl p₀ b log n.sent n.got s.kbc

/-- What the code found out stays so. -/
structure Later (k k' : Controller) : Prop where
  input : k.input = none → k'.input = none
  output : k.output ≠ none → k'.output ≠ none

section Meaning

variable {p₀ b : Byte} {n : Note} {log log' : List Taken} {s s' : State} {k' : Controller}

theorem Flag.Says.later {f : Flag} {zf : Bool} {k : Controller} (h : f.Says k zf) (hk : Later k k') :
    f.Says k' zf := by
  cases f with
  | any => trivial
  | empty => exact fun hz => hk.input (h hz)
  | full => exact fun hz => hk.output (h hz)

theorem Meaning.later (h : Meaning p₀ b n log s) (hk : Later s.kbc k')
    (hctl : Ctl p₀ b log' n.sent n.got k') : Meaning p₀ b n log' (s.with k') where
  pc := h.pc
  al := h.al
  status ha := ⟨fun hz => hk.input ((h.status ha).1 hz), fun hz => hk.output ((h.status ha).2 hz)⟩
  zf := h.zf.later hk
  stack := h.stack
  empty he := hk.input (h.empty he)
  full hf := hk.output (h.full hf)
  alive := h.alive
  ctl := hctl

theorem status_bit (k : Controller) (noise c : Byte) (h : 0xFC#8 &&& c = 0#8) :
    k.status noise &&& c =
      (if k.output.isSome then 1#8 &&& c else 0#8) ||| (if k.input.isSome then 2#8 &&& c else 0#8) := by
  unfold Controller.status
  rw [BitVec.and_or_distrib_right, BitVec.and_or_distrib_right, BitVec.and_assoc, h]
  split <;> split <;> simp

theorem status_says (k : Controller) (noise : Byte) : StatusSays k (k.status noise) := by
  constructor
  · rw [status_bit k noise 2#8 rfl]
    intro hz
    cases hinput : k.input with
    | none => rfl
    | some w =>
      rw [hinput] at hz
      cases hout : k.output <;> simp [hout] at hz
  · rw [status_bit k noise 1#8 rfl]
    intro hz hnone
    rw [hnone] at hz
    cases hinput : k.input <;> simp [hinput] at hz

theorem Sym.Knows.mono {a : Sym} {v : Byte} (h : a.Knows b v) :
    (if a = .status then .any else a).Knows b v := by
  split
  · exact fun c hc => by cases hc
  · exact h

/-- Nothing but the next byte of the code's is written. -/
theorem script_value {p : Port} {a : Sym} {i : Nat} (h : script[i]? = some (p, a)) {v : Byte}
    (ha : a.Knows b v) : (written b)[i]? = some (p, v) := by
  have hlt : i < 5 := (List.getElem?_eq_some_iff.mp h).1
  obtain rfl | rfl | rfl | rfl | rfl : i = 0 ∨ i = 1 ∨ i = 2 ∨ i = 3 ∨ i = 4 := by omega
  all_goals
    obtain ⟨rfl, rfl⟩ := Prod.mk.inj (Option.some.inj h)
    rw [ha _ rfl]
    rfl

theorem Meaning.popped (h : Meaning p₀ b n log s) (hok : n.allows .popEax) :
    ∃ a v rest ws, n.stack = .word a :: rest ∧ s.stack = .word v :: ws ∧ a.Knows b (A20.al v) ∧
      List.Forall₂ (Entry.Knows b) rest ws := by
  have hstack := h.stack
  cases hn : n.stack with
  | nil => exact absurd (by simp only [Note.after, hn]) hok
  | cons e rest =>
    cases e with
    | link l => exact absurd (by simp only [Note.after, hn]) hok
    | word a =>
      rw [hn] at hstack
      obtain ⟨w, ws, hw, hws, heq⟩ := List.forall₂_cons_left_iff.mp hstack
      cases hw with
      | word hv => exact ⟨a, _, rest, ws, rfl, heq, hv, hws⟩

theorem Meaning.returned (h : Meaning p₀ b n log s) (hok : n.allows .ret) :
    ∃ l rest ws, n.stack = .link l :: rest ∧ s.stack = .link l :: ws ∧
      List.Forall₂ (Entry.Knows b) rest ws := by
  have hstack := h.stack
  cases hn : n.stack with
  | nil => exact absurd (by simp only [Note.after, hn]) hok
  | cons e rest =>
    cases e with
    | word a => exact absurd (by simp only [Note.after, hn]) hok
    | link l =>
      rw [hn] at hstack
      obtain ⟨w, ws, hw, hws, heq⟩ := List.forall₂_cons_left_iff.mp hstack
      cases hw with
      | link => exact ⟨l, rest, ws, rfl, heq, hws⟩

theorem status_not_written {p : Port} {i : Nat} : script[i]? ≠ some (p, .status) := by
  intro h
  have hmem := List.mem_of_getElem? h
  simp [script] at hmem

/-- **One instruction** of the code leads to one of the notes after it. -/
theorem Meaning.exec {i : Ins} {noise : Byte} (h : Meaning p₀ b n log s) (hok : n.allows i)
    (hrun : s.kbc.outport.getLsbD 0) (hs : i.exec noise s = some s') :
    ∃ n' ∈ n.after i, ∃ b', Meaning p₀ b' n' log s' := by
  have hpc := congrArg (· + 1) h.pc
  cases i with
  | movAl c =>
    obtain rfl := Option.some.inj hs
    refine ⟨_, List.mem_singleton_self _, b,
      ⟨hpc, ?_, fun ha => (by cases ha), h.zf, h.stack, h.empty, h.full, h.alive, h.ctl⟩⟩
    intro d hd
    rw [al_setAl]
    exact Option.some.inj hd
  | orAl c =>
    obtain rfl := Option.some.inj hs
    refine ⟨_, List.mem_singleton_self _, b,
      ⟨hpc, ?_, fun ha => ?_, h.zf, h.stack, h.empty, h.full, h.alive, h.ctl⟩⟩
    · intro d hd
      dsimp only at hd ⊢
      split at hd
      · rename_i hgot
        have hb := h.al b (by rw [hgot.1]; rfl)
        rw [al_setAl, hb, hgot.2]
        exact Option.some.inj hd
      · cases hd
    · dsimp only at ha
      split at ha <;> cases ha
  | testAl c =>
    obtain rfl := Option.some.inj hs
    refine ⟨_, List.mem_singleton_self _, b,
      ⟨hpc, h.al, h.status, ?_, h.stack, h.empty, h.full, h.alive, h.ctl⟩⟩
    dsimp only
    split
    · rename_i hstatus
      intro hz
      refine (h.status hstatus.1).1 ?_
      rw [← hstatus.2]
      exact eq_of_beq hz
    · split
      · rename_i hstatus
        intro hz
        refine (h.status hstatus.1).2 fun heq => ?_
        rw [← hstatus.2] at heq
        exact absurd hz (by rw [heq]; decide)
      · trivial
  | inAl p =>
    cases p with
    | command =>
      obtain rfl := Option.some.inj hs
      refine ⟨_, List.mem_singleton_self _, b,
        ⟨hpc, fun d hd => (by cases hd), fun _ => ?_, h.zf, h.stack, h.empty, h.full, h.alive, h.ctl⟩⟩
      dsimp only
      rw [al_setAl]
      exact status_says _ _
    | data =>
      obtain ⟨hfull, hgot, hsent, hstack⟩ := hok
      obtain ⟨c, hc⟩ := Option.ne_none_iff_exists'.mp (h.full hfull)
      have hctl := h.ctl
      rw [hgot, hsent] at hctl
      have hread := hctl.read hc
      rw [← hsent] at hread
      have hnil := h.stack
      rw [hstack] at hnil
      obtain rfl := Option.some.inj hs
      refine ⟨_, List.mem_singleton_self _, c,
        ⟨hpc, fun d hd => ?_, fun ha => (by cases ha), trivial, ?_, h.empty, fun hf => (by cases hf),
          fun hfive => ?_, hread⟩⟩
      · dsimp only at hd ⊢
        rw [al_setAl, hc]
        exact Option.some.inj hd
      · dsimp only
        rw [List.forall₂_nil_left_iff.mp hnil]
        exact hstack.symm ▸ .nil
      · exact absurd (hsent.symm.trans hfive) (by decide)
  | outAl p =>
    obtain ⟨hempty, hscript, hgot⟩ := hok
    have hnone := h.empty hempty
    have hlt : n.sent < 5 := (List.getElem?_eq_some_iff.mp hscript).1
    have hsent : n.sent + 1 ≤ if n.got then 5 else 2 := by
      split
      · exact hlt
      · exact hgot.resolve_left ‹_›
    obtain rfl := Option.some.inj hs
    refine ⟨_, List.mem_singleton_self _, b,
      ⟨hpc, h.al, fun ha => ?_, trivial, h.stack, fun he => (by cases he), h.full, fun hfive => ?_,
        h.ctl.write hnone (script_value hscript h.al) hsent⟩⟩
    · exact absurd hscript (by rw [show n.al = .status from ha]; exact status_not_written)
    · have hlen : log.length = 4 := by
        rw [h.ctl.length_of_empty hnone]
        exact Nat.succ.inj hfive
      rw [h.ctl.outport, if_neg (by omega), BitVec.getLsbD_or] at hrun
      exact (Bool.or_eq_true_iff.mp hrun).resolve_right (by decide)
  | pushEax =>
    obtain rfl := Option.some.inj hs
    exact ⟨_, List.mem_singleton_self _, b,
      ⟨hpc, h.al, h.status, h.zf, .cons (.word h.al) h.stack, h.empty, h.full, h.alive, h.ctl⟩⟩
  | popEax =>
    obtain ⟨a, v, rest, ws, hn, heq, hv, hws⟩ := h.popped hok
    unfold Ins.exec at hs
    rw [heq] at hs
    obtain rfl := Option.some.inj hs
    unfold Note.after
    rw [hn]
    refine ⟨_, List.mem_singleton_self _, b,
      ⟨hpc, hv.mono, fun ha => ?_, h.zf, hws, h.empty, h.full, h.alive, h.ctl⟩⟩
    dsimp only at ha
    split at ha
    · cases ha
    · contradiction
  | call l =>
    obtain rfl := Option.some.inj hs
    refine ⟨_, List.mem_singleton_self _, b,
      ⟨rfl, h.al, h.status, h.zf, .cons ?_ h.stack, h.empty, h.full, h.alive, h.ctl⟩⟩
    rw [h.pc]
    exact .link _
  | ret =>
    obtain ⟨l, rest, ws, hn, heq, hws⟩ := h.returned hok
    unfold Ins.exec at hs
    rw [heq] at hs
    obtain rfl := Option.some.inj hs
    unfold Note.after
    rw [hn]
    exact ⟨_, List.mem_singleton_self _, b,
      ⟨rfl, h.al, h.status, h.zf, hws, h.empty, h.full, h.alive, h.ctl⟩⟩
  | jnz l =>
    obtain rfl := Option.some.inj hs
    have hzf := h.zf
    cases hz : s.zf with
    | false =>
      rw [hz] at hzf
      exact ⟨_, List.mem_cons_self, b,
        ⟨rfl, h.al, h.status, hzf, h.stack, h.empty, h.full, h.alive, h.ctl⟩⟩
    | true =>
      rw [hz] at hzf
      refine ⟨_, List.mem_cons_of_mem _ (List.mem_singleton_self _), b,
        ⟨hpc, h.al, h.status, hzf, h.stack, fun he => ?_, h.full, h.alive, h.ctl⟩⟩
      rcases Bool.or_eq_true_iff.mp he with he | hflag
      · exact h.empty he
      · rw [of_decide_eq_true hflag] at hzf
        exact hzf rfl
  | jz l =>
    obtain rfl := Option.some.inj hs
    have hzf := h.zf
    cases hz : s.zf with
    | true =>
      rw [hz] at hzf
      exact ⟨_, List.mem_cons_self, b,
        ⟨rfl, h.al, h.status, hzf, h.stack, h.empty, h.full, h.alive, h.ctl⟩⟩
    | false =>
      rw [hz] at hzf
      refine ⟨_, List.mem_cons_of_mem _ (List.mem_singleton_self _), b,
        ⟨hpc, h.al, h.status, hzf, h.stack, h.empty, fun hf => ?_, h.alive, h.ctl⟩⟩
      rcases Bool.or_eq_true_iff.mp hf with hf | hflag
      · exact h.full hf
      · rw [of_decide_eq_true hflag] at hzf
        exact hzf rfl
  | jmp l =>
    obtain rfl := Option.some.inj hs
    exact ⟨_, List.mem_singleton_self _, b,
      ⟨rfl, h.al, h.status, h.zf, h.stack, h.empty, h.full, h.alive, h.ctl⟩⟩

theorem Meaning.goes_on {i : Ins} (h : Meaning p₀ b n log s) (hok : n.allows i) (noise : Byte) :
    (i.exec noise s).isSome := by
  cases i with
  | popEax =>
    obtain ⟨a, v, rest, ws, hn, heq, -⟩ := h.popped hok
    unfold Ins.exec
    rw [heq]
    rfl
  | ret =>
    obtain ⟨l, rest, ws, hn, heq, -⟩ := h.returned hok
    unfold Ins.exec
    rw [heq]
    rfl
  | inAl p => cases p <;> rfl
  | _ => rfl

/-- **One event.** -/
theorem Meaning.step {e : Event} (hn : n ∈ outline) (h : Meaning p₀ b n log s) (hs : step e s = some s') :
    ∃ n' ∈ n :: n.post, ∃ b', Meaning p₀ b' n' (log ++ taken e s) s' := by
  cases e with
  | cpu noise =>
    obtain ⟨hrun, hs⟩ := Option.ite_none_right_eq_some.mp hs
    obtain ⟨i, hi, hexec⟩ := Option.bind_eq_some_iff.mp hs
    rw [h.pc] at hi
    obtain ⟨n', hn', hmeaning⟩ := h.exec ((outline_ok n hn).1 i hi) hrun hexec
    refine ⟨n', List.mem_cons_of_mem _ ?_, ?_⟩
    · rw [Note.post, hi]
      exact hn'
    · rw [taken.eq_def, List.append_nil]
      exact hmeaning
  | take =>
    obtain ⟨k', hk, rfl⟩ := Option.map_eq_some_iff.mp hs
    cases hw : s.kbc.input with
    | none =>
      unfold Controller.take at hk
      rw [hw] at hk
      cases hk
    | some w =>
      obtain ⟨hinput, hout, -⟩ := h.ctl.taken hw hk
      refine ⟨n, List.mem_cons_self, b, ?_⟩
      rw [taken, hw]
      refine h.later ⟨fun _ => hinput, fun ho => ?_⟩ (h.ctl.take hw hk)
      rw [hout]
      exact ho
  | give =>
    obtain ⟨k', hk, rfl⟩ := Option.map_eq_some_iff.mp hs
    have hctl := h.ctl.give hk
    obtain ⟨-, heq⟩ := Option.ite_none_right_eq_some.mp hk
    obtain rfl := Option.some.inj heq
    refine ⟨n, List.mem_cons_self, b, ?_⟩
    rw [taken.eq_def, List.append_nil]
    exact h.later ⟨id, fun _ => Option.some_ne_none _⟩ hctl
  | key sc =>
    obtain ⟨k', hk, rfl⟩ := Option.map_eq_some_iff.mp hs
    have hctl := h.ctl.key hk
    obtain ⟨-, heq⟩ := Option.ite_none_right_eq_some.mp hk
    obtain rfl := Option.some.inj heq
    refine ⟨n, List.mem_cons_self, b, ?_⟩
    rw [taken.eq_def, List.append_nil]
    exact h.later ⟨id, fun _ => Option.some_ne_none _⟩ hctl

end Meaning

/-- At the first instruction, the controller idle. There may be a byte in the output buffer. -/
structure Start (s : State) : Prop where
  pc : s.pc = 0
  stack : s.stack = []
  input : s.kbc.input = none
  expects : s.kbc.expects = false
  answer : s.kbc.answer = false

section Runs

variable {s s' : State} {es : List Event}

theorem runs_meaning (h0 : Start s) (h : runs step es s = some s') :
    ∃ n ∈ outline, ∃ b, Meaning s.kbc.outport b n (emits step taken es s) s' := by
  have hstart : Meaning s.kbc.outport 0 .start [] s :=
    ⟨h0.pc, fun c hc => (by cases hc), fun ha => (by cases ha), trivial, h0.stack ▸ .nil,
      fun he => (by cases he), fun hf => (by cases hf), fun hfive => (by cases hfive),
      ⟨rfl, .inl ⟨h0.input, rfl⟩, Nat.zero_le _, rfl, h0.expects, fun hlen => absurd hlen (by decide),
        .before rfl h0.answer⟩⟩
  refine runs_outline (γ := fun n es t => ∃ b, Meaning s.kbc.outport b n (emits step taken es s) t)
    outline_closed ⟨.start, by decide +kernel, 0, hstart⟩ (fun n hn es e t t' ht hI he => ?_) h
  obtain ⟨b, hmeaning⟩ := hI
  obtain ⟨n', hn', b', hmeaning'⟩ := hmeaning.step hn he
  refine ⟨n', hn', b', ?_⟩
  rw [emits_append ht, emits_cons he, emits_nil, List.append_nil]
  exact hmeaning'

/-- The next read of the status register sends the code round again. -/
def Polls (s : State) : Prop :=
  s.pc = a20wait ∧ s.kbc.input ≠ none ∨ s.pc = a20wait2 ∧ s.kbc.output = none

theorem Ctl.polls {p₀ b : Byte} {log : List Taken} {k : Controller} (h : Ctl p₀ b log 2 false k)
    (hout : k.output = none) : k.input ≠ none ∨ k.answer = true := by
  rcases h.input with ⟨-, hlen⟩ | ⟨hinput, hlen⟩
  · right
    cases h.buffer with
    | before hlog => omega
    | asked hlog => exact (hlog.resolve_left fun hone => by omega).2
    | given _ _ ho =>
      rw [hout] at ho
      cases ho
  · left
    obtain hone : log.length = 1 := by omega
    rw [hinput, hone]
    exact Option.some_ne_none _

/-- **The A20 sequence**, whatever the controller and the keyboard do in between. Nothing is written
while the input buffer is full; the code goes on until the processor is reset, and only polls while
the controller has something to do. What the controller takes is the script for the byte `b` that
the code got, and at the end `b` with bit 1 is in the output port: `b` is what was there
before, or else the byte that was in the output buffer when the keyboard was turned off, and the
answer is still to be read. -/
theorem a20_opened (h0 : Start s) (h : runs step es s = some s') :
    (∀ p, code[s'.pc]? = some (.outAl p) → s'.kbc.input = none) ∧
      (∀ noise, s'.pc ≠ done → s'.kbc.outport.getLsbD 0 → (step (.cpu noise) s').isSome) ∧
      (Polls s' → s'.kbc.input ≠ none ∨ s'.kbc.answer = true) ∧
      ∃ b, (emits step taken es s).map Prod.fst <+: written b ∧
        (s'.pc = done → b.getLsbD 0 ∧ s'.kbc.outport = b ||| 2#8 ∧
          (b = s.kbc.outport ∨
            leftOver (emits step taken es s) = some b ∧ (s'.kbc.answer = true ∨ s'.kbc.output ≠ none))) := by
  obtain ⟨n, hn, b, hmeaning⟩ := runs_meaning h0 h
  obtain ⟨hallows, hwait2, hdone, hcode⟩ := outline_ok n hn
  rw [← hmeaning.pc] at hallows hwait2 hdone hcode
  have hctl := hmeaning.ctl
  refine ⟨fun p hp => ?_, fun noise hne hrun => ?_, fun hpolls => ?_, b, ?_, fun hpc => ?_⟩
  · exact hmeaning.empty (hallows _ hp).1
  · obtain ⟨i, hi⟩ := Option.isSome_iff_exists.mp (hcode hne)
    rw [step, if_pos hrun, hi]
    exact hmeaning.goes_on (hallows i hi) noise
  · rcases hpolls with ⟨-, hinput⟩ | ⟨hpc, hout⟩
    · exact .inl hinput
    · obtain ⟨hgot, hsent⟩ := hwait2 hpc
      rw [hgot, hsent] at hctl
      exact hctl.polls hout
  · rw [hctl.took]
    exact List.take_prefix _ _
  · obtain ⟨hgot, hsent⟩ := hdone hpc
    rw [hgot, hsent] at hctl
    have hlen : 4 ≤ (emits step taken es s).length := by
      rcases hctl.input with ⟨-, hl⟩ | ⟨-, hl⟩ <;> omega
    refine ⟨hmeaning.alive hsent, ?_, ?_⟩
    · rw [hctl.outport, if_neg (by omega)]
    · cases hctl.buffer with
      | clean _ _ hb => exact .inl hb
      | early hone => omega
      | stale _ hkeeps hb => exact .inr ⟨hb, hkeeps⟩

end Runs

/-- The controller does each thing as soon as it can. -/
def prompt : List Event :=
  let cpu n := List.replicate n (Event.cpu 0)
  cpu 7 ++ [Event.take] ++ cpu 7 ++ [Event.take] ++ cpu 7 ++ [Event.give] ++ cpu 7 ++ [Event.take] ++
    cpu 8 ++ [Event.take] ++ cpu 8

/-- A key has been pressed, its byte 0x1F; A20 is open, and the output port was 0xDD. -/
def pressed : State := ⟨0, 0, false, [], ⟨none, some 0x1F#8, 0xDD#8, true, false, false⟩⟩

theorem a20_opened_pressed : ∃ s', runs step prompt pressed = some s' ∧ s'.pc = done ∧
    s'.kbc.outport = 0x1F#8 ∧ (s'.kbc.answer = true ∨ s'.kbc.output ≠ none) := by
  have hruns : ∃ s', runs step prompt pressed = some s' ∧ s'.pc = done ∧ s'.kbc.outport = 0x1F#8 :=
    ⟨_, rfl, rfl, rfl⟩
  obtain ⟨s', h, hpc, hout⟩ := hruns
  obtain ⟨-, -, -, b, -, hopened⟩ := a20_opened (s := pressed) ⟨rfl, rfl, rfl, rfl, rfl⟩ h
  obtain ⟨-, hport, hb⟩ := hopened hpc
  refine ⟨s', h, hpc, hout, ?_⟩
  rcases hb with rfl | ⟨-, hkeeps⟩
  · rw [hout] at hport
    exact absurd hport (by decide)
  · exact hkeeps

end Osdev2.I386.A20
