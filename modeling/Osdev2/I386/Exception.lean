import Osdev2.I386.Idt
import Osdev2.I386.Stubs
import Osdev2.I386.Platform
import Osdev2.Libk.Message

/-!
# The exception handlers (`kernel/arch/i386/boot.asm`, `arch.c`)

For an exception the processor pushes three words, and for some vectors an error code, and goes to
the stub that the table has for the vector. The stub pushes the vector and calls a C function,
whose parameters are then these words, in the order of their places on the stack: `exception_handler`
where there is no error code, `exception_handler_err` where there is one. The stubs of the reserved
vectors only halt.

`exception_reported` is that for every vector the report is about the exception there was, and
that it is the last thing the kernel does.
-/

namespace Osdev2.I386

open Osdev2.Lib Osdev2.Libk Osdev2.Kernel

/-! ## The stubs -/

inductive StubKind where
  | noerr
  | err
  | res
  deriving DecidableEq

/-- The macros in the order of the file. -/
def isr_stubs : List StubKind :=
  [.noerr, .noerr, .noerr, .noerr, .noerr, .noerr, .noerr, .noerr, .err, .noerr, .err, .err, .err, .err, .err,
    .res, .noerr, .err, .noerr, .noerr, .noerr, .err, .res, .res, .res, .res, .res, .res, .noerr, .err, .err,
    .res]

def stubKind (v : Nat) : StubKind := isr_stubs.getD v .res

def isr_stub (v : Nat) : List Ins :=
  match stubKind v with
  | .res => [.hlt]
  | _ => [.push (BitVec.ofNat 32 v), .call, .addEsp 4, .hlt]

/-- The vectors for which the processor pushes an error code. -/
def pushesCode (v : Nat) : Bool := [8, 10, 11, 12, 13, 14, 17, 21, 29, 30].contains v

/-! ## The C functions -/

/-- The processor and the drivers' variables. -/
structure Faulting where
  cpu : Cpu
  dev : Drivers

section Handlers

variable (D : DriverAddresses)

/-- `printf` in a C function, and its `ret`. -/
def Faulting.prints (format : List Char) (args : List Nat) (s : Faulting) : Option Faulting :=
  (printf (i386 D).console 32 (lit format) (fun i => args.getD i 0) (s.cpu.mem, s.dev)).map fun t =>
    ⟨{ s.cpu.set .esp (s.cpu.reg .esp + 4#32) with mem := t.1 }, t.2⟩

/-- The parameters are `vec` and a `registers_t`, whose first field is `eip`. -/
def exception_handler (s : Faulting) : Option Faulting :=
  let vec := s.cpu.top 4
  let eip := s.cpu.top 8
  s.prints D ['E', 'x', 'c', 'e', 'p', 't', 'i', 'o', 'n', ' ', '0', 'x', '%', '0', '2', 'X', ' ', 'a', 't',
    ' ', '%', '0', '8', 'X', '!', '\n'] [vec.toNat, eip.toNat]

/-- The parameters are `vec`, `code` and a `registers_t`. -/
def exception_handler_err (s : Faulting) : Option Faulting :=
  let vec := s.cpu.top 4
  let code := s.cpu.top 8
  let eip := s.cpu.top 12
  s.prints D ['E', 'x', 'c', 'e', 'p', 't', 'i', 'o', 'n', ' ', '0', 'x', '%', '0', '2', 'X', ' ', 'a', 't',
    ' ', '%', '0', '8', 'X', ',', ' ', 'e', 'r', 'r', 'o', 'r', ' ', 'c', 'o', 'd', 'e', ' ', '0', 'x', '%',
    'X', '\n'] [vec.toNat, eip.toNat, code.toNat]

def calledBy (v : Nat) : Faulting → Option Faulting :=
  match stubKind v with
  | .err => exception_handler_err D
  | _ => exception_handler D

/-- The instructions of a stub, `link` the address behind its `call`. -/
def runStub (f : Faulting → Option Faulting) (link : BitVec 32) : List Ins → Faulting → Option Faulting
  | [], s => some s
  | .call :: is, s => (f { s with cpu := s.cpu.push link }).bind (runStub f link is)
  | i :: is, s => runStub f link is { s with cpu := i.exec id link s.cpu }

/-- An exception: the gate that `idt_r` has for its vector is taken, and what is there runs. -/
def except (A : BitVec 32) (isr_stub_table : Nat → BitVec 32) (v : Byte) (code link : BitVec 32)
    (s : Faulting) : Option Faulting :=
  ((idt_r A).gate s.cpu.mem v).bind fun g =>
    if g.present ∧ g.selector = 0x0008 ∧ g.offset = isr_stub_table v.toNat then
      runStub (calledBy D v.toNat) link (isr_stub v.toNat)
        { s with cpu := interrupt g (if pushesCode v.toNat then some code else none) s.cpu }
    else none

end Handlers

/-! ## The report -/

/-- What is printed. -/
def report (v : Nat) (eip code : BitVec 32) : List Byte :=
  match stubKind v with
  | .res => []
  | .noerr => ['E', 'x', 'c', 'e', 'p', 't', 'i', 'o', 'n', ' ', '0', 'x'].map ch ++ hexText 2 v ++
      [' ', 'a', 't', ' '].map ch ++ hexText 8 eip.toNat ++ ['!', '\n'].map ch
  | .err => ['E', 'x', 'c', 'e', 'p', 't', 'i', 'o', 'n', ' ', '0', 'x'].map ch ++ hexText 2 v ++
      [' ', 'a', 't', ' '].map ch ++ hexText 8 eip.toNat ++
      [',', ' ', 'e', 'r', 'r', 'o', 'r', ' ', 'c', 'o', 'd', 'e', ' ', '0', 'x'].map ch ++
      digitsText 16 code.toNat ++ ['\n'].map ch

section Report

variable (D : DriverAddresses)

/-- `l` displayed, and the `ret`. -/
def Faulting.said (l : List Byte) (s : Faulting) : Faulting :=
  let t := l.foldl (fun t c => (i386 D).putc c t) (s.cpu.mem, s.dev)
  ⟨{ s.cpu.set .esp (s.cpu.reg .esp + 4#32) with mem := t.1 }, t.2⟩

variable {D} {s : Faulting} {v : Nat} {eip code : BitVec 32}

theorem prints_eq (ps : List Part) {format : List Char} (hf : formatOf (pieces ps) = format.map ch)
    (hlen : format.length < 2 ^ 31) {args : List Nat} (hs : stringArgs (fun i => args.getD i 0) ps 0 = []) :
    s.prints D format args = some (s.said D (message (fun _ => []) (fun i => args.getD i 0) ps 0)) := by
  rw [Faulting.prints, printf_numbers (Or.inl rfl) hf hlen hs]
  rfl

/-- The two numbers every report has. -/
theorem report_numbers (eip : BitVec 32) (hv : v < 32) :
    numberText .X [2] ((BitVec.ofNat 32 v).toNat % 2 ^ 32) = hexText 2 v ∧
      numberText .X [8] (eip.toNat % 2 ^ 32) = hexText 8 eip.toNat := by
  have heip := eip.isLt
  have hvec : (BitVec.ofNat 32 v).toNat % 2 ^ 32 = v := by
    rw [BitVec.toNat_ofNat]
    omega
  rw [hvec, Nat.mod_eq_of_lt heip]
  exact ⟨numberText_hexText (w := 1) (by decide) (by omega),
    numberText_hexText (w := 7) (by decide) (by omega)⟩

theorem exception_handler_said (hv : v < 32) (hk : stubKind v = .noerr)
    (h4 : s.cpu.top 4 = BitVec.ofNat 32 v) (h8 : s.cpu.top 8 = eip) :
    exception_handler D s = some (s.said D (report v eip code)) := by
  obtain ⟨hvec, heip⟩ := report_numbers eip hv
  rw [exception_handler, h4, h8]
  refine (prints_eq [.text ['E', 'x', 'c', 'e', 'p', 't', 'i', 'o', 'n', ' ', '0', 'x'], .number .X [2],
    .text [' ', 'a', 't', ' '], .number .X [8], .text ['!', '\n']] rfl (by decide) rfl).trans ?_
  simp only [message, Part.chars, Part.takes, List.getD_cons_zero, List.getD_cons_succ, Nat.add_zero, hvec,
    heip, report, hk, List.append_assoc, List.append_nil]

theorem exception_handler_err_said (hv : v < 32) (hk : stubKind v = .err)
    (h4 : s.cpu.top 4 = BitVec.ofNat 32 v) (h8 : s.cpu.top 8 = code) (h12 : s.cpu.top 12 = eip) :
    exception_handler_err D s = some (s.said D (report v eip code)) := by
  obtain ⟨hvec, heip⟩ := report_numbers eip hv
  have hcode : numberText .X [] (code.toNat % 2 ^ 32) = digitsText 16 code.toNat := by
    rw [Nat.mod_eq_of_lt code.isLt, numberText, show (intOf 0 []).toNat = 0 from rfl, Nat.zero_sub]
    rfl
  rw [exception_handler_err, h4, h8, h12]
  refine (prints_eq [.text ['E', 'x', 'c', 'e', 'p', 't', 'i', 'o', 'n', ' ', '0', 'x'], .number .X [2],
    .text [' ', 'a', 't', ' '], .number .X [8],
    .text [',', ' ', 'e', 'r', 'r', 'o', 'r', ' ', 'c', 'o', 'd', 'e', ' ', '0', 'x'],
    .number .X [], .text ['\n']] rfl (by decide) rfl).trans ?_
  simp only [message, Part.chars, Part.takes, List.getD_cons_zero, List.getD_cons_succ, Nat.add_zero, hvec,
    heip, hcode, report, hk, List.append_assoc, List.append_nil]

/-! ## From the exception to the report -/

/-- The stubs expect an error code exactly where there is one. -/
theorem pushesCode_iff : ∀ v, v < 32 → stubKind v ≠ .res → (pushesCode v = true ↔ stubKind v = .err) := by
  decide

/-- What is on the stack when the C function is entered. -/
def faultFrame (v : Nat) (code link : BitVec 32) (c : Cpu) : List (BitVec 32) :=
  [c.eflags, c.cs, c.eip] ++ (if pushesCode v then [code] else []) ++ [BitVec.ofNat 32 v, link]

theorem faultFrame_length (v : Nat) (code link : BitVec 32) (c : Cpu) :
    (faultFrame v code link c).length = if pushesCode v then 6 else 5 := by
  rw [faultFrame]
  split <;> rfl

/-- The processor at its entry. -/
def atFault (g : Gate) (v : Nat) (code link : BitVec 32) (c : Cpu) : Cpu :=
  { c.pushes (faultFrame v code link c) with
    eip := g.offset
    cs := g.selector.setWidth 32
    eflags := gateFlags g.type c.eflags }

theorem pushed_eq (g : Gate) (v : Nat) (code link : BitVec 32) (c : Cpu) :
    ((interrupt g (if pushesCode v then some code else none) c).push (BitVec.ofNat 32 v)).push link =
      atFault g v code link c := by
  have hcode : (if pushesCode v then some code else none : Option (BitVec 32)).toList =
      if pushesCode v then [code] else [] := by
    split <;> rfl
  have hpush : ∀ t : Cpu, (t.push (BitVec.ofNat 32 v)).push link = t.pushes [BitVec.ofNat 32 v, link] :=
    fun _ => rfl
  rw [hpush, interrupt, pushes_with, hcode, ← pushes_append]
  rfl

theorem atFault_onStack {g : Gate} {link : BitVec 32} {c : Cpu} (hesp : 24 ≤ (c.reg .esp).toNat) :
    OnStack (faultFrame v code link c) c (atFault g v code link c) := by
  have hlen := faultFrame_length v code link c
  have h : OnStack (faultFrame v code link c) c (c.pushes (faultFrame v code link c)) := by
    refine onStack_pushes ?_
    rw [hlen]
    split <;> omega
  exact ⟨h.esp, h.reg, h.word, h.mem⟩

/-- The parameters are where the compiler looks for them. -/
theorem calledBy_said {g : Gate} {link : BitVec 32} {c : Cpu} {dev : Drivers} (hv : v < 32)
    (hk : stubKind v ≠ .res) (hesp : 24 ≤ (c.reg .esp).toNat) :
    calledBy D v ⟨atFault g v code link c, dev⟩ =
      some (Faulting.said D (report v c.eip code) ⟨atFault g v code link c, dev⟩) := by
  have hlen := faultFrame_length v code link c
  have htop : ∀ i, i < (faultFrame v code link c).length → (atFault g v code link c).top
      (4 * ((faultFrame v code link c).length - 1 - i)) = (faultFrame v code link c).getD i 0 := by
    refine fun i hi => (atFault_onStack hesp).top ?_ hi
    rw [hlen]
    split <;> omega
  cases hkind : stubKind v with
  | res => exact absurd hkind hk
  | err =>
    have hcode := (pushesCode_iff v hv hk).mpr hkind
    rw [hlen, hcode, faultFrame, hcode] at htop
    rw [calledBy, hkind]
    exact exception_handler_err_said hv hkind (htop 4 (by decide)) (htop 3 (by decide)) (htop 2 (by decide))
  | noerr =>
    have hcode : pushesCode v = false := Bool.eq_false_iff.mpr fun h => by
      rw [(pushesCode_iff v hv hk).mp h] at hkind
      cases hkind
    rw [hlen, hcode, faultFrame, hcode] at htop
    rw [calledBy, hkind]
    exact exception_handler_said hv hkind (htop 3 (by decide)) (htop 2 (by decide))

theorem gateFlags_if (eflags : BitVec 32) : (gateFlags interruptGate eflags).getLsbD 9 = false := by
  rw [gateFlags, if_pos rfl, BitVec.getLsbD_and, BitVec.getLsbD_not]
  simp

/-- **Reported.** For each of the 32 vectors, whatever the processor was doing, the gate leads to the
stub of that vector; what it prints is the report of that vector, of the instruction it happened at
and of the error code; and interrupts are off when it halts. `m` is memory at the call of the C
function: the frames of that function and of those it calls are not part of the model. -/
theorem exception_reported (A : BitVec 32) (isr_stub_table : Nat → BitVec 32) (keyboard_stub : BitVec 32)
    (m₀ : Mem) {v : Byte} (hv : v.toNat < 32) (code link : BitVec 32) {s : Faulting}
    (hidt : ∀ k, k < 8 * 256 →
      s.cpu.mem (A.toNat + k) = arch_idt A isr_stub_table keyboard_stub m₀ (A.toNat + k))
    (hesp : 24 ≤ (s.cpu.reg .esp).toNat) :
    ∃ s' m, except D A isr_stub_table v code link s = some s' ∧
      (∀ a, a < (s.cpu.reg .esp).toNat - 24 ∨ (s.cpu.reg .esp).toNat ≤ a → m a = s.cpu.mem a) ∧
      (s'.cpu.mem, s'.dev) =
        (report v.toNat s.cpu.eip code).foldl (fun t c => (i386 D).putc c t) (m, s.dev) ∧
      s'.cpu.eflags.getLsbD 9 = false := by
  have hgate : (idt_r A).gate s.cpu.mem v = some (kernelGate (isr_stub_table v.toNat)) := by
    have harch := arch_idt_gate A isr_stub_table keyboard_stub m₀ v
    rw [if_pos hv, idt_r_gate] at harch
    rw [idt_r_gate, ← harch]
    refine congrArg some (gateAt_congr fun k hk => ?_)
    rw [Nat.add_assoc]
    exact hidt _ (by omega)
  rw [except, hgate, Option.bind_some, if_pos ⟨rfl, rfl, rfl⟩]
  obtain ⟨g, hg, htype⟩ : ∃ g, kernelGate (isr_stub_table v.toNat) = g ∧ g.type = interruptGate :=
    ⟨_, rfl, rfl⟩
  have hif : (gateFlags g.type s.cpu.eflags).getLsbD 9 = false := htype ▸ gateFlags_if s.cpu.eflags
  rw [hg]
  by_cases hk : stubKind v.toNat = .res
  · have hstub : isr_stub v.toNat = [.hlt] := by rw [isr_stub, hk]
    have hle : 4 * ([s.cpu.eflags, s.cpu.cs, s.cpu.eip] ++
        (if pushesCode v.toNat then some code else none : Option (BitVec 32)).toList).length ≤ 16 := by
      split <;> simp
    have hframe := onStack_pushes (s := s.cpu) (hle.trans (by omega))
    rw [hstub]
    refine ⟨_, _, rfl, fun a ha => hframe.mem a (by omega), ?_, hif⟩
    rw [report, hk]
    rfl
  · have hstub : isr_stub v.toNat = [.push (BitVec.ofNat 32 v.toNat), .call, .addEsp 4, .hlt] := by
      rw [isr_stub]
      split
      · rename_i hres
        exact absurd hres hk
      · rfl
    have hlen := faultFrame_length v.toNat code link s.cpu
    have hframe := @atFault_onStack v.toNat code g link s.cpu hesp
    have hrun : ∀ c : Cpu, runStub (calledBy D v.toNat) link
        [.push (BitVec.ofNat 32 v.toNat), .call, .addEsp 4, .hlt] ⟨c, s.dev⟩ =
          (calledBy D v.toNat ⟨(c.push (BitVec.ofNat 32 v.toNat)).push link, s.dev⟩).bind
            (runStub (calledBy D v.toNat) link [.addEsp 4, .hlt]) := fun _ => rfl
    rw [hstub, hrun, pushed_eq, calledBy_said hv hk hesp]
    refine ⟨_, _, rfl, fun a ha => hframe.mem a ?_, rfl, hif⟩
    rw [hlen]
    split <;> omega

example : report 14 0x10500 2 = ['E', 'x', 'c', 'e', 'p', 't', 'i', 'o', 'n', ' ', '0', 'x', '0', 'E', ' ', 'a',
    't', ' ', '0', '0', '0', '1', '0', '5', '0', '0', ',', ' ', 'e', 'r', 'r', 'o', 'r', ' ', 'c', 'o', 'd', 'e',
    ' ', '0', 'x', '2', '\n'].map ch := by
  decide +kernel

def lowStubs (i : Nat) : BitVec 32 := 0x10100 + 8 * BitVec.ofNat 32 i

def lowTable : Mem := arch_idt 0x13000 lowStubs 0x10200 fun _ => 0

/-- In `kmain`, with the table at `0x13000`. -/
def faulting : Faulting := ⟨⟨fun _ => 0x12000, 0x10500, 8, 0x202, lowTable⟩, ⟨0, 0, 0, 0, 0⟩⟩

theorem exception_reported_page : ∃ s' m, except lowDrivers 0x13000 lowStubs 14 2 0x10180 faulting = some s' ∧
    (s'.cpu.mem, s'.dev) =
      (report 14 0x10500 2).foldl (fun t c => (i386 lowDrivers).putc c t) (m, faulting.dev) := by
  have hesp : (faulting.cpu.reg .esp).toNat = 0x12000 := rfl
  have hidt : faulting.cpu.mem = lowTable := by rw [faulting]
  obtain ⟨s', m, h, -, hprint, -⟩ := exception_reported (D := lowDrivers) 0x13000 lowStubs 0x10200
    (fun _ => 0) (v := 14) (by decide) 2 0x10180 (s := faulting) (fun k _ => by rw [hidt, lowTable])
    (by omega)
  exact ⟨s', m, h, hprint⟩

end Report

end Osdev2.I386
