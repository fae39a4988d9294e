import Osdev2.I386.Rollover

/-!
# Booting with the keyboard on (`kernel/kernel.c`)

`arch_init` ends with `sti`, so keyboard interrupts fall between any two
instructions of what `kmain` does next: print a line, clear `shellbuf`, print the
prompt. `bootFlow` is that code, the 256 stores of `memset` one by one and the
console's instructions as arbitrary changes of the console (`Fragment`); a
schedule of `Tick`s interleaves it with interrupts.

`shell_init` leaves `shellptr` alone, so a character typed before its cell is
cleared is lost while `shellptr` still counts it. `stamps` notes for each pending
character how many cells were cleared when it was typed; `boot_invariant_iff`:
the editor's invariant holds in the end exactly if each was typed into a cleared
cell.
-/

namespace Osdev2.I386

open Osdev2.Lib Osdev2.Libk Osdev2.Kernel

/-! ## The main flow and its interrupts -/

/-- An instruction of `printf` or `puts`. -/
structure Fragment where
  run : Mem × Drivers → Mem × Drivers
  frame : ∀ t a, ¬window a → (run t).1 a = t.1 a

theorem putc_outside (c : Byte) (t : Mem × Drivers) (a : Nat) (ha : ¬window a) :
    (ofVga t.2 (putc c (vgaOf t))).1 a = t.1 a :=
  putc_frame c (vgaOf t) ha

/-- A `putc` as one instruction. -/
def Fragment.putc (c : Byte) : Fragment where
  run t := ofVga t.2 (I386.putc c (vgaOf t))
  frame := putc_outside c

inductive Step where
  | console (f : Fragment)
  /-- `shellbuf[i] = 0`. -/
  | store (i : Nat)

def Step.isStore : Step → Bool
  | .console _ => false
  | .store _ => true

/-- A step of the main flow, or an interrupt with a scancode. -/
inductive Tick where
  | main
  | irq (sc : Byte)
  deriving DecidableEq

section Boot

variable {A : DriverAddresses} (L : Layout (i386 A))

/-- What is left of the main flow, and the machine. -/
structure Booting (A : DriverAddresses) where
  rest : List Step
  machine : Machine (i386 A)

def Step.exec (s : Machine (i386 A)) : Step → Machine (i386 A)
  | .console f => s.console f.run
  | .store i => s.write L (.shellbuf (BitVec.ofNat 8 i)) 0

/-- From `sti` to the end of `shell_init`. -/
def bootFlow (hello prompt : List Fragment) : List Step :=
  hello.map .console ++ ((List.range 256).map .store ++ prompt.map .console)

def bootStep (e : Tick) (b : Booting A) : Option (Booting A) :=
  match e with
  | .main =>
    match b.rest with
    | [] => none
    | st :: rest => some ⟨rest, st.exec L b.machine⟩
  | .irq sc => (keyboard L sc b.machine).map fun s => ⟨b.rest, s⟩

/-- The cells of `shellbuf` that have been cleared. -/
def wiped (rest : List Step) : Nat := 256 - rest.countP Step.isStore

/-- The stamps of the pending characters after a key, `k` cells being cleared. A recalled line is
typed at once. -/
def restamp (key : Key) (k : Nat) (v : View) (ss : List Nat) : List Nat :=
  match key with
  | .char _ => ss ++ [k]
  | .bcksp => ss.dropLast
  | .newline => []
  | .up | .down => List.replicate (v.step key .shellptr).toNat k

/-- The same after an interrupt. -/
def mark (sc : Byte) (b : Booting A) (ss : List Nat) : List Nat :=
  match called A b.machine.mem sc (keys b.machine) with
  | none => ss
  | some (c, kstate) => restamp ((i386 A).key c kstate) (wiped b.rest) (b.machine.read L) ss

/-- For each character pending after the schedule, how many cells were cleared when it was typed. -/
def stamps : List Tick → Booting A → List Nat → List Nat
  | [], _, ss => ss
  | e :: es, b, ss =>
    match bootStep L e b with
    | none => ss
    | some b' => stamps es b' (match e with
      | .main => ss
      | .irq sc => mark L sc b ss)

/-- A key that stays within the editor: a character that fits, a Backspace, an Enter that does not
poke the shell's own variables, the recall of a row that holds a line. -/
def Allowed (key : Key) (v : View) : Prop :=
  match key with
  | .char c => c ≠ 0 ∧ v .shellptr ≠ 255
  | .bcksp => True
  | .newline => View.Harmless L v.text
  | .up | .down => View.Guard L key v ∧ ∃ l, Pending (v.step key) l

/-- The key of the interrupt does. -/
def Within : Tick → Booting A → Prop
  | .main, _ => True
  | .irq sc, b => ∀ c kstate, called A b.machine.mem sc (keys b.machine) = some (c, kstate) →
    Allowed L ((i386 A).key c kstate) (b.machine.read L)

end Boot

/-! ## The flow is `kmain`'s -/

section Main

variable {A : DriverAddresses} {L : Layout (i386 A)}

def helloWorld : List Char := ['H', 'e', 'l', 'l', 'o', ' ', 'W', 'o', 'r', 'l', 'd', '!', '\n']

/-- `kmain` after `arch_init`, up to its idle loop. -/
def kmain (L : Layout (i386 A)) (s : Machine (i386 A)) : Option (Machine (i386 A)) :=
  (s.printf helloWorld []).bind (shell_init L)

def putcs (l : List Char) : List Fragment := l.map fun c => Fragment.putc (ch c)

/-- Its flow, each `putc` one step. -/
def kmainFlow : List Step := bootFlow (putcs helloWorld) (putcs ['>'])

theorem runs_flow (L : Layout (i386 A)) (rest : List Step) (s : Machine (i386 A)) :
    runs (bootStep L) (List.replicate rest.length .main) ⟨rest, s⟩ =
      some ⟨[], rest.foldl (Step.exec L) s⟩ := by
  induction rest generalizing s with
  | nil => rfl
  | cons st rest ih =>
    rw [List.length_cons, List.replicate_succ, runs_cons]
    exact ih (st.exec L s)

theorem foldl_putcs (l : List Char) (s : Machine (i386 A)) :
    ((putcs l).map Step.console).foldl (Step.exec L) s =
      s.console fun t => (l.map ch).foldl (fun t c => (i386 A).putc c t) t := by
  unfold putcs
  induction l generalizing s with
  | nil => rfl
  | cons c l ih =>
    rw [List.map_cons, List.map_cons, List.foldl_cons, ih]
    rfl

theorem foldl_store {n : Nat} (hn : n ≤ 256) (s : Machine (i386 A)) :
    ((List.range n).map Step.store).foldl (Step.exec L) s =
      { s with mem := memset L.shellbuf 0 s.mem n } := by
  induction n with
  | zero => rfl
  | succ n ih =>
    have haddr : L.addr (.shellbuf (BitVec.ofNat 8 n)) = L.shellbuf + n := by
      have hto : (BitVec.ofNat 8 n).toNat = n := by
        rw [BitVec.toNat_ofNat]
        omega
      rw [Addresses.addr, hto]
    rw [List.range_succ, List.map_append, List.foldl_append, ih (Nat.le_of_succ_le hn)]
    simp only [List.map_cons, List.map_nil, List.foldl_cons, List.foldl_nil, Step.exec, Machine.write,
      haddr, memset]

/-- **Without interrupts the flow computes `kmain`.** -/
theorem kmain_eq (L : Layout (i386 A)) (s : Machine (i386 A)) :
    (runs (bootStep L) (List.replicate kmainFlow.length .main) ⟨kmainFlow, s⟩).map Booting.machine =
      kmain L s := by
  rw [runs_flow, kmainFlow, bootFlow, List.foldl_append, List.foldl_append, foldl_putcs, foldl_putcs,
    foldl_store (Nat.le_refl 256), kmain, Machine.printf_eq (by decide) (by decide),
    Option.bind_some, shell_init, Machine.putsLit_eq (by decide) (by decide)]
  rfl

end Main

/-! ## Characters and the cells they were typed into -/

/-- `k` cells are cleared, and the variables hold the line `cs`, whose characters were typed when
`ss` cells were; a character whose cell was cleared after it is gone. -/
structure Stamped (k : Nat) (v : View) (cs : List Byte) (ss : List Nat) : Prop where
  ptr : (v .shellptr).toNat = ss.length
  length : cs.length = ss.length
  buf : ∀ i, v (.shellbuf i) =
    if ss.getD i.toNat 0 ≤ i.toNat ∧ i.toNat < k then 0 else cs.getD i.toNat 0
  noNul : ∀ c ∈ cs, c ≠ 0
  early : ∀ n ∈ ss, n ≤ k

namespace Stamped

variable {k : Nat} {v : View} {cs : List Byte} {ss : List Nat}

theorem tail_zero (h : Stamped k v cs ss) {i : Byte} (hi : ss.length ≤ i.toNat) :
    v (.shellbuf i) = 0 := by
  rw [h.buf, List.getD_eq_default cs _ (h.length ▸ hi), ite_self]

theorem terminated (h : Stamped k v cs ss) : v.Terminated :=
  ⟨v .shellptr, h.tail_zero (Nat.le_of_eq h.ptr.symm)⟩

/-- A line in a buffer of its own was typed all at once. -/
theorem of_pending {l : List Byte} (h : Pending v l) (k : Nat) :
    Stamped k v l (List.replicate l.length k) := by
  refine ⟨?_, ?_, fun i => ?_, h.noNul, fun n hn => Nat.le_of_eq (List.eq_of_mem_replicate hn)⟩
  · rw [h.ptr, List.length_replicate]
  · rw [List.length_replicate]
  · rw [h.buf]
    rcases Nat.lt_or_ge i.toNat l.length with hi | hi
    · rw [List.getD_eq_getElem _ _ (by simpa using hi), List.getD_eq_getElem _ _ (by simpa using hi),
        List.getElem_replicate, if_neg (by omega)]
    · rw [List.getD_eq_default _ _ hi, ite_self]

theorem append (h : Stamped k v cs ss) {c : Byte} (hc : c ≠ 0) (hp : v .shellptr ≠ 255) :
    Stamped k (v.append c) (cs ++ [c]) (ss ++ [k]) := by
  have hptr := h.ptr
  have hlt := (v .shellptr).isLt
  have h255 : (v .shellptr).toNat ≠ 255 := fun he => hp (BitVec.eq_of_toNat_eq he)
  refine ⟨?_, ?_, fun i => ?_, fun b hb => ?_, fun n hn => ?_⟩
  · rw [View.append, Function.update_of_ne (by simp), Function.update_self, BitVec.toNat_add,
      List.length_append, List.length_singleton, hptr, BitVec.toNat_ofNat]
    omega
  · rw [List.length_append, List.length_append, h.length]
    rfl
  · simp only [View.append, Function.update_apply, Static.shellbuf.injEq, reduceCtorEq, if_false]
    by_cases hi : i = v .shellptr
    · -- typed at stamp `k`, the character is still there
      rw [if_pos hi, hi, hptr, getD_concat, getD_concat, if_pos rfl, if_pos h.length.symm,
        if_neg (by omega)]
    · have hne : i.toNat ≠ ss.length := fun he => hi (BitVec.eq_of_toNat_eq (he.trans hptr.symm))
      have hne' : i.toNat ≠ cs.length := h.length ▸ hne
      rw [if_neg hi, h.buf, getD_concat, getD_concat, if_neg hne, if_neg hne']
  · rcases List.mem_append.mp hb with hb | hb
    · exact h.noNul b hb
    · rw [List.mem_singleton.mp hb]
      exact hc
  · rcases List.mem_append.mp hn with hn | hn
    · exact h.early n hn
    · exact Nat.le_of_eq (List.mem_singleton.mp hn)

theorem backspace (h : Stamped k v cs ss) :
    Stamped k v.backspace cs.dropLast ss.dropLast := by
  have hp := h.ptr
  have hq : (if 0 < (v .shellptr).toNat then v .shellptr - 1#8 else v .shellptr).toNat =
      ss.length - 1 := by
    rw [View.toNat_backspace, hp]
  simp only [View.backspace]
  generalize (if 0 < (v .shellptr).toNat then v .shellptr - 1#8 else v .shellptr) = q at hq
  refine ⟨?_, ?_, fun i => ?_, fun b hb => h.noNul b (List.mem_of_mem_dropLast hb),
    fun n hn => h.early n (List.mem_of_mem_dropLast hn)⟩
  · rw [Function.update_of_ne (by simp), Function.update_self, hq, List.length_dropLast]
  · rw [List.length_dropLast, List.length_dropLast, h.length]
  · simp only [Function.update_apply, Static.shellbuf.injEq, reduceCtorEq, if_false]
    by_cases hi : i = q
    · rw [if_pos hi, List.getD_eq_default cs.dropLast, ite_self]
      rw [List.length_dropLast, h.length, hi, hq]
    · have hne : i.toNat ≠ ss.length - 1 := fun he => hi (BitVec.eq_of_toNat_eq (he.trans hq.symm))
      rw [if_neg hi, h.buf, getD_dropLast ss 0 hne, getD_dropLast cs 0 (h.length ▸ hne)]

/-- One store of `memset`. -/
theorem clear (h : Stamped k v cs ss) (hk : k < 256) :
    Stamped (k + 1) (Function.update v (.shellbuf (BitVec.ofNat 8 k)) 0) cs ss := by
  have hto : (BitVec.ofNat 8 k).toNat = k := by
    rw [BitVec.toNat_ofNat]
    omega
  have hstamp : ss.getD k 0 ≤ k := by
    rcases Nat.lt_or_ge k ss.length with hlt | hge
    · rw [List.getD_eq_getElem _ _ hlt]
      exact h.early _ (List.getElem_mem hlt)
    · rw [List.getD_eq_default _ _ hge]
      exact Nat.zero_le k
  refine ⟨?_, h.length, fun i => ?_, h.noNul, fun n hn => Nat.le_succ_of_le (h.early n hn)⟩
  · rw [Function.update_of_ne (by simp)]
    exact h.ptr
  · rw [Function.update_apply]
    by_cases hi : i = BitVec.ofNat 8 k
    · rw [if_pos (congrArg _ hi), hi, hto, if_pos ⟨hstamp, Nat.lt_succ_self k⟩]
    · have hne : i.toNat ≠ k := fun he => hi (BitVec.eq_of_toNat_eq (he.trans hto.symm))
      rw [if_neg (by simpa using hi), h.buf]
      congr 1
      exact propext (and_congr_right fun _ => by omega)

/-- Every key of the editor keeps the line stamped, and its handler returns. -/
theorem step {A : DriverAddresses} {L : Layout (i386 A)} {key : Key} (h : Stamped k v cs ss)
    (hok : Allowed L key v) : View.Guard L key v ∧ (v.step key).Terminated ∧
      ∃ cs', Stamped k (v.step key) cs' (restamp key k v ss) := by
  cases key
  case newline =>
    have hp : Pending (v.step .newline) [] := Pending.nil rfl fun _ => rfl
    exact ⟨⟨h.terminated, hok⟩, hp.terminated, [], of_pending hp k⟩
  case bcksp => exact ⟨trivial, h.backspace.terminated, _, h.backspace⟩
  case up =>
    obtain ⟨hg, l, hl⟩ := hok
    refine ⟨hg, hl.terminated, l, ?_⟩
    rw [restamp, hl.ptr]
    exact of_pending hl k
  case down =>
    obtain ⟨hg, l, hl⟩ := hok
    refine ⟨hg, hl.terminated, l, ?_⟩
    rw [restamp, hl.ptr]
    exact of_pending hl k
  case char c =>
    have ha := h.append hok.1 hok.2
    exact ⟨trivial, ha.terminated, _, ha⟩

theorem pending_iff (h : Stamped 256 v cs ss) :
    (∃ l, Pending v l) ↔ ∀ i, i < ss.length → i < ss.getD i 0 := by
  have hbuf : ∀ i, i < 256 → v (.shellbuf (BitVec.ofNat 8 i)) =
      if ss.getD i 0 ≤ i then 0 else cs.getD i 0 := fun i hi => by
    have hto : (BitVec.ofNat 8 i).toNat = i := by
      rw [BitVec.toNat_ofNat]
      omega
    rw [h.buf, hto]
    simp only [hi, and_true]
  have hlen := h.ptr ▸ (v .shellptr).isLt
  constructor
  · rintro ⟨l, hl⟩ i hi
    have hil : i < l.length := by
      rw [← hl.ptr, h.ptr]
      exact hi
    have hto : (BitVec.ofNat 8 i).toNat = i := by
      rw [BitVec.toNat_ofNat]
      omega
    by_contra hle
    have hz := hbuf i (by omega)
    rw [if_pos (Nat.le_of_not_lt hle), hl.buf, hto, List.getD_eq_getElem _ _ hil] at hz
    exact hl.noNul _ (List.getElem_mem hil) hz
  · intro hall
    refine ⟨cs, h.ptr.trans h.length.symm, fun i => ?_, h.noNul⟩
    have hi := i.isLt
    rw [h.buf]
    rcases Nat.lt_or_ge i.toNat ss.length with hlt | hge
    · rw [if_neg fun hc => absurd (hall _ hlt) (Nat.not_lt_of_le hc.1)]
    · rw [List.getD_eq_default cs _ (h.length ▸ hge), ite_self]

end Stamped

/-! ## The invariant of the boot -/

section Invariant

variable {A : DriverAddresses} {L : Layout (i386 A)} {b : Booting A} {cs : List Byte} {ss : List Nat}

/-- The rest of the flow once `k` cells are cleared. -/
def flowFrom (pre : List Fragment) (k : Nat) (post : List Fragment) : List Step :=
  pre.map .console ++ ((List.range' k (256 - k)).map .store ++ post.map .console)

theorem wiped_flowFrom (pre post : List Fragment) {k : Nat} (hk : k ≤ 256) :
    wiped (flowFrom pre k post) = k := by
  have hconsole : ∀ fs : List Fragment, (fs.map Step.console).countP Step.isStore = 0 := fun fs => by
    rw [List.countP_map]
    exact List.countP_eq_zero.mpr fun f _ h => by cases h
  have hstore : ∀ l : List Nat, (l.map Step.store).countP Step.isStore = l.length := fun l => by
    rw [List.countP_map]
    exact List.countP_eq_length.mpr fun i _ => rfl
  unfold wiped flowFrom
  rw [List.countP_append, List.countP_append, hconsole, hconsole, hstore, List.length_range']
  omega

/-- The machine holds the line `cs` with its stamps `ss`, as far as the flow has come. -/
structure Inv (L : Layout (i386 A)) (b : Booting A) (cs : List Byte) (ss : List Nat) : Prop where
  flow : ∃ pre post, b.rest = flowFrom pre (wiped b.rest) post ∧ (pre = [] ∨ wiped b.rest = 0)
  stamped : Stamped (wiped b.rest) (b.machine.read L) cs ss

theorem Inv.intro {pre post : List Fragment} {k : Nat} (hrest : b.rest = flowFrom pre k post)
    (hk : k ≤ 256) (hpre : pre = [] ∨ k = 0) (h : Stamped k (b.machine.read L) cs ss) :
    Inv L b cs ss := by
  have hw : wiped b.rest = k := by rw [hrest, wiped_flowFrom _ _ hk]
  exact ⟨⟨pre, post, by rw [hw]; exact hrest, by rw [hw]; exact hpre⟩, by rw [hw]; exact h⟩

theorem wiped_le (rest : List Step) : wiped rest ≤ 256 := Nat.sub_le _ _

theorem read_console (f : Fragment) (s : Machine (i386 A)) : ((Step.console f).exec L s).read L = s.read L :=
  funext fun x => f.frame (s.mem, s.dev) _ (L.outside x)

theorem Inv.main (h : Inv L b cs ss) (hrest : b.rest ≠ []) :
    ∃ b', bootStep L .main b = some b' ∧ b'.rest = b.rest.tail ∧ Inv L b' cs ss := by
  obtain ⟨pre, post, hflow, hpre⟩ := h.flow
  have hs := h.stamped
  have hk := wiped_le b.rest
  generalize wiped b.rest = k at hflow hpre hs hk
  obtain ⟨rest, s⟩ := b
  simp only at hflow hs hrest
  subst hflow
  cases pre with
  | cons f pre =>
    -- the first line is being printed
    refine ⟨⟨flowFrom pre k post, (Step.console f).exec L s⟩, rfl, rfl, ?_⟩
    refine Inv.intro rfl hk (Or.inr ?_) ?_
    · exact hpre.resolve_left (List.cons_ne_nil f pre)
    · rw [read_console]
      exact hs
  | nil =>
    rcases Nat.lt_or_ge k 256 with hlt | hge
    · -- `memset` clears cell `k`
      have hflow : flowFrom [] k post = .store k :: flowFrom [] (k + 1) post := by
        unfold flowFrom
        rw [show 256 - k = (256 - (k + 1)) + 1 by omega, List.range'_succ]
        rfl
      rw [hflow]
      refine ⟨⟨flowFrom [] (k + 1) post, (Step.store k).exec L s⟩, rfl, rfl, ?_⟩
      refine Inv.intro rfl hlt (Or.inl rfl) ?_
      have hread : ((Step.store k).exec L s).read L = _ := s.read_write _ _
      rw [hread]
      exact hs.clear hlt
    · obtain rfl : k = 256 := Nat.le_antisymm hk hge
      cases post with
      | nil => exact absurd rfl hrest
      | cons f post =>
        -- the prompt is being printed
        refine ⟨⟨flowFrom [] 256 post, (Step.console f).exec L s⟩, rfl, rfl, ?_⟩
        refine Inv.intro rfl hk (Or.inl rfl) ?_
        rw [read_console]
        exact hs

theorem Inv.irq {sc : Byte} (h : Inv L b cs ss) (hw : Within L (.irq sc) b) :
    ∃ s' cs', bootStep L (.irq sc) b = some ⟨b.rest, s'⟩ ∧
      Inv L ⟨b.rest, s'⟩ cs' (mark L sc b ss) := by
  have hs := h.stamped
  simp only [bootStep, mark, keyboard_eq]
  cases hcall : called A b.machine.mem sc (keys b.machine) with
  | none => exact ⟨_, cs, rfl, h.flow, hs⟩
  | some ck =>
    obtain ⟨c, kstate⟩ := ck
    rw [← read_setKeys ((keys b.machine).next sc).kstate ((keys b.machine).next sc).extended] at hs
    obtain ⟨hg, ht, cs', hstep⟩ := hs.step (hw c kstate hcall)
    obtain ⟨s', hs', hread⟩ := kcallback_step hg ht
    refine ⟨s', cs', ?_, h.flow, ?_⟩
    · simp only [hs', Option.map_some]
    · rw [hread]
      exact hstep

theorem boot_stamped {es : List Tick} (h : Inv L b cs ss) (hok : AtEvery (bootStep L) (Within L) es b)
    (hall : es.count .main = b.rest.length) :
    ∃ t cs', runs (bootStep L) es b = some ⟨[], t⟩ ∧
      Stamped 256 (t.read L) cs' (stamps L es b ss) := by
  induction es generalizing b cs ss with
  | nil =>
    obtain ⟨rest, s⟩ := b
    obtain rfl : rest = [] := List.length_eq_zero_iff.mp hall.symm
    exact ⟨s, cs, rfl, h.stamped⟩
  | cons e es ih =>
    obtain ⟨hw, hrest⟩ := atEvery_cons hok
    cases e with
    | main =>
      rw [List.count_cons_self] at hall
      obtain ⟨b', hb', htail, hinv⟩ := h.main fun h0 => by
        rw [h0] at hall
        cases hall
      obtain ⟨t, cs', hrun, hfinal⟩ := ih hinv (hrest b' hb') (by
        rw [htail, List.length_tail, ← hall]
        rfl)
      refine ⟨t, cs', ?_, ?_⟩
      · rw [runs_cons, hb']
        exact hrun
      · unfold stamps
        rw [hb']
        exact hfinal
    | irq sc =>
      rw [List.count_cons_of_ne (by simp)] at hall
      obtain ⟨s', cs₁, hb', hinv⟩ := h.irq hw
      obtain ⟨t, cs', hrun, hfinal⟩ := ih hinv (hrest _ hb') hall
      refine ⟨t, cs', ?_, ?_⟩
      · rw [runs_cons, hb']
        exact hrun
      · unfold stamps
        rw [hb']
        exact hfinal

theorem Inv.start (hello prompt : List Fragment) {s : Machine (i386 A)} (h0 : Pending (s.read L) []) :
    Inv L ⟨bootFlow hello prompt, s⟩ [] [] := by
  have hflow : bootFlow hello prompt = flowFrom hello 0 prompt := by
    unfold bootFlow flowFrom
    rw [List.range_eq_range']
  exact Inv.intro hflow (Nat.zero_le _) (Or.inr rfl) (Stamped.of_pending h0 0)

/-- **Interrupts during the boot.** Whichever way interrupts fall between the steps from `sti` to
the end of `shell_init`, as long as each stays within the editor, the boot ends; and then
`shellbuf` and `shellptr` hold a line exactly if the cell of each character pending had been
cleared when it was typed. -/
theorem boot_invariant_iff {hello prompt : List Fragment} {es : List Tick} {s : Machine (i386 A)}
    (h0 : Pending (s.read L) [])
    (hok : AtEvery (bootStep L) (Within L) es ⟨bootFlow hello prompt, s⟩)
    (hall : es.count .main = (bootFlow hello prompt).length) :
    ∃ t, runs (bootStep L) es ⟨bootFlow hello prompt, s⟩ = some ⟨[], t⟩ ∧
      ((∃ l, Pending (t.read L) l) ↔
        ∀ i, i < (stamps L es ⟨bootFlow hello prompt, s⟩ []).length →
          i < (stamps L es ⟨bootFlow hello prompt, s⟩ []).getD i 0) := by
  obtain ⟨t, cs, hrun, hst⟩ := boot_stamped (Inv.start hello prompt h0) hok hall
  exact ⟨t, hrun, hst.pending_iff⟩

end Invariant

/-! ## A key before the clearing -/

section EarlyKey

theorem stamps_main {A : DriverAddresses} (L : Layout (i386 A)) (n : Nat) (b : Booting A) (ss : List Nat) :
    stamps L (List.replicate n .main) b ss = ss := by
  induction n generalizing b with
  | zero => rfl
  | succ n ih =>
    rw [List.replicate_succ, stamps]
    cases bootStep L .main b with
    | none => rfl
    | some b' => exact ih b'

/-- `A` pressed before the flow goes on. -/
def earlyKey : List Tick := .irq 0x1E#8 :: List.replicate kmainFlow.length .main

theorem earlyKey_called : called lowDrivers cleared.mem 0x1E#8 (keys cleared) = some (ch 'a', 0) := rfl

theorem earlyKey_within :
    AtEvery (bootStep lowLayout) (Within lowLayout) earlyKey ⟨kmainFlow, cleared⟩ := by
  intro pre e b hp hrun
  cases pre with
  | nil =>
    obtain ⟨rfl, -⟩ := List.cons_prefix_cons.mp hp
    cases hrun
    intro c kstate hcall
    obtain ⟨rfl, rfl⟩ := Prod.mk.inj (Option.some.inj (earlyKey_called.symm.trans hcall))
    exact ⟨by decide, by decide⟩
  | cons e' pre =>
    have hmem : e ∈ List.replicate kmainFlow.length Tick.main :=
      (List.cons_prefix_cons.mp hp).2.subset (by simp)
    rw [List.eq_of_mem_replicate hmem]
    trivial

theorem earlyKey_count : earlyKey.count .main = kmainFlow.length := by
  rw [earlyKey, List.count_cons_of_ne (by simp), List.count_replicate_self]

theorem earlyKey_stamps : stamps lowLayout earlyKey ⟨kmainFlow, cleared⟩ [] = [0] := by
  obtain ⟨s', cs, hb, -⟩ := (Inv.start (L := lowLayout) (putcs helloWorld) (putcs ['>'])
    cleared_pending).irq (atEvery_cons earlyKey_within).1
  have hb : bootStep lowLayout (.irq 0x1E#8) ⟨kmainFlow, cleared⟩ = some ⟨kmainFlow, s'⟩ := hb
  have hmark : mark lowLayout 0x1E#8 ⟨kmainFlow, cleared⟩ [] = [0] := by
    have hw : wiped kmainFlow = 0 := by
      unfold kmainFlow bootFlow
      rw [List.range_eq_range']
      exact wiped_flowFrom _ _ (Nat.zero_le 256)
    unfold mark
    rw [earlyKey_called]
    simp only [hw]
    rfl
  rw [earlyKey, stamps, hb]
  simp only [hmark]
  exact stamps_main _ _ _ _

theorem boot_invariant_iff_earlyKey : ∃ t,
    runs (bootStep lowLayout) earlyKey ⟨bootFlow (putcs helloWorld) (putcs ['>']), cleared⟩ =
        some ⟨[], t⟩ ∧
      ((∃ l, Pending (t.read lowLayout) l) ↔
        ∀ i, i < (stamps lowLayout earlyKey ⟨bootFlow (putcs helloWorld) (putcs ['>']), cleared⟩
          []).length → i < (stamps lowLayout earlyKey
            ⟨bootFlow (putcs helloWorld) (putcs ['>']), cleared⟩ []).getD i 0) :=
  boot_invariant_iff cleared_pending earlyKey_within earlyKey_count

/-- The `A` counts, but its cell is cleared after it. -/
theorem boot_loses_key : ∃ t,
    runs (bootStep lowLayout) earlyKey ⟨kmainFlow, cleared⟩ = some ⟨[], t⟩ ∧
      ∀ l, ¬Pending (t.read lowLayout) l := by
  obtain ⟨t, cs, hrun, hst⟩ := boot_stamped (Inv.start (putcs helloWorld) (putcs ['>'])
    cleared_pending) earlyKey_within earlyKey_count
  refine ⟨t, hrun, fun l hl => ?_⟩
  have hall := hst.pending_iff.mp ⟨l, hl⟩
  rw [show bootFlow (putcs helloWorld) (putcs ['>']) = kmainFlow from rfl, earlyKey_stamps] at hall
  exact absurd (hall 0 (by decide)) (by decide)

end EarlyKey

end Osdev2.I386
