import Osdev2.Lib.Traced
import Osdev2.Kernel.Poke
import Osdev2.Libk.RoundTrip
import Osdev2.Aarch64.Platform

/-!
# What the shell does with pointers

The functions of `shell.c` again, logging what `shell_proc` does with the pointers it
has: a string handed to `strcmp`, `strtoul` or a `%s`, and a byte read or written at a
typed address (`Use`). Without the log they are the functions of `Shell.lean`
(`erase_newline`).

`null_tokens_iff`: no NULL is handed on exactly if the line has a word.
`addresses_intact_iff`: `peek` and `poke` access the byte whose address is typed exactly
if the address survives the `int` it is kept in.
-/

namespace Osdev2.Kernel

open Osdev2.Lib Osdev2.Libk

inductive Use where
  | strcmp (p : Nat)
  | strtoul (p : Nat)
  /-- The argument of a `%s`. -/
  | string (p : Nat)
  | load (a : Nat)
  | store (a : Nat) (v : Byte)
  deriving DecidableEq

abbrev Logged (P : Platform) := Traced (Machine P) Empty Use

namespace Logged

variable {P : Platform} {α β : Type}

def use (u : Use) : Logged P Unit := fun s => some (.ok (), s, [u])

/-- A function with a result. -/
def call (f : Machine P → Option (α × Machine P)) : Logged P α := fun s =>
  (f s).map fun t => (.ok t.1, t.2, [])

def run (f : Machine P → Option (Machine P)) : Logged P Unit := fun s =>
  (f s).map fun t => (.ok (), t, [])

/-! ## The functions -/

def strcmp (p : Nat) (l : List Char) : Logged P Int := do
  use (.strcmp p)
  call fun s => (Libk.strcmp P.W (s.mem.at P.W p) (lit l)).map (·, s)

def shell_hash (cmd : Nat) : Logged P Byte := do
  if (← strcmp cmd ['p', 'e', 'e', 'k']) = 0 then return CMD_PEEK
  else if (← strcmp cmd ['p', 'o', 'k', 'e']) = 0 then return CMD_POKE
  else return 0#8

def parseInt (arg : Nat) : Logged P (BitVec 32) := do
  use (.strtoul arg)
  call fun s => (Kernel.parseInt P.W (s.mem.at P.W arg)).map (·, s)

def cmd_peek : Logged P Unit := do
  let arg ← call (Machine.strtok 0)
  if arg = 0 then
    run (Machine.printf ['U', 's', 'a', 'g', 'e', ':', ' ', 'p', 'e', 'e', 'k', ' ', '<', 'l', 'o', 'c', 'a',
      't', 'i', 'o', 'n', '>'] [])
  else
    let mem ← parseInt arg
    use (.load (intPtr P.W mem))
    run fun s => s.printf ['%', '0', '8', 'X', ':', ' ', '%', '0', '2', 'X']
      [mem.toNat, (s.mem (intPtr P.W mem)).toNat]

def cmd_poke : Logged P Unit := do
  let arg ← call (Machine.strtok 0)
  if arg = 0 then run usage_poke
  else
    let mem ← parseInt arg
    let arg ← call (Machine.strtok 0)
    if arg = 0 then run usage_poke
    else
      let val ← parseInt arg
      run (Machine.printf ['%', '0', '8', 'X', ' ', '=', ' ', '%', '0', '2', 'X'] [mem.toNat, val.toNat])
      use (.store (intPtr P.W mem) (val.setWidth 8))
      run fun s => some (s.poke (intPtr P.W mem) (val.setWidth 8))

/-- The `switch` of `shell_proc`. -/
def dispatch (word : Nat) : Logged P Unit := do
  let cmd ← shell_hash word
  if cmd = CMD_PEEK then cmd_peek
  else if cmd = CMD_POKE then cmd_poke
  else
    use (.string word)
    run (Machine.printf ['U', 'n', 'k', 'n', 'o', 'w', 'n', ' ', 'c', 'o', 'm', 'm', 'a', 'n', 'd', ':', ' ',
      '%', 's'] [word])

variable (L : Layout P)

def shell_command : Logged P Unit := do
  let word ← call (Machine.strtok L.shellbuf)
  dispatch word

def shell_proc : Logged P Unit := do
  shell_command L
  run (Machine.printf ['\n'] [])
  run fun s => some (shell_record L s)

/-- The console has moved to the next line. -/
def atNewline (s : Machine P) : Machine P := (s.setpos_x 0).putc (ch '\n')

/-- `kcallback` at a newline. -/
def newline : Logged P Unit := do
  run fun s => some (atNewline s)
  shell_proc L
  run (Machine.putsLit ['>'])

/-! ## Without the log -/

def value : Except Empty α → α
  | .ok a => a

/-- The result and the machine after. -/
def erase (x : Logged P α) (s : Machine P) : Option (α × Machine P) :=
  (x s).map fun t => (value t.1, t.2.1)

theorem erase_use (u : Use) (s : Machine P) : erase (use u) s = some ((), s) := rfl

theorem erase_call (f : Machine P → Option (α × Machine P)) (s : Machine P) : erase (call f) s = f s := by
  rw [erase, call]
  cases f s <;> rfl

theorem erase_run (f : Machine P → Option (Machine P)) (s : Machine P) :
    erase (run f) s = (f s).map ((), ·) := by
  rw [erase, run]
  cases f s <;> rfl

theorem erase_bind (x : Logged P α) (f : α → Logged P β) (s : Machine P) :
    erase (x >>= f) s = (erase x s).bind fun t => erase (f t.1) t.2 := by
  rcases hx : x s with _ | ⟨e | a, t, l⟩
  · rw [erase, erase, Traced.bind_none hx, hx]
    rfl
  · exact nomatch e
  · rw [erase, erase, Traced.bind_ok hx, hx]
    change _ = erase (f a) t
    rw [erase]
    cases f a t <;> rfl

theorem erase_ite {c : Prop} [Decidable c] (x y : Logged P α) (s : Machine P) :
    erase (if c then x else y) s = if c then erase x s else erase y s := by
  split <;> rfl

theorem erase_strcmp (p : Nat) (l : List Char) (s : Machine P) : erase (strcmp p l) s =
    (Libk.strcmp P.W (s.mem.at P.W p) (lit l)).map (·, s) := by
  rw [strcmp, erase_bind, erase_use, Option.bind_some, erase_call]

theorem erase_shell_hash (cmd : Nat) (s : Machine P) : erase (shell_hash cmd) s =
    (Kernel.shell_hash P.W (s.mem.at P.W cmd)).map (·, s) := by
  rw [shell_hash, Kernel.shell_hash, erase_bind, erase_strcmp]
  rcases Libk.strcmp P.W (s.mem.at P.W cmd) (lit ['p', 'e', 'e', 'k']) with _ | r
  · rfl
  simp only [Option.map_some, Option.bind_some, Option.bind_eq_bind, erase_ite]
  split
  · rfl
  rw [erase_bind, erase_strcmp]
  rcases Libk.strcmp P.W (s.mem.at P.W cmd) (lit ['p', 'o', 'k', 'e']) with _ | r
  · rfl
  simp only [Option.map_some, Option.bind_some, erase_ite]
  split <;> rfl

theorem erase_parseInt (arg : Nat) (s : Machine P) : erase (parseInt arg) s =
    (Kernel.parseInt P.W (s.mem.at P.W arg)).map (·, s) := by
  rw [parseInt, erase_bind, erase_use, Option.bind_some, erase_call]

theorem erase_cmd_peek (s : Machine P) : erase cmd_peek s = (Kernel.cmd_peek s).map ((), ·) := by
  rw [cmd_peek, Kernel.cmd_peek, erase_bind, erase_call]
  rcases s.strtok 0 with _ | ⟨arg, s⟩
  · rfl
  simp only [Option.bind_some, Option.bind_eq_bind, erase_ite]
  split
  · exact erase_run _ s
  rw [erase_bind, erase_parseInt]
  rcases Kernel.parseInt P.W (s.mem.at P.W arg) with _ | mem
  · rfl
  simp only [Option.map_some, Option.bind_some, erase_bind, erase_use]
  exact erase_run _ s

theorem erase_cmd_poke (s : Machine P) : erase cmd_poke s = (Kernel.cmd_poke s).map ((), ·) := by
  rw [cmd_poke, Kernel.cmd_poke, erase_bind, erase_call]
  rcases s.strtok 0 with _ | ⟨arg, s⟩
  · rfl
  simp only [Option.bind_some, Option.bind_eq_bind, erase_ite]
  split
  · exact erase_run _ s
  rw [erase_bind, erase_parseInt]
  rcases Kernel.parseInt P.W (s.mem.at P.W arg) with _ | mem
  · rfl
  simp only [Option.map_some, Option.bind_some, erase_bind, erase_call]
  rcases s.strtok 0 with _ | ⟨arg, s⟩
  · rfl
  simp only [Option.bind_some, erase_ite]
  split
  · exact erase_run _ s
  rw [erase_bind, erase_parseInt]
  rcases Kernel.parseInt P.W (s.mem.at P.W arg) with _ | val
  · rfl
  simp only [Option.map_some, Option.bind_some, erase_bind, erase_run, erase_use]
  rcases s.printf ['%', '0', '8', 'X', ' ', '=', ' ', '%', '0', '2', 'X'] [mem.toNat, val.toNat] with _ | s
  · rfl
  · rfl

theorem erase_shell_command (s : Machine P) :
    erase (shell_command L) s = (Kernel.shell_command L s).map ((), ·) := by
  rw [shell_command, Kernel.shell_command, erase_bind, erase_call]
  rcases s.strtok L.shellbuf with _ | ⟨word, s⟩
  · rfl
  simp only [Option.bind_some, Option.bind_eq_bind, dispatch, erase_bind, erase_shell_hash]
  rcases Kernel.shell_hash P.W (s.mem.at P.W word) with _ | cmd
  · rfl
  simp only [Option.map_some, Option.bind_some, erase_ite]
  split
  · exact erase_cmd_peek s
  split
  · exact erase_cmd_poke s
  rw [erase_bind, erase_use, Option.bind_some]
  exact erase_run _ s

theorem erase_shell_proc (s : Machine P) :
    erase (shell_proc L) s = (Kernel.shell_proc L s).map ((), ·) := by
  rw [shell_proc, Kernel.shell_proc, erase_bind, erase_shell_command]
  rcases Kernel.shell_command L s with _ | s
  · rfl
  simp only [Option.map_some, Option.bind_some, Option.bind_eq_bind, erase_bind, erase_run]
  rcases s.printf ['\n'] [] with _ | s
  · rfl
  · rfl

/-- **The log changes nothing.** -/
theorem erase_newline (kstate : Byte) (s : Machine P) :
    erase (newline L) s = (kcallback L (ch '\n') kstate s).map ((), ·) := by
  rw [newline, kcallback, if_pos rfl, erase_bind, erase_run, Option.map_some, Option.bind_some, erase_bind,
    erase_shell_proc, atNewline]
  rcases Kernel.shell_proc L ((s.setpos_x 0).putc (ch '\n')) with _ | s
  · rfl
  simp only [Option.map_some, Option.bind_some, Option.bind_eq_bind]
  exact erase_run _ s

theorem exists_of_erase {x : Logged P α} {s s' : Machine P} {a : α} (h : erase x s = some (a, s')) :
    ∃ uses, x s = some (.ok a, s', uses) := by
  unfold erase at h
  obtain ⟨⟨e | b, t, uses⟩, hx, heq⟩ := Option.map_eq_some_iff.mp h
  · exact nomatch e
  · obtain ⟨rfl, rfl⟩ := Prod.mk.inj heq
    exact ⟨uses, hx⟩

/-! ## What all runs do -/

/-- All that a program does is `ok`. -/
abbrev Only (ok : Use → Prop) (x : Logged P α) : Prop := Keeps (fun _ _ uses => ∀ u ∈ uses, ok u) x

section Only

variable {ok : Use → Prop}

theorem Only.bind {x : Logged P α} {f : α → Logged P β} (hx : Only ok x) (hf : ∀ a, Only ok (f a)) :
    Only ok (x >>= f) :=
  Keeps.bind (fun _ _ _ _ _ h h' => List.forall_mem_append.mpr ⟨h, h'⟩) hx hf

theorem only_pure (a : α) : Only ok (pure a : Logged P α) := by
  rintro s r s' uses ⟨⟩
  exact List.forall_mem_nil _

theorem only_use {u : Use} (h : ok u) : Only ok (use u : Logged P Unit) := by
  rintro s r s' uses ⟨⟩
  exact List.forall_mem_singleton.mpr h

theorem only_call (f : Machine P → Option (α × Machine P)) : Only ok (call f) := by
  intro s r s' uses h
  obtain ⟨t, -, ⟨⟩⟩ := Option.map_eq_some_iff.mp h
  exact List.forall_mem_nil _

theorem only_run (f : Machine P → Option (Machine P)) : Only ok (run f) := by
  intro s r s' uses h
  obtain ⟨t, -, ⟨⟩⟩ := Option.map_eq_some_iff.mp h
  exact List.forall_mem_nil _

theorem only_strcmp {p : Nat} (h : ok (.strcmp p)) (l : List Char) : Only ok (strcmp p l : Logged P Int) :=
  (only_use h).bind fun _ => only_call _

theorem only_shell_hash {cmd : Nat} (h : ok (.strcmp cmd)) : Only ok (shell_hash cmd : Logged P Byte) :=
  (only_strcmp h _).bind fun _ => Keeps.ite (only_pure _) <|
    (only_strcmp h _).bind fun _ => Keeps.ite (only_pure _) (only_pure _)

theorem only_parseInt {arg : Nat} (h : ok (.strtoul arg)) : Only ok (parseInt arg : Logged P (BitVec 32)) :=
  (only_use h).bind fun _ => only_call _

/-- What is done with a token is guarded by a test for NULL. -/
theorem only_checked {arg : Nat} {x y : Logged P α} (hx : Only ok x) (hy : arg ≠ 0 → Only ok y) :
    Only ok (if arg = 0 then x else y) := by
  split
  · exact hx
  · rename_i h
    exact hy h

end Only

end Logged

/-! ## Null pointers -/

def Use.NonNull : Use → Prop
  | .strcmp p | .strtoul p | .string p => p ≠ 0
  | .load _ | .store _ _ => True

namespace Logged

variable {P : Platform} {α β : Type} {L : Layout P} {s : Machine P}

theorem cmd_peek_nonNull : Only Use.NonNull (cmd_peek : Logged P Unit) :=
  (only_call _).bind fun _ => only_checked (only_run _) fun h =>
    (only_parseInt h).bind fun _ => (only_use trivial).bind fun _ => only_run _

theorem cmd_poke_nonNull : Only Use.NonNull (cmd_poke : Logged P Unit) :=
  (only_call _).bind fun _ => only_checked (only_run _) fun h =>
    (only_parseInt h).bind fun _ => (only_call _).bind fun _ => only_checked (only_run _) fun h =>
      (only_parseInt h).bind fun _ => (only_run _).bind fun _ =>
        (only_use trivial).bind fun _ => only_run _

theorem dispatch_nonNull {word : Nat} (hp : word ≠ 0) : Only Use.NonNull (dispatch word : Logged P Unit) :=
  (only_shell_hash hp).bind fun _ => Keeps.ite cmd_peek_nonNull <| Keeps.ite cmd_poke_nonNull <|
    (only_use hp).bind fun _ => only_run _

/-- After the command. -/
def finish (L : Layout P) : Logged P Unit := do
  run (Machine.printf ['\n'] [])
  run fun s => some (shell_record L s)
  run (Machine.putsLit ['>'])

theorem newline_eq {s' : Machine P} {word : Nat} (h : (atNewline s).strtok L.shellbuf = some (word, s')) :
    newline L s = (dispatch word >>= fun _ => finish L) s' := by
  have h1 : run (fun s => some (atNewline s)) s = some (.ok (), atNewline s, []) := rfl
  have h2 : call (Machine.strtok L.shellbuf) (atNewline s) = some (.ok word, s', []) := by
    rw [call, h]
    rfl
  rw [newline, Traced.bind_quiet h1, shell_proc, shell_command]
  simp only [bind_assoc]
  rw [Traced.bind_quiet h2]
  rfl

/-- The submission of a terminated line returns. -/
theorem newline_returns (ht : (s.read L).Terminated) :
    ∃ s' uses, newline L s = some (.ok (), s', uses) := by
  have hread : (atNewline s).read L = s.read L := s.newline_quiet.read
  obtain ⟨s1, hs1, -⟩ := shell_proc_writes (hread ▸ ht)
  obtain ⟨s2, hs2, -⟩ := Machine.putsLit_returns (l := ['>']) (by decide) s1
  have he : erase (newline L) s = some ((), s2) := by
    rw [erase_newline _ 0, kcallback, if_pos rfl]
    change ((Kernel.shell_proc L (atNewline s)).bind fun s => s.putsLit ['>']).map _ = _
    rw [hs1, Option.bind_some, hs2]
    rfl
  obtain ⟨uses, hu⟩ := exists_of_erase he
  exact ⟨s2, uses, hu⟩

/-- The submission returns, and no NULL is handed to `strcmp`, `strtoul` or a `%s`. -/
def NeverNull (L : Layout P) (s : Machine P) : Prop :=
  ∃ s' uses, newline L s = some (.ok (), s', uses) ∧ ∀ u ∈ uses, u.NonNull

theorem first_word (ht : (s.read L).Terminated) :
    ∃ word s', (atNewline s).strtok L.shellbuf = some (word, s') ∧
      (word = 0 ↔ words (s.read L).text = []) := by
  have hread : (atNewline s).read L = s.read L := s.newline_quiet.read
  have hp : (if L.shellbuf = 0 then (atNewline s).olds else L.shellbuf) =
      L.shellbuf + ([] : List Byte).length := if_neg (by have := L.nonnull; omega)
  obtain ⟨word, s', hs', -, -, hnull, htok⟩ := (tokenised_refl (hread ▸ ht)).strtok hp
  rw [hread] at hnull htok
  have hw : words (s.read L).text = _ := words_next ⟨[], (s.read L).text⟩
  refine ⟨word, s', hs', ?_⟩
  rw [hw]
  by_cases he : (nextWord ⟨[], (s.read L).text⟩).1 = []
  · rw [if_pos he]
    exact iff_of_true (hnull he) rfl
  · rw [if_neg he]
    exact iff_of_false (htok he).1 (List.cons_ne_nil _ _)

/-- The first thing done with the first word is to compare it. -/
theorem words_of_neverNull (ht : (s.read L).Terminated) (h : NeverNull L s) :
    words (s.read L).text ≠ [] := by
  obtain ⟨word, s', hs', hiff⟩ := first_word ht
  rw [Ne, ← hiff]
  rintro rfl
  obtain ⟨s2, uses, hrun, hall⟩ := h
  rw [newline_eq hs', dispatch, shell_hash, strcmp] at hrun
  simp only [bind_assoc] at hrun
  rcases bind_eq_some hrun with ⟨e, he, -⟩ | ⟨a, t, l, l', hu, -, rfl⟩
  · exact nomatch e
  · cases hu
    exact hall (.strcmp 0) List.mem_cons_self rfl

/-- **Null tokens.** The submission of a terminated line hands on no NULL exactly if the line has a
word. -/
theorem null_tokens_iff (ht : (s.read L).Terminated) :
    NeverNull L s ↔ words (s.read L).text ≠ [] := by
  refine ⟨words_of_neverNull ht, fun hne => ?_⟩
  obtain ⟨s1, uses, hs1⟩ := newline_returns ht
  obtain ⟨word, s', hs', hiff⟩ := first_word ht
  rw [Ne, ← hiff] at hne
  refine ⟨s1, uses, hs1, ?_⟩
  rw [newline_eq hs'] at hs1
  exact ((dispatch_nonNull hne).bind fun _ => (only_run _).bind fun _ => (only_run _).bind fun _ =>
    only_run _) _ _ _ _ hs1

theorem null_tokens_iff_peek : NeverNull I386.lowLayout (holding I386.cleared.dev ("peek".toList.map ch)) ↔
    words ((holding I386.cleared.dev ("peek".toList.map ch)).read I386.lowLayout).text ≠ [] :=
  null_tokens_iff (holding_text (L := I386.lowLayout) rfl I386.cleared.dev ("peek".toList.map ch)
    (by decide) (by decide)).1

/-- The empty line. -/
theorem null_tokens_not : ¬∀ s : Machine (I386.i386 I386.lowDrivers),
    (s.read I386.lowLayout).Terminated → NeverNull I386.lowLayout s := by
  intro h
  obtain ⟨ht, htext⟩ := holding_text (L := I386.lowLayout) rfl I386.cleared.dev [] List.not_mem_nil
    (by decide)
  exact words_of_neverNull ht (h _ ht) (by rw [htext]; rfl)

/-! ## Typed addresses -/

end Logged

/-- A byte is read or written. -/
def Use.isAccess : Use → Bool
  | .load _ | .store _ _ => true
  | .strcmp _ | .strtoul _ | .string _ => false

namespace Logged

variable {P : Platform} {α β : Type} {L : Layout P} {s s' t : Machine P} {a : α} {b : β} {acc acc' : List Use}

/-- The program returns `a`, and makes the accesses `acc`. -/
def Does (x : Logged P α) (s : Machine P) (a : α) (s' : Machine P) (acc : List Use) : Prop :=
  ∃ uses, x s = some (.ok a, s', uses) ∧ uses.filter Use.isAccess = acc

theorem Does.bind {x : Logged P α} {f : α → Logged P β} (hx : Does x s a t acc)
    (hf : Does (f a) t b s' acc') : Does (x >>= f) s b s' (acc ++ acc') := by
  obtain ⟨l, hx, rfl⟩ := hx
  obtain ⟨l', hf, rfl⟩ := hf
  refine ⟨l ++ l', ?_, List.filter_append l l'⟩
  rw [Traced.bind_ok hx, hf]
  rfl

theorem does_use (u : Use) (s : Machine P) : Does (use u) s () s ([u].filter Use.isAccess) := ⟨[u], rfl, rfl⟩

theorem does_call {f : Machine P → Option (α × Machine P)} (h : f s = some (a, s')) :
    Does (call f) s a s' [] :=
  ⟨[], by rw [call, h]; rfl, rfl⟩

theorem does_run {f : Machine P → Option (Machine P)} (h : f s = some s') : Does (run f) s () s' [] :=
  ⟨[], by rw [run, h]; rfl, rfl⟩

theorem does_of_erase {x : Logged P α} (hx : Only (fun u => u.isAccess = false) x)
    (h : erase x s = some (a, s')) : Does x s a s' [] := by
  obtain ⟨uses, hu⟩ := exists_of_erase h
  exact ⟨uses, hu, List.filter_eq_nil_iff.mpr fun u hmem => by simp [hx _ _ _ _ hu u hmem]⟩

theorem does_shell_hash {cmd : Nat} {word : List Byte} (h : IsText (s.mem.at P.W cmd) word) :
    Does (shell_hash cmd) s
      (if word = PEEK then CMD_PEEK else if word = POKE then CMD_POKE else 0#8) s [] :=
  does_of_erase (only_shell_hash rfl) (by rw [erase_shell_hash, shell_hash_text P.wide h]; rfl)

theorem does_dispatch_peek {tok : Nat} (h : IsText (s.mem.at P.W tok) PEEK) (hx : Does cmd_peek s () s' acc) :
    Does (dispatch tok) s () s' acc := by
  refine (does_shell_hash h).bind ?_
  rw [if_pos rfl, if_pos rfl]
  exact hx

theorem does_dispatch_poke {tok : Nat} (h : IsText (s.mem.at P.W tok) POKE) (hx : Does cmd_poke s () s' acc) :
    Does (dispatch tok) s () s' acc := by
  refine (does_shell_hash h).bind ?_
  rw [if_neg (show ¬POKE = PEEK by decide), if_pos rfl, if_neg (show ¬CMD_POKE = CMD_PEEK by decide),
    if_pos rfl]
  exact hx

theorem does_parseInt {arg : Nat} {H : List Byte} {n : Nat} (h : IsText (s.mem.at P.W arg) H)
    (hH : Hexadecimal H n) (hn : n < 2 ^ P.W) (hl : H.length ≤ 255) :
    Does (parseInt arg) s (BitVec.ofNat 32 n) s [] := by
  have hW : 2 ^ 32 ≤ 2 ^ P.W := Nat.pow_le_pow_right (by decide) P.wide
  refine does_of_erase (only_parseInt rfl) ?_
  rw [erase_parseInt, Kernel.parseInt, strtoul_hex hH hn h (by omega)]
  rfl

theorem does_parseInt_any {arg : Nat} {V : List Byte} (h : IsText (s.mem.at P.W arg) V)
    (hl : V.length ≤ 255) : ∃ v, Does (parseInt arg) s v s [] := by
  obtain ⟨v, hv, -⟩ := parseInt_text h P.wide hl
  exact ⟨v, does_of_erase (only_parseInt rfl) (by rw [erase_parseInt, hv]; rfl)⟩

theorem does_finish (L : Layout P) (s : Machine P) : ∃ s', Does (finish L) s () s' [] := by
  obtain ⟨s1, hs1, -⟩ := Machine.printf_text_quiet (l := ['\n']) (by decide) (by decide) [] s
  obtain ⟨s2, hs2, -⟩ := Machine.putsLit_returns (l := ['>']) (by decide) (shell_record L s1)
  have hrecord : Does (run fun s => some (shell_record L s)) s1 () (shell_record L s1) [] := does_run rfl
  exact ⟨s2, (does_run hs1).bind (hrecord.bind (does_run hs2))⟩

theorem does_strtok {s₀ : Machine P} {l : Line} {p : Nat} {w : List Byte} {ws : List (List Byte)}
    (h : Tokenised L s₀ l s) (hp : (if p = 0 then s.olds else p) = L.shellbuf + l.past.length)
    (hw : words l.rest = w :: ws) : ∃ tok s', s.strtok p = some (tok, s') ∧ tok ≠ 0 ∧
      IsText (s'.mem.at P.W tok) w ∧ w.length ≤ 255 ∧ Tokenised L s₀ (nextWord l).2 s' ∧
      s'.olds = L.shellbuf + (nextWord l).2.past.length ∧ words (nextWord l).2.rest = ws := by
  obtain ⟨rfl, hne, hws⟩ := words_cons hw
  obtain ⟨tok, s', hs', h', ho, -, htok⟩ := h.strtok hp
  exact ⟨tok, s', hs', (htok hne).1, (htok hne).2, h.word_short, h', ho, hws⟩

theorem does_first {w : List Byte} {ws : List (List Byte)} (ht : (s.read L).Terminated)
    (hw : words (s.read L).text = w :: ws) : ∃ tok s' l,
      newline L s = (dispatch tok >>= fun _ => finish L) s' ∧ IsText (s'.mem.at P.W tok) w ∧ Tokenised L (atNewline s) l s' ∧
      s'.olds = L.shellbuf + l.past.length ∧ words l.rest = ws := by
  have hread : (atNewline s).read L = s.read L := s.newline_quiet.read
  have hp : (if L.shellbuf = 0 then (atNewline s).olds else L.shellbuf) =
      L.shellbuf + ([] : List Byte).length := if_neg (by have := L.nonnull; omega)
  rw [← hread] at hw
  obtain ⟨tok, s', hs', -, htext, -, h', ho, hws⟩ := does_strtok (tokenised_refl (hread ▸ ht)) hp hw
  exact ⟨tok, s', _, newline_eq hs', htext, h', ho, hws⟩

/-- The submission makes these accesses. -/
def Accesses (L : Layout P) (s : Machine P) (acc : List Use) : Prop := ∃ s', Does (newline L) s () s' acc

theorem accesses_of_dispatch {tok : Nat} (hnew : newline L s = (dispatch tok >>= fun _ => finish L) s')
    (h : Does (dispatch tok) s' () t acc) : Accesses L s acc := by
  obtain ⟨t', hfin⟩ := does_finish L t
  obtain ⟨uses, hu, hacc⟩ := Does.bind (f := fun _ => finish L) h hfin
  exact ⟨t', uses, hnew ▸ hu, by rw [hacc, List.append_nil]⟩

theorem accesses_unique (h : Accesses L s acc) (h' : Accesses L s acc') : acc = acc' := by
  obtain ⟨_, l, hx, rfl⟩ := h
  obtain ⟨_, l', hx', rfl⟩ := h'
  cases hx.symm.trans hx'
  rfl

variable {H V : List Byte} {n : Nat}

theorem accesses_peek (ht : (s.read L).Terminated) (hw : words (s.read L).text = [PEEK, H])
    (hH : Hexadecimal H n) (hn : n < 2 ^ P.W) :
    Accesses L s [.load (intPtr P.W (BitVec.ofNat 32 n))] := by
  obtain ⟨tok, s1, l, hnew, htext, h1, ho, hws⟩ := does_first ht hw
  obtain ⟨arg, s2, hs2, harg, htext2, hlen, -, -, -⟩ := does_strtok (p := 0) h1 ho hws
  have hsep : ∀ j, j < [':', ' '].length → lit [':', ' '] j ≠ 0 ∧ lit [':', ' '] j ≠ ch '%' := by decide
  obtain ⟨s3, hs3, -⟩ := Machine.printf_two_quiet hsep (by decide)
    [(BitVec.ofNat 32 n).toNat, (s2.mem (intPtr P.W (BitVec.ofNat 32 n))).toNat] s2
  have hpeek : Does cmd_peek s1 () s3 [.load (intPtr P.W (BitVec.ofNat 32 n))] := by
    refine (does_call hs2).bind ?_
    rw [if_neg harg]
    exact (does_parseInt htext2 hH hn hlen).bind ((does_use _ s2).bind (does_run hs3))
  exact accesses_of_dispatch hnew (does_dispatch_peek htext hpeek)

theorem accesses_poke (ht : (s.read L).Terminated) (hw : words (s.read L).text = [POKE, H, V])
    (hH : Hexadecimal H n) (hn : n < 2 ^ P.W) :
    ∃ v, Accesses L s [.store (intPtr P.W (BitVec.ofNat 32 n)) v] := by
  obtain ⟨tok, s1, l, hnew, htext, h1, ho, hws⟩ := does_first ht hw
  obtain ⟨arg, s2, hs2, harg, htext2, hlen2, h2, ho2, hws2⟩ := does_strtok (p := 0) h1 ho hws
  obtain ⟨val, s3, hs3, hval, htext3, hlen3, -, -, -⟩ := does_strtok (p := 0) h2 ho2 hws2
  obtain ⟨v, hv⟩ := does_parseInt_any htext3 hlen3
  have hsep : ∀ j, j < [' ', '=', ' '].length →
      lit [' ', '=', ' '] j ≠ 0 ∧ lit [' ', '=', ' '] j ≠ ch '%' := by decide
  obtain ⟨s4, hs4, -⟩ := Machine.printf_two_quiet hsep (by decide)
    [(BitVec.ofNat 32 n).toNat, v.toNat] s3
  have hpoke : Does cmd_poke s1 () (s4.poke (intPtr P.W (BitVec.ofNat 32 n)) (v.setWidth 8))
      [.store (intPtr P.W (BitVec.ofNat 32 n)) (v.setWidth 8)] := by
    refine (does_call hs2).bind ?_
    rw [if_neg harg]
    refine (does_parseInt htext2 hH hn hlen2).bind ((does_call hs3).bind ?_)
    rw [if_neg hval]
    exact hv.bind ((does_run hs4).bind ((does_use _ s4).bind (does_run rfl)))
  exact ⟨v.setWidth 8, accesses_of_dispatch hnew (does_dispatch_poke htext hpoke)⟩

/-- The addresses an `int` keeps. -/
def KeptByInt (W n : Nat) : Prop := n < 2 ^ 31 ∨ 2 ^ W - 2 ^ 31 ≤ n

theorem keptByInt_32 {n : Nat} : KeptByInt 32 n := by
  unfold KeptByInt
  omega

theorem intPtr_eq_iff {W : Nat} (hW : 32 ≤ W) (hn : n < 2 ^ W) :
    intPtr W (BitVec.ofNat 32 n) = n ↔ KeptByInt W n := by
  obtain ⟨k, hk⟩ : ∃ k, 2 ^ W = 2 ^ 32 * (k + 1) :=
    ⟨2 ^ (W - 32) - 1, by rw [Nat.sub_add_cancel (Nat.two_pow_pos _), ← Nat.pow_add,
      Nat.add_sub_cancel' hW]⟩
  have hmsb : (BitVec.ofNat 32 n).msb = decide (2 ^ 31 ≤ n % 2 ^ 32) := by
    rw [BitVec.msb_eq_decide, BitVec.toNat_ofNat]
  have hmod : n % 2 ^ 32 % 2 ^ W = n % 2 ^ 32 := Nat.mod_eq_of_lt (by omega)
  rw [intPtr, BitVec.toNat_signExtend, BitVec.toNat_setWidth, BitVec.toNat_ofNat, hmsb, hmod, KeptByInt]
  by_cases h : 2 ^ 31 ≤ n % 2 ^ 32
  · rw [decide_eq_true h, if_pos rfl]
    omega
  · rw [decide_eq_false h, if_neg Bool.false_ne_true]
    omega

/-- **Addresses.** `peek` and `poke` access the byte at the address that was typed, and no other,
exactly if an `int` keeps the address. -/
theorem addresses_intact_iff (ht : (s.read L).Terminated) (hH : Hexadecimal H n) (hn : n < 2 ^ P.W) :
    (words (s.read L).text = [PEEK, H] → (Accesses L s [.load n] ↔ KeptByInt P.W n)) ∧
      ∀ V, words (s.read L).text = [POKE, H, V] →
        ((∃ v, Accesses L s [.store n v]) ↔ KeptByInt P.W n) := by
  rw [← intPtr_eq_iff P.wide hn]
  refine ⟨fun hw => ?_, fun V hw => ?_⟩
  · have hacc := accesses_peek ht hw hH hn
    refine ⟨fun h => ?_, fun h => by rwa [h] at hacc⟩
    simpa using accesses_unique hacc h
  · obtain ⟨v, hacc⟩ := accesses_poke ht hw hH hn
    refine ⟨fun ⟨v', h⟩ => ?_, fun h => ⟨v, by rwa [h] at hacc⟩⟩
    have heq := accesses_unique hacc h
    simp only [List.cons.injEq, Use.store.injEq, and_true] at heq
    exact heq.1

theorem addresses_intact_iff_peek :
    Accesses I386.lowLayout (holding I386.cleared.dev ("peek 2000".toList.map ch)) [.load 0x2000] := by
  obtain ⟨ht, htext⟩ := holding_text (L := I386.lowLayout) rfl I386.cleared.dev
    ("peek 2000".toList.map ch) (by decide) (by decide)
  exact ((addresses_intact_iff ht (hexadecimal_digitsText 0x2000) (by decide)).1
    (by rw [htext]; decide +kernel)).mpr keptByInt_32

/-- On AArch64, the first address an `int` does not keep. -/
theorem addresses_intact_not : ¬∀ (s : Machine Aarch64.aarch64) (H : List Byte) (n : Nat),
    (s.read Aarch64.lowLayout).Terminated → Hexadecimal H n → n < 2 ^ 64 →
      words (s.read Aarch64.lowLayout).text = [PEEK, H] → Accesses Aarch64.lowLayout s [.load n] := by
  intro h
  have hH := hexadecimal_digitsText 0x80000000
  obtain ⟨ht, htext⟩ := holding_text (L := Aarch64.lowLayout) rfl [] ("peek 80000000".toList.map ch)
    (by decide) (by decide)
  have hw : words ((holding [] ("peek 80000000".toList.map ch)).read Aarch64.lowLayout).text =
      [PEEK, digitsText 16 0x80000000] := by
    rw [htext]
    decide +kernel
  have heq := accesses_unique (accesses_peek ht hw hH (by decide)) (h _ _ _ ht hH (by decide) hw)
  exact absurd heq (by decide +kernel)

end Logged

end Osdev2.Kernel
