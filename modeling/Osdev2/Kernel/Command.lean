import Osdev2.Kernel.View
import Osdev2.Libk.Strtoul
import Osdev2.Libk.Tokens

/-!
# The command of a submitted line

`shell_command` runs `strtok` over `shellbuf` one to three times, prints, and may
poke one byte. `Tokenised L s₀ l s`: between the machines `s₀` and `s` the shell
has done no more than turn `shellbuf` into the line `l` and print.
`shell_command_spec` says which line a command leaves (`commandLine`) and where
it pokes (`pokeTarget`), both functions of the submitted text alone.
-/

namespace Osdev2.Kernel

open Osdev2.Lib Osdev2.Libk

/-! ## What a line asks for -/

def PEEK : List Byte := ['p', 'e', 'e', 'k'].map ch
def POKE : List Byte := ['p', 'o', 'k', 'e'].map ch

/-- One `strtok` call on the line. -/
def nextWord (l : Line) : List Byte × Line := l.next [ch ' ']

/-- `shellbuf` as the command leaves it: one word taken, two by `peek`, three by
`poke`. -/
def commandLine (text : List Byte) : Line :=
  let (word, l) := nextWord ⟨[], text⟩
  if word = PEEK then (nextWord l).2
  else if word = POKE then (nextWord (nextWord l).2).2
  else l

/-- The address a `poke` line stores to. -/
def pokeTarget (W : Nat) (text : List Byte) : Option Nat :=
  let (word, l) := nextWord ⟨[], text⟩
  let (arg, l) := nextWord l
  let (val, _) := nextWord l
  if word = POKE ∧ arg ≠ [] ∧ val ≠ [] then (parseInt W (strOf arg)).map (intPtr W) else none

/-- The byte it stores. -/
def pokeValue (W : Nat) (text : List Byte) : Option Byte :=
  let (_, l) := nextWord ⟨[], text⟩
  let (_, l) := nextWord l
  let (val, _) := nextWord l
  (parseInt W (strOf val)).map (·.setWidth 8)

example : pokeTarget 32 ("poke b8000 41".toList.map ch) = some 0xB8000 := by decide

theorem commandLine_length (text : List Byte) :
    (commandLine text).bytes.length = text.length := by
  have hnext : ∀ l : Line, (nextWord l).2.bytes.length = l.bytes.length := Line.next_length _
  simp only [commandLine]
  split
  · rw [hnext, hnext]
    rfl
  · split
    · rw [hnext, hnext, hnext]
      rfl
    · rw [hnext]
      rfl

/-- The command only writes NULs. -/
theorem mem_commandLine {text : List Byte} {b : Byte} (h : b ∈ (commandLine text).bytes) :
    b = 0 ∨ b ∈ text := by
  have hnext : ∀ l : Line, b ∈ (nextWord l).2.bytes → b = 0 ∨ b ∈ l.bytes := fun _ =>
    Line.mem_next_bytes
  simp only [commandLine] at h
  split at h
  · exact (hnext _ h).elim Or.inl (hnext _)
  · split at h
    · exact (hnext _ h).elim Or.inl fun h => (hnext _ h).elim Or.inl (hnext _)
    · exact hnext _ h

/-- The command leaves the line alone exactly if no space follows a word. -/
theorem commandLine_bytes_iff (text : List Byte) :
    (commandLine text).bytes = text ↔ ¬Line.Broken [ch ' '] text := by
  rcases Line.next_broken [ch ' '] ⟨[], text⟩ with ⟨hb, n, hn, hdel, hcut⟩ | ⟨hb, hend⟩
  · -- the NUL in place of the first such space stays
    refine iff_of_false (fun heq => ?_) (not_not_intro hb)
    have hpast : text.take n ++ [0] <+: (commandLine text).past := by
      have h1 : text.take n ++ [0] <+: (nextWord ⟨[], text⟩).2.past := by
        rw [nextWord, hcut]
        exact List.prefix_refl _
      have hstep : ∀ l : Line, l.past <+: (nextWord l).2.past := Line.past_prefix_next _
      simp only [commandLine]
      split
      · exact h1.trans (hstep _)
      · split
        · exact h1.trans ((hstep _).trans (hstep _))
        · exact h1
    have hbytes : text.take n ++ [0] <+: (commandLine text).bytes :=
      hpast.trans (List.prefix_append _ _)
    have hn : n < text.length := hn
    have hget := hbytes.getElem (i := n) (by
      rw [List.length_append, List.length_take, List.length_singleton]
      omega)
    rw [List.getElem_append_right (by rw [List.length_take]; omega)] at hget
    simp only [List.getElem_singleton, heq] at hget
    rw [← hget] at hdel
    exact absurd hdel (by decide)
  · refine iff_of_true ?_ hb
    have hstep : nextWord ⟨text, []⟩ = ([], ⟨text, []⟩) := by
      simp [nextWord, Line.next]
    have hfirst : (nextWord ⟨[], text⟩).2 = ⟨text, []⟩ := hend
    simp only [commandLine, hfirst, hstep, Line.bytes]
    split
    · exact List.append_nil text
    · split <;> exact List.append_nil text

/-! ## Printing -/

namespace Machine

variable {P : Platform} {s : Machine P}

theorem putsLit_returns {l : List Char} (hl : l.length < 2 ^ 31) (s : Machine P) :
    ∃ s', s.putsLit l = some s' ∧ Quiet s s' := by
  have hW : 2 ^ 32 ≤ 2 ^ P.W := Nat.pow_le_pow_right (by decide) P.wide
  obtain ⟨t, ht, -⟩ : ∃ t, forEachChar (fun _ => lit l) P.putc (2 ^ P.W) 0 (s.mem, s.dev) = some t ∧
      True := forEachChar_returns (I := fun _ => True) (n := l.length) (fun _ _ _ => trivial)
    (fun _ _ => by simp [lit]) trivial (Nat.zero_le _) (by omega)
  refine ⟨_, ?_, forEachChar_quiet ht⟩
  rw [putsLit, ht]
  rfl

theorem putsLit_eq {l : List Char} (hl : ∀ c ∈ l.map ch, c ≠ 0) (hlen : l.length < 2 ^ 32)
    (s : Machine P) :
    s.putsLit l = some (s.console fun t => (l.map ch).foldl (fun t c => P.putc c t) t) := by
  have hW : 2 ^ 32 ≤ 2 ^ P.W := Nat.pow_le_pow_right (by decide) P.wide
  have htext : IsText (lit l) (l.map ch) := ⟨fun _ _ => rfl, hl⟩
  have h : forEachChar (fun _ => lit l) P.putc (2 ^ P.W) 0 (s.mem, s.dev) =
      some ((l.map ch).foldl (fun t c => P.putc c t) (s.mem, s.dev)) :=
    (forEachChar_text (I := fun _ => True) (fun _ _ _ => trivial) (fun _ _ => htext) trivial
      (Nat.zero_le _) (by rw [List.length_map]; omega)).1
  unfold putsLit
  rw [h]
  rfl

theorem printf_eq {l : List Char} (hl : ∀ j, j < l.length → lit l j ≠ 0 ∧ lit l j ≠ ch '%')
    (hlen : l.length < 2 ^ 31) (s : Machine P) :
    s.printf l [] = some (s.console fun t => (l.map ch).foldl (fun t c => P.putc c t) t) := by
  have h := printf_text_eq (K := P.console) hl hlen P.wide (fun i => ([] : List Nat).getD i 0)
    (s.mem, s.dev)
  unfold printf
  rw [h, Option.map_some]
  rfl

theorem puts_returns {z : Nat} (hz : z < 2 ^ P.W) (hw : ¬P.window z) (h0 : s.mem z = 0) (p : Nat) :
    ∃ s', s.puts p = some s' ∧ Quiet s s' := by
  unfold puts
  split
  · exact ⟨s, rfl, Quiet.refl s⟩
  · let I : Mem × P.Dev → Prop := fun t => t.1 z = 0
    obtain ⟨n, hn, he⟩ := exists_ptrAdd p hz
    obtain ⟨t, ht, -⟩ : ∃ t, forEachChar (fun t => t.1.at P.W p) P.putc (2 ^ P.W) 0 (s.mem, s.dev) =
        some t ∧ I t := forEachChar_returns (I := I) (n := n)
      (fun c t hI => (P.putc_frame c t z hw).trans hI)
      (fun t hI => (congrArg t.1 he).trans hI) h0 (Nat.zero_le n) (by omega)
    exact ⟨_, by rw [ht]; rfl, forEachChar_quiet ht⟩

theorem printf_quiet {format : List Char} {args : List Nat} (h : ∀ I : Mem × P.Dev → Prop,
      (∀ c t, I t → I (P.putc c t)) → (∀ t, I t → ∀ a, ¬P.window a → t.1 a = s.mem a) →
      I (s.mem, s.dev) → ∃ t, Libk.printf P.console P.W (lit format) (fun i => args.getD i 0)
        (s.mem, s.dev) = some t ∧ I t) :
    ∃ s', s.printf format args = some s' ∧ Quiet s s' := by
  obtain ⟨t, ht, hmem, hdev⟩ := h (fun t => (∀ a, ¬P.window a → t.1 a = s.mem a) ∧
      ∀ I, P.Keeps I → I s.dev → I t.2)
    (fun c t hI => ⟨fun a ha => (P.putc_frame c t a ha).trans (hI.1 a ha),
      fun J hJ hs => hJ.putc c t (hI.2 J hJ hs)⟩)
    (fun _ hI => hI.1) ⟨fun _ _ => rfl, fun _ _ hs => hs⟩
  exact ⟨_, by rw [printf, ht]; rfl, console_quiet hmem hdev⟩

theorem printf_text_quiet {l : List Char} (hl : ∀ j, j < l.length → lit l j ≠ 0 ∧ lit l j ≠ ch '%')
    (hlen : l.length < 2 ^ 31) (args : List Nat) (s : Machine P) :
    ∃ s', s.printf l args = some s' ∧ Quiet s s' :=
  printf_quiet fun _ hputc _ hI => printf_text (K := P.console) hputc hl hlen P.wide _ hI

theorem printf_two_quiet {sep : List Char}
    (hsep : ∀ j, j < sep.length → lit sep j ≠ 0 ∧ lit sep j ≠ ch '%') (hlen : sep.length < 2 ^ 30)
    (args : List Nat) (s : Machine P) : ∃ s', s.printf
      (['%', '0', '8', 'X'] ++ sep ++ ['%', '0', '2', 'X']) args = some s' ∧ Quiet s s' :=
  printf_quiet fun _ hputc _ hI => printf_two (K := P.console) hputc P.wide hsep hlen _ hI

theorem printf_unknown_quiet {z : Nat} (hz : z < 2 ^ P.W) (hw : ¬P.window z) (h0 : s.mem z = 0)
    (args : List Nat) : ∃ s', s.printf ['U', 'n', 'k', 'n', 'o', 'w', 'n', ' ', 'c', 'o', 'm', 'm',
      'a', 'n', 'd', ':', ' ', '%', 's'] args = some s' ∧ Quiet s s' :=
  printf_quiet fun _ hputc hmem hI => printf_unknown (K := P.console) hputc P.wide hz
    (fun t ht => (hmem t ht z hw).trans h0) _ hI

end Machine

/-! ## The line in `shellbuf` -/

section Command

variable {P : Platform} {L : Layout P} {s₀ s s' : Machine P} {l : Line}

structure Tokenised (L : Layout P) (s₀ : Machine P) (l : Line) (s : Machine P) : Prop where
  line : l.At s.mem L.shellbuf
  short : l.bytes.length ≤ 255
  frame : ∀ a, ¬P.window a → ¬(L.shellbuf ≤ a ∧ a < L.shellbuf + l.bytes.length) →
    s.mem a = s₀.mem a
  trace : s.trace = s₀.trace
  dev : ∀ I, P.Keeps I → I s₀.dev → I s.dev

theorem shellbuf_mapped (L : Layout P) {i : Nat} (hi : i ≤ 255) :
    L.shellbuf + i < 2 ^ P.W ∧ ¬P.window (L.shellbuf + i) := by
  have hb : (BitVec.ofNat 8 i).toNat = i := by rw [BitVec.toNat_ofNat]; omega
  have h1 := L.mapped (.shellbuf (BitVec.ofNat 8 i))
  have h2 := L.outside (.shellbuf (BitVec.ofNat 8 i))
  simp only [Addresses.addr, hb] at h1 h2
  exact ⟨h1, h2⟩

/-- The NUL that ends the line. -/
theorem Tokenised.nul (h : Tokenised L s₀ l s) : s.mem (L.shellbuf + l.bytes.length) = 0 := by
  rw [h.line.reads _ (Nat.le_refl _), List.getD_eq_default _ _ (Nat.le_refl _)]

theorem Tokenised.quiet (h : Tokenised L s₀ l s) (hq : s.Quiet s') : Tokenised L s₀ l s' := by
  have hshort := h.short
  refine ⟨⟨fun i hi => ?_, h.line.noNul⟩, hshort, fun a ha hb => ?_, hq.trace.trans h.trace,
    fun I hI hs => hq.dev I hI (h.dev I hI hs)⟩
  · rw [hq.mem _ (shellbuf_mapped L (by omega)).2, h.line.reads i hi]
  · rw [hq.mem a ha, h.frame a ha hb]

theorem Tokenised.read (h : Tokenised L s₀ l s) : s.read L =
    (s₀.read L).withBuf fun i => l.bytes.getD i.toNat (s₀.read L (.shellbuf i)) := by
  have hshort := h.short
  funext x
  by_cases hx : ∃ i, x = .shellbuf i
  · obtain ⟨i, rfl⟩ := hx
    rw [View.withBuf_shellbuf]
    rcases Nat.lt_or_ge i.toNat l.bytes.length with hi | hi
    · rw [Machine.read, Addresses.addr, h.line.reads _ (Nat.le_of_lt hi),
        List.getD_eq_getElem _ _ hi, List.getD_eq_getElem _ _ hi]
    · rw [List.getD_eq_default _ _ hi]
      refine h.frame _ (L.outside _) ?_
      simp only [Addresses.addr]
      omega
  · rw [View.withBuf_other _ _ fun i hi => hx ⟨i, hi⟩]
    refine h.frame _ (L.outside x) fun hr => hx ((addr_shellbuf_iff L x).mp ⟨hr.1, by omega⟩)

theorem Tokenised.strtok {p : Nat} (h : Tokenised L s₀ l s)
    (hp : (if p = 0 then s.olds else p) = L.shellbuf + l.past.length) :
    ∃ tok s', s.strtok p = some (tok, s') ∧ Tokenised L s₀ (nextWord l).2 s' ∧
      s'.olds = L.shellbuf + (nextWord l).2.past.length ∧
      ((nextWord l).1 = [] → tok = 0) ∧
      ((nextWord l).1 ≠ [] → tok ≠ 0 ∧ IsText (s'.mem.at P.W tok) (nextWord l).1) := by
  have hshort := h.short
  have hlen : (nextWord l).2.bytes.length = l.bytes.length := Line.next_length _ _
  obtain ⟨t, ht, hc⟩ := strtok_line h.line (shellbuf_mapped L hshort).1 L.nonnull hp
  refine ⟨t.token, { s with mem := t.mem, olds := t.olds }, ?_, ⟨hc.line, hlen ▸ hshort, ?_, h.trace, h.dev⟩,
    hc.olds, hc.null, hc.token⟩
  · rw [Machine.strtok, ht]
    rfl
  · intro a ha hb
    rw [hlen] at hb
    exact (hc.frame a hb).trans (h.frame a ha hb)

/-! ## The commands -/

theorem shell_hash_returns {W : Nat} (hW : 32 ≤ W) (cmd : CStr) :
    ∃ c, shell_hash W cmd = some c := by
  have hW2 : 2 ^ 32 ≤ 2 ^ W := Nat.pow_le_pow_right (by decide) hW
  have hlen : ∀ l : List Byte, l.length = 4 → l.length < 2 ^ W := fun l hl => by omega
  obtain ⟨r1, h1⟩ : ∃ r, strcmp W cmd (strOf PEEK) = some r :=
    (strcmp_returns (isText_strOf (by decide)) (hlen PEEK rfl)).imp fun _ h => h.1
  obtain ⟨r2, h2⟩ : ∃ r, strcmp W cmd (strOf POKE) = some r :=
    (strcmp_returns (isText_strOf (by decide)) (hlen POKE rfl)).imp fun _ h => h.1
  simp only [shell_hash, show lit ['p', 'e', 'e', 'k'] = strOf PEEK from rfl,
    show lit ['p', 'o', 'k', 'e'] = strOf POKE from rfl, h1, h2, Option.bind_eq_bind,
    Option.bind_some, Option.pure_def]
  split
  · exact ⟨_, rfl⟩
  · split <;> exact ⟨_, rfl⟩

theorem shell_hash_text {W : Nat} (hW : 32 ≤ W) {cmd : CStr} {word : List Byte}
    (h : IsText cmd word) : shell_hash W cmd =
      some (if word = PEEK then CMD_PEEK else if word = POKE then CMD_POKE else 0#8) := by
  have hW2 : 2 ^ 32 ≤ 2 ^ W := Nat.pow_le_pow_right (by decide) hW
  obtain ⟨r1, h1, e1⟩ := strcmp_text h (isText_strOf (l := PEEK) (by decide))
    (W := W) (by simp only [PEEK, List.length_map, List.length_cons, List.length_nil]; omega)
  obtain ⟨r2, h2, e2⟩ := strcmp_text h (isText_strOf (l := POKE) (by decide))
    (W := W) (by simp only [POKE, List.length_map, List.length_cons, List.length_nil]; omega)
  simp only [shell_hash, show lit ['p', 'e', 'e', 'k'] = strOf PEEK from rfl,
    show lit ['p', 'o', 'k', 'e'] = strOf POKE from rfl, h1, h2, Option.bind_eq_bind,
    Option.bind_some, Option.pure_def, e1, e2]
  split
  · rfl
  · split <;> rfl

theorem Tokenised.usage (h : Tokenised L s₀ l s) {format : List Char}
    (hf : ∀ j, j < format.length → lit format j ≠ 0 ∧ lit format j ≠ ch '%')
    (hlen : format.length < 2 ^ 31) :
    ∃ s', s.printf format [] = some s' ∧ Tokenised L s₀ l s' := by
  obtain ⟨s', hs, hq⟩ := Machine.printf_text_quiet hf hlen [] s
  exact ⟨s', hs, h.quiet hq⟩

theorem Tokenised.usage_poke (h : Tokenised L s₀ l s) : ∃ s', s.printf ['U', 's', 'a', 'g', 'e', ':',
    ' ', 'p', 'o', 'k', 'e', ' ', '<', 'l', 'o', 'c', 'a', 't', 'i', 'o', 'n', '>', ' ', '<', 'v',
    'a', 'l', 'u', 'e', '>'] [] = some s' ∧ Tokenised L s₀ l s' :=
  h.usage (by decide) (by decide)

theorem Tokenised.unknown (h : Tokenised L s₀ l s) (args : List Nat) :
    ∃ s', s.printf ['U', 'n', 'k', 'n', 'o', 'w', 'n', ' ', 'c', 'o', 'm', 'm', 'a', 'n', 'd', ':',
      ' ', '%', 's'] args = some s' ∧ Tokenised L s₀ l s' := by
  obtain ⟨h1, h2⟩ := shellbuf_mapped L h.short
  obtain ⟨s', hs, hq⟩ := Machine.printf_unknown_quiet h1 h2 h.nul args
  exact ⟨s', hs, h.quiet hq⟩

theorem parseInt_text {s : CStr} {word : List Byte} (h : IsText s word) {W : Nat} (hW : 32 ≤ W)
    (hl : word.length ≤ 255) : ∃ n, parseInt W s = some n ∧ parseInt W (strOf word) = some n := by
  have hW2 : 2 ^ 32 ≤ 2 ^ W := Nat.pow_le_pow_right (by decide) hW
  obtain ⟨r, h1, h2⟩ := strtoul_text h (W := W) (by omega) 16
  exact ⟨BitVec.ofNat 32 r.1, by rw [parseInt, h1]; rfl, by rw [parseInt, h2]; rfl⟩

theorem Tokenised.word_short (h : Tokenised L s₀ l s) : (nextWord l).1.length ≤ 255 :=
  Nat.le_trans (Line.next_token_length _ _) h.short

theorem cmd_peek_spec (h : Tokenised L s₀ l s) (ho : s.olds = L.shellbuf + l.past.length) :
    ∃ s', cmd_peek s = some s' ∧ Tokenised L s₀ (nextWord l).2 s' := by
  obtain ⟨arg, s1, hs1, h1, -, hnull, htok⟩ := h.strtok (p := 0) ho
  simp only [cmd_peek, hs1, Option.bind_eq_bind, Option.bind_some]
  by_cases ha : (nextWord l).1 = []
  · rw [if_pos (hnull ha)]
    exact h1.usage (by decide) (by decide)
  · obtain ⟨hne, htext⟩ := htok ha
    obtain ⟨n, hn, -⟩ := parseInt_text htext P.wide h.word_short
    have hsep : ∀ j, j < [':', ' '].length → lit [':', ' '] j ≠ 0 ∧ lit [':', ' '] j ≠ ch '%' := by
      decide
    obtain ⟨s2, hs2, hq⟩ := Machine.printf_two_quiet hsep (by decide)
      [n.toNat, (s1.mem (intPtr P.W n)).toNat] s1
    simp only [if_neg hne, hn, Option.bind_some]
    exact ⟨s2, hs2, h1.quiet hq⟩

theorem cmd_poke_spec (h : Tokenised L s₀ l s) (ho : s.olds = L.shellbuf + l.past.length) :
    ∃ s', Tokenised L s₀ (nextWord (nextWord l).2).2 s' ∧
      if (nextWord l).1 ≠ [] ∧ (nextWord (nextWord l).2).1 ≠ [] then
        ∃ n v, parseInt P.W (strOf (nextWord l).1) = some n ∧
          parseInt P.W (strOf (nextWord (nextWord l).2).1) = some v ∧
          cmd_poke s = some (s'.poke (intPtr P.W n) (v.setWidth 8))
      else cmd_poke s = some s' := by
  obtain ⟨arg, s1, hs1, h1, ho1, hnull, htok⟩ := h.strtok (p := 0) ho
  simp only [cmd_poke, hs1, Option.bind_eq_bind, Option.bind_some, Option.pure_def]
  by_cases ha : (nextWord l).1 = []
  · -- the line has run out, so asking again changes nothing
    obtain ⟨s2, hs2, h2⟩ := h1.usage_poke
    obtain ⟨e1, e2⟩ := Line.next_exhausted ha
    refine ⟨s2, ?_, ?_⟩
    · have hend : (nextWord (nextWord l).2).2 = (nextWord l).2 := (congrArg Prod.snd e2).trans e1.symm
      rw [hend]
      exact h2
    · rw [if_neg fun H => H.1 ha, if_pos (hnull ha)]
      exact hs2
  · obtain ⟨hne, htext⟩ := htok ha
    obtain ⟨n, hn, hn'⟩ := parseInt_text htext P.wide h.word_short
    obtain ⟨val, s2, hs2, h2, -, hnull2, htok2⟩ := h1.strtok (p := 0) ho1
    simp only [if_neg hne, hn, hs2, Option.bind_some]
    by_cases hv : (nextWord (nextWord l).2).1 = []
    · obtain ⟨s3, hs3, h3⟩ := h2.usage_poke
      refine ⟨s3, h3, ?_⟩
      rw [if_neg fun H => H.2 hv, if_pos (hnull2 hv)]
      exact hs3
    · obtain ⟨hne2, htext2⟩ := htok2 hv
      obtain ⟨v, hv2, hv2'⟩ := parseInt_text htext2 P.wide h1.word_short
      have hsep : ∀ j, j < [' ', '=', ' '].length →
          lit [' ', '=', ' '] j ≠ 0 ∧ lit [' ', '=', ' '] j ≠ ch '%' := by decide
      obtain ⟨s3, hs3, hq⟩ := Machine.printf_two_quiet hsep (by decide) [n.toNat, v.toNat] s2
      refine ⟨s3, h2.quiet hq, ?_⟩
      rw [if_pos ⟨ha, hv⟩]
      refine ⟨n, v, hn', hv2', ?_⟩
      have hfmt : s2.printf ['%', '0', '8', 'X', ' ', '=', ' ', '%', '0', '2', 'X']
          [n.toNat, v.toNat] = some s3 := hs3
      simp only [if_neg hne2, hv2, hfmt, Option.bind_some]

/-- **The command of a line.** It returns; `shellbuf` holds what `strtok` has left
of the line, and the rest of memory outside the window is as before but for the
byte a complete `poke` stores. -/
theorem shell_command_spec {text : List Byte} (h : Tokenised L s ⟨[], text⟩ s) :
    ∃ s', Tokenised L s (commandLine text) s' ∧
      match pokeTarget P.W text with
      | none => shell_command L s = some s'
      | some a => ∃ v, pokeValue P.W text = some v ∧ shell_command L s = some (s'.poke a v) := by
  have hp : (if L.shellbuf = 0 then s.olds else L.shellbuf) = L.shellbuf + ([] : List Byte).length :=
    if_neg (by have := L.nonnull; omega)
  obtain ⟨tok, s1, hs1, h1, ho1, hnull, htok⟩ := h.strtok hp
  simp only [shell_command, commandLine, pokeTarget, pokeValue, hs1, Option.bind_eq_bind, Option.bind_some]
  by_cases hw : (nextWord ⟨[], text⟩).1 = []
  · -- a blank line: `word` is NULL, what it reads as decides the branch, and no
    -- branch finds an argument
    obtain ⟨e1, e2⟩ := Line.next_exhausted hw
    have hend : nextWord (nextWord ⟨[], text⟩).2 = ([], (nextWord ⟨[], text⟩).2) :=
      e2.trans (Prod.ext rfl e1.symm)
    obtain ⟨c, hc⟩ := shell_hash_returns P.wide (s1.mem.at P.W tok)
    simp only [hc, Option.bind_some, hw, show ¬[] = PEEK by decide, show ¬[] = POKE by decide,
      if_false, false_and]
    by_cases hpeek : c = CMD_PEEK
    · obtain ⟨s2, hs2, h2⟩ := cmd_peek_spec h1 ho1
      rw [hend] at h2
      exact ⟨s2, h2, by rw [if_pos hpeek]; exact hs2⟩
    · rw [if_neg hpeek]
      by_cases hpoke : c = CMD_POKE
      · obtain ⟨s2, h2, hs2⟩ := cmd_poke_spec h1 ho1
        rw [hend] at h2 hs2
        rw [hend] at h2
        rw [if_neg fun H => H.1 rfl] at hs2
        exact ⟨s2, h2, by rw [if_pos hpoke]; exact hs2⟩
      · obtain ⟨s2, hs2, h2⟩ := h1.unknown [tok]
        exact ⟨s2, h2, by rw [if_neg hpoke]; exact hs2⟩
  · obtain ⟨hne, htext⟩ := htok hw
    rw [shell_hash_text P.wide htext]
    simp only [Option.bind_some]
    by_cases hpeek : (nextWord ⟨[], text⟩).1 = PEEK
    · obtain ⟨s2, hs2, h2⟩ := cmd_peek_spec h1 ho1
      refine ⟨s2, ?_, ?_⟩
      · rw [if_pos hpeek]
        exact h2
      · rw [if_neg (by rw [hpeek]; simp +decide), if_pos hpeek, if_pos rfl]
        exact hs2
    · rw [if_neg hpeek, if_neg hpeek]
      by_cases hpoke : (nextWord ⟨[], text⟩).1 = POKE
      · obtain ⟨s2, h2, hs2⟩ := cmd_poke_spec h1 ho1
        refine ⟨s2, ?_, ?_⟩
        · rw [if_pos hpoke]
          exact h2
        · simp only [hpoke, true_and, if_true, show ¬CMD_POKE = CMD_PEEK by decide, if_false]
          split at hs2
          · rename_i hargs
            obtain ⟨n, v, hn, hv, hs2⟩ := hs2
            rw [if_pos hargs, hn, hv]
            exact ⟨v.setWidth 8, rfl, hs2⟩
          · rename_i hargs
            rw [if_neg hargs]
            exact hs2
      · obtain ⟨s2, hs2, h2⟩ := h1.unknown [tok]
        refine ⟨s2, ?_, ?_⟩
        · rw [if_neg hpoke]
          exact h2
        · simp only [hpoke, false_and, if_false, show ¬0#8 = CMD_PEEK by decide,
            show ¬0#8 = CMD_POKE by decide]
          exact hs2

end Command

end Osdev2.Kernel
