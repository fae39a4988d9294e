import Osdev2.Kernel.LineEdit

/-!
# What a submitted line may write

The command `poke A V` is meant to store `V` at `A` when both are hexadecimal
numerals (`pokeMeant`). What `shell_proc` stores (`pokeStore`) takes any two
words: it does not look where `strtoul` stopped, and it keeps both values in an
`int`. `poke_iff` compares the two on the memory outside the shell's variables
and the console (`Foreign`).
-/

namespace Osdev2.Kernel

open Osdev2.Lib Osdev2.Libk

/-! ## The words of a line -/

/-- The words of a text, between spaces. -/
def words (text : List Byte) : List (List Byte) := (text.splitOn (ch ' ')).filter (· ≠ [])

example : words (" poke  b8000 41 ".toList.map ch) =
    [POKE, "b8000".toList.map ch, "41".toList.map ch] := by decide

theorem words_blank (text : List Byte) : words (ch ' ' :: text) = words text := by
  unfold words
  rw [List.splitOn_cons_eq_if_modifyHead, if_pos (by simp)]
  rfl

theorem words_blanks {n : Nat} {text : List Byte} (h : ∀ c ∈ text.take n, c = ch ' ') :
    words text = words (text.drop n) := by
  induction n generalizing text with
  | zero => rfl
  | succ n ih =>
    cases text with
    | nil => rfl
    | cons c text =>
      rw [List.take_succ_cons] at h
      rw [h c List.mem_cons_self, words_blank, ih fun d hd => h d (List.mem_cons_of_mem _ hd)]
      rfl

theorem words_word {word : List Byte} (hw : word ≠ []) (hb : ch ' ' ∉ word) (text : List Byte) :
    words word = [word] ∧ words (word ++ ch ' ' :: text) = word :: words text := by
  have hne : ∀ c ∈ word, (c == ch ' ') = false := fun c hc =>
    beq_false_of_ne fun he => hb (he ▸ hc)
  unfold words
  rw [List.splitOn_eq_splitOnP, List.splitOn_eq_splitOnP, List.splitOn_eq_splitOnP,
    List.splitOnP_eq_singleton hne,
    List.splitOnP_append_cons_of_forall_mem hne (ch ' ') (beq_self_eq_true _)]
  simp [hw]

/-- `strtok` takes the words one by one. -/
theorem words_next (l : Line) : words l.rest =
    if (nextWord l).1 = [] then [] else (nextWord l).1 :: words (nextWord l).2.rest := by
  unfold nextWord
  rcases Line.next_cases [ch ' '] l with ⟨hi, hn⟩ | ⟨i, k, hi, hil, hk, hk0, hkl, hn⟩
  · -- nothing but blanks
    have hall := List.findIdx_eq_length.mp hi
    rw [hn, if_pos rfl, words_blanks (n := l.rest.length) fun c hc => ?_, List.drop_length]
    · rfl
    · simpa using hall c (List.mem_of_mem_take hc)
  · -- `i` blanks, then a word of `k` characters
    have hblanks : words l.rest = words (l.rest.drop i) := words_blanks fun c hc => by
      have := List.false_of_mem_take_findIdx (p := (!List.contains [ch ' '] ·)) (hi ▸ hc)
      simpa using this
    have hword : (l.rest.drop i).take k ≠ [] := by
      rw [ne_eq, List.take_eq_nil_iff, List.drop_eq_nil_iff]
      omega
    have hno : ch ' ' ∉ (l.rest.drop i).take k := fun hc => by
      have := List.false_of_mem_take_findIdx (p := List.contains [ch ' ']) (hk ▸ hc)
      simp at this
    have hlen : (l.rest.drop i).length = l.rest.length - i := List.length_drop
    rw [hn, if_neg hword, hblanks]
    by_cases hcut : i + k < l.rest.length
    · have hkr : k < (l.rest.drop i).length := by omega
      have hsep : (l.rest.drop i)[k] = ch ' ' := by
        have hd : List.contains [ch ' '] ((l.rest.drop i).get ⟨(l.rest.drop i).findIdx _, hk ▸ hkr⟩) =
          true := List.findIdx_getElem (p := List.contains [ch ' '])
        simpa [hk] using hd
      have hsplit : l.rest.drop i =
          (l.rest.drop i).take k ++ ch ' ' :: l.rest.drop (i + k + 1) := by
        rw [← hsep, Nat.add_assoc, ← List.drop_drop, ← List.drop_eq_getElem_cons hkr,
          List.take_append_drop]
      rw [if_pos hcut, ← (words_word hword hno _).2, ← hsplit]
    · rw [if_neg hcut, List.take_of_length_le (by omega)]
      rw [List.take_of_length_le (by omega)] at hword hno
      exact (words_word hword hno []).1

theorem words_cons {l : Line} {w : List Byte} {ws : List (List Byte)} (h : words l.rest = w :: ws) :
    (nextWord l).1 = w ∧ w ≠ [] ∧ words (nextWord l).2.rest = ws := by
  rw [words_next] at h
  split at h
  · exact absurd h (List.cons_ne_nil _ _).symm
  · rename_i hne
    obtain ⟨rfl, rfl⟩ := List.cons.inj h
    exact ⟨rfl, hne, rfl⟩

/-! ## The store of a line -/

/-- The value of a word that is, from end to end, a hexadecimal numeral. -/
def numeral16 (W : Nat) (word : List Byte) : Option Nat :=
  (strtoul W (strOf word) 16).bind fun r => if r.2 = word.length then some r.1 else none

/-- What a well-formed poke stores, and where. -/
def pokeMeant (W : Nat) (text : List Byte) : Option (Nat × Byte) :=
  match words text with
  | cmd :: arg :: val :: _ =>
    if cmd = POKE then
      (numeral16 W arg).bind fun a => (numeral16 W val).map fun v => (a, BitVec.ofNat 8 v)
    else none
  | _ => none

/-- What the code stores, and where: any two words will do, and the address goes through an
`int`. -/
def pokeStore (W : Nat) (text : List Byte) : Option (Nat × Byte) :=
  match words text with
  | cmd :: arg :: val :: _ =>
    if cmd = POKE then
      (parseInt W (strOf arg)).bind fun a =>
        (parseInt W (strOf val)).map fun v => (intPtr W a, v.setWidth 8)
    else none
  | _ => none

example : pokeMeant 32 ("poke b8000 zz".toList.map ch) = none ∧
    pokeStore 32 ("poke b8000 zz".toList.map ch) = some (0xB8000, 0) := by decide

/-- Memory after a store. -/
def stored (m : Mem) : Option (Nat × Byte) → Mem
  | none => m
  | some (a, v) => Function.update m a v

theorem pokeStore_eq (W : Nat) (text : List Byte) : pokeStore W text =
    (pokeTarget W text).bind fun a => (pokeValue W text).map fun v => (a, v) := by
  have h1 : words text = _ := words_next ⟨[], text⟩
  have h2 := words_next (nextWord ⟨[], text⟩).2
  have h3 := words_next (nextWord (nextWord ⟨[], text⟩).2).2
  simp only [pokeTarget, pokeValue]
  unfold pokeStore
  by_cases hw : (nextWord ⟨[], text⟩).1 = []
  · rw [h1, if_pos hw, if_neg fun h => absurd (hw ▸ h.1) (by decide)]
    rfl
  · rw [h1, if_neg hw, h2]
    by_cases ha : (nextWord (nextWord ⟨[], text⟩).2).1 = []
    · rw [if_pos ha, if_neg fun h => h.2.1 ha]
      rfl
    · rw [if_neg ha, h3]
      by_cases hv : (nextWord (nextWord (nextWord ⟨[], text⟩).2).2).1 = []
      · rw [if_pos hv, if_neg fun h => h.2.2 hv]
        rfl
      · rw [if_neg hv]
        by_cases hp : (nextWord ⟨[], text⟩).1 = POKE
        · rw [if_pos ⟨hp, ha, hv⟩]
          simp only [hp, if_true]
          cases parseInt W (strOf (nextWord (nextWord ⟨[], text⟩).2).1) with
          | none => rfl
          | some a =>
            cases parseInt W (strOf (nextWord (nextWord (nextWord ⟨[], text⟩).2).2).1) <;> rfl
        · rw [if_neg fun h => hp h.1]
          simp only [hp, if_false]
          rfl

/-! ## What `shell_proc` writes -/

section Writes

variable {P : Platform} {L : Layout P} {s : Machine P} {a : Nat}

/-- A byte that is neither the console's, nor one of the drivers' variables, nor one of the
shell's. -/
structure Foreign (L : Layout P) (a : Nat) : Prop where
  console : ¬P.window a
  drivers : ∀ v d, P.storeDev a v d = d
  shell : ∀ x, a ≠ L.addr x

theorem write_frame (h : Foreign L a) (x : Static) (v : Byte) : (s.write L x v).mem a = s.mem a :=
  Function.update_of_ne (h.shell x) _ _

theorem shell_record_frame (h : Foreign L a) : (shell_record L s).mem a = s.mem a := by
  unfold shell_record
  rw [write_frame h, write_frame h]
  unfold Machine.clearbuf Machine.saveCursor
  simp only [memset_apply, if_neg (not_shellbuf h.shell)]
  rw [write_frame h]
  exact memcpy_outside _ (not_row h.shell _)

theorem shell_proc_writes (ht : (s.read L).Terminated) : ∃ s', shell_proc L s = some s' ∧
    ∀ a, Foreign L a → s'.mem a = stored s.mem (pokeStore P.W (s.read L).text) a := by
  obtain ⟨s1, h1, hcmd⟩ := shell_command_spec (tokenised_refl ht)
  -- the command, up to its store
  have hframe : ∀ a, Foreign L a → s1.mem a = s.mem a := fun a ha => by
    refine h1.frame a ha.console fun hr => not_shellbuf ha.shell ⟨hr.1, ?_⟩
    have := h1.short
    omega
  obtain ⟨s2, hs2, hmem⟩ : ∃ s2, shell_command L s = some s2 ∧
      ∀ a, Foreign L a → s2.mem a = stored s.mem (pokeStore P.W (s.read L).text) a := by
    rw [pokeStore_eq]
    split at hcmd
    · rename_i hnone
      rw [hnone]
      exact ⟨s1, hcmd, hframe⟩
    · rename_i t hsome
      obtain ⟨v, hv, hs⟩ := hcmd
      rw [hsome, hv]
      refine ⟨_, hs, fun a ha => ?_⟩
      simp only [Machine.poke, Option.bind_some, Option.map_some, stored, Function.update_apply,
        hframe a ha]
  -- the newline, and the history
  obtain ⟨s3, hs3, hq⟩ := Machine.printf_text_quiet (l := ['\n']) (by decide) (by decide) [] s2
  refine ⟨shell_record L s3, ?_, fun a ha => ?_⟩
  · simp only [shell_proc, hs2, hs3, Option.bind_eq_bind, Option.bind_some, Option.pure_def]
  · rw [shell_record_frame ha, hq.mem a ha.console, hmem a ha]

/-- `shell_proc` returns, and to foreign memory it does what the line is meant to do. -/
def PokesRight (L : Layout P) (s : Machine P) : Prop :=
  ∃ s', shell_proc L s = some s' ∧
    ∀ a, Foreign L a → s'.mem a = stored s.mem (pokeMeant P.W (s.read L).text) a

/-- A store of `v` at `a` changes a foreign byte. -/
def Shows (L : Layout P) (s : Machine P) (a : Nat) (v : Byte) : Prop := Foreign L a ∧ s.mem a ≠ v

/-- If the line stores at all, then either both words are numerals and the `int` keeps the
address, or nothing of it shows. -/
def StoresAsMeant (L : Layout P) (s : Machine P) : Prop :=
  ∀ a v, pokeStore P.W (s.read L).text = some (a, v) →
    match pokeMeant P.W (s.read L).text with
    | none => ¬Shows L s a v
    | some (n, _) => a = n ∨ ¬Shows L s a v ∧ ¬Shows L s n v

/-- Where a store is meant, the code makes one, of the same byte. -/
theorem pokeStore_of_meant {W : Nat} {text : List Byte} {n : Nat} {v : Byte}
    (h : pokeMeant W text = some (n, v)) :
    pokeStore W text = some (intPtr W (BitVec.ofNat 32 n), v) := by
  have hnum : ∀ {word : List Byte} {k : Nat}, numeral16 W word = some k →
      parseInt W (strOf word) = some (BitVec.ofNat 32 k) := fun {word k} hk => by
    obtain ⟨r, hr, hk⟩ := Option.bind_eq_some_iff.mp hk
    split at hk
    · cases hk
      rw [parseInt, hr]
      rfl
    · cases hk
  unfold pokeMeant at h
  unfold pokeStore
  split at h
  · split at h
    · rename_i hcmd
      obtain ⟨a, ha, h⟩ := Option.bind_eq_some_iff.mp h
      obtain ⟨b, hb, h⟩ := Option.map_eq_some_iff.mp h
      obtain ⟨rfl, rfl⟩ := Prod.mk.injEq .. ▸ h
      have hbyte : (BitVec.ofNat 32 b).setWidth 8 = BitVec.ofNat 8 b := by
        apply BitVec.eq_of_toNat_eq
        simp only [BitVec.toNat_setWidth, BitVec.toNat_ofNat]
        omega
      simp only [hcmd, if_true, hnum ha, hnum hb, Option.bind_some, Option.map_some, hbyte]
    · cases h
  · cases h

/-- **Who may write memory.** `shell_proc` on a terminated line does to foreign memory what the
line is meant to do exactly if `StoresAsMeant`. -/
theorem poke_iff (ht : (s.read L).Terminated) : PokesRight L s ↔ StoresAsMeant L s := by
  obtain ⟨s', hs', hmem⟩ := shell_proc_writes ht
  have hcode : PokesRight L s ↔ ∀ a, Foreign L a →
      stored s.mem (pokeStore P.W (s.read L).text) a =
        stored s.mem (pokeMeant P.W (s.read L).text) a := by
    unfold PokesRight
    simp only [hs', Option.some.injEq, exists_eq_left']
    exact forall_congr' fun a => forall_congr' fun ha => by rw [hmem a ha]
  rw [hcode]
  unfold StoresAsMeant
  cases hmeant : pokeMeant P.W (s.read L).text with
  | none =>
    cases hstore : pokeStore P.W (s.read L).text with
    | none => exact ⟨fun _ a v h => (by cases h), fun _ a _ => rfl⟩
    | some t =>
      obtain ⟨t, v⟩ := t
      simp only [Option.some.injEq, Prod.mk.injEq, stored, Function.update_apply]
      constructor
      · rintro h a w ⟨rfl, rfl⟩ ⟨hf, hne⟩
        exact hne (by rw [← h t hf, if_pos rfl])
      · intro h a hf
        split
        · rename_i hat
          subst hat
          by_contra hne
          exact h a v ⟨rfl, rfl⟩ ⟨hf, fun he => hne he.symm⟩
        · rfl
  | some n =>
    obtain ⟨n, v⟩ := n
    rw [pokeStore_of_meant hmeant]
    generalize intPtr P.W (BitVec.ofNat 32 n) = t
    simp only [Option.some.injEq, Prod.mk.injEq, stored, Function.update_apply]
    constructor
    · rintro h a w ⟨rfl, rfl⟩
      by_cases htn : t = n
      · exact .inl htn
      · refine .inr ⟨fun ⟨hf, hne⟩ => ?_, fun ⟨hf, hne⟩ => ?_⟩
        · have := h t hf
          rw [if_pos rfl, if_neg htn] at this
          exact hne this.symm
        · have := h n hf
          rw [if_pos rfl, if_neg (Ne.symm htn)] at this
          exact hne this
    · intro h a hf
      rcases h t v ⟨rfl, rfl⟩ with rfl | ⟨h1, h2⟩
      · rfl
      · by_cases hat : a = t
        · subst hat
          rw [if_pos rfl]
          split
          · rfl
          · by_contra hne
            exact h1 ⟨hf, fun he => hne he.symm⟩
        · rw [if_neg hat]
          split
          · rename_i han
            subst han
            by_contra hne
            exact h2 ⟨hf, hne⟩
          · rfl

end Writes

/-- A machine with `text` at 0x12000. -/
def holding {P : Platform} (dev : P.Dev) (text : List Byte) : Machine P :=
  ⟨fun a => if 0x12000 ≤ a then text.getD (a - 0x12000) 0 else 0, dev, 0, []⟩

theorem holding_text {P : Platform} {L : Layout P} (hL : L.shellbuf = 0x12000) (dev : P.Dev)
    (text : List Byte) (h0 : 0 ∉ text) (hl : text.length ≤ 255) :
    ((holding dev text).read L).Terminated ∧ ((holding dev text).read L).text = text := by
  have hread : ∀ i, i ≤ 255 →
      (holding dev text).read L (.shellbuf (BitVec.ofNat 8 i)) = text.getD i 0 := by
    intro i hi
    have hn : (BitVec.ofNat 8 i).toNat = i := by
      rw [BitVec.toNat_ofNat]
      omega
    simp only [Machine.read, Addresses.addr, holding, hL, hn]
    rw [if_pos (Nat.le_add_right _ _), Nat.add_sub_cancel_left]
  have hterm : ((holding dev text).read L).Terminated :=
    ⟨_, (hread text.length hl).trans (List.getD_eq_default _ _ (Nat.le_refl _))⟩
  refine ⟨hterm, (View.isText_text hterm).1.unique ⟨fun i hi => hread i (by omega), ?_⟩⟩
  rintro c hc rfl
  exact h0 hc

theorem poke_iff_numerals :
    PokesRight I386.lowLayout (holding I386.cleared.dev ("poke 2000 41".toList.map ch)) := by
  obtain ⟨ht, htext⟩ := holding_text (L := I386.lowLayout) rfl I386.cleared.dev
    ("poke 2000 41".toList.map ch) (by decide) (by decide)
  refine (poke_iff ht).mpr fun a v hstore => ?_
  rw [htext] at hstore ⊢
  have hs : pokeStore (I386.i386 I386.lowDrivers).W ("poke 2000 41".toList.map ch) =
      some (0x2000, 0x41) := by decide
  have hm : pokeMeant (I386.i386 I386.lowDrivers).W ("poke 2000 41".toList.map ch) =
      some (0x2000, 0x41) := by decide
  rw [hs, Option.some.injEq, Prod.mk.injEq] at hstore
  rw [hm]
  exact .inl hstore.1.symm

/-- No digit in either word, and the byte at address 0 changes. -/
theorem poke_unchecked : ¬∀ s : Machine (I386.i386 I386.lowDrivers),
    (s.read I386.lowLayout).Terminated → words (s.read I386.lowLayout).text ≠ [] →
      PokesRight I386.lowLayout s := by
  intro h
  obtain ⟨ht, htext⟩ := holding_text (L := I386.lowLayout) rfl I386.cleared.dev
    ("poke zz 41".toList.map ch) (by decide) (by decide)
  obtain ⟨s', hs', hmeant⟩ := h _ ht (by rw [htext]; decide)
  obtain ⟨s'', hs'', hstore⟩ := shell_proc_writes ht
  obtain rfl : s' = s'' := Option.some.inj (hs'.symm.trans hs'')
  have hf : Foreign I386.lowLayout 0 := by
    refine ⟨by simp only [I386.i386, I386.window, I386.VGA_MEM]; omega, fun v d => rfl, fun x => ?_⟩
    cases x <;> simp only [Addresses.addr, I386.lowLayout, I386.lowAddresses] <;> omega
  have hs : pokeStore (I386.i386 I386.lowDrivers).W ("poke zz 41".toList.map ch) = some (0, 0x41) := by
    decide
  have hm : pokeMeant (I386.i386 I386.lowDrivers).W ("poke zz 41".toList.map ch) = none := by decide
  have h1 := hstore 0 hf
  have h2 := hmeant 0 hf
  rw [htext, hs] at h1
  rw [htext, hm] at h2
  rw [h2] at h1
  simp only [stored, Function.update_self, holding] at h1
  exact absurd h1 (by decide)

end Osdev2.Kernel
