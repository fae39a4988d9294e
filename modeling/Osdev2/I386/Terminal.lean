import Osdev2.I386.Vga
import Osdev2.Lib.Run

/-!
# The console refines an unbounded terminal

`Term` is the terminal the driver is for: an unbounded list of 80-cell rows and
a position, with no screen and no scrolling. `Refines t v` says the driver's
state `v` shows the last 25 rows of `t`. One row advance and one store each
preserve it (`refines_advance`, `refines_store`); `putc` is at most two
advances or one advance and a store, and `puts` is a run of `putc`.
-/

namespace Osdev2.I386

open Osdev2.Lib

structure Term where
  cells : Nat → Nat → BitVec 16
  row : Nat
  col : Nat

/-- The terminal over a screen's content: the screen is rows 0 to 24. -/
def Term.init (m : Mem) : Term where
  cells r x := if r < 25 then cell m (80 * r + x) else 0
  row := 0
  col := 0

def Term.advance (t : Term) : Term := { t with row := t.row + 1, col := 0 }

def Term.store (c : Byte) (t : Term) : Term where
  cells r x := if r = t.row ∧ x = t.col then 0x07#8 ++ c else t.cells r x
  row := t.row
  col := t.col + 1

def Term.putc (c : Byte) (t : Term) : Term :=
  if c = 0 then t
  else
    let t := if t.col = 80 then t.advance else t
    if c = ch '\n' ∨ c = ch '\r' then t.advance else t.store c

structure Refines (t : Term) (v : Vga) : Prop where
  col_le : t.col ≤ 80
  tx : v.tx.toNat = t.col
  ty : v.ty.toNat = min t.row 24
  /-- The rows below the screen are still blank: what a scroll brings in. -/
  blank : ∀ r x, max 24 t.row < r → t.cells r x = 0
  rows : ∀ r x, r < 25 → x < 80 → cell v.mem (80 * r + x) = t.cells (t.row - 24 + r) x

theorem refines_init (v : Vga) : Refines (Term.init v.mem) (vga_init v) where
  col_le := by simp [Term.init]
  tx := rfl
  ty := rfl
  blank r x h := by
    simp only [Term.init] at h ⊢
    rw [if_neg (by omega)]
  rows r x hr _ := by
    simp only [Term.init, vga_init]
    rw [if_pos (by omega)]
    congr 2
    omega

theorem refines_advance {t : Term} {v : Vga} (h : Refines t v) :
    Refines t.advance (vga_scroll { v with tx := 0#8, ty := v.ty + 1#8 }) := by
  obtain ⟨-, -, hty, hblank, hrows⟩ := h
  have hlt := v.ty.isLt
  have hty' : (v.ty + 1#8).toNat = min t.row 24 + 1 := by
    rw [BitVec.toNat_add, hty, BitVec.toNat_ofNat]
    omega
  by_cases hs : HEIGHT ≤ (v.ty + 1#8).toNat
  · -- the screen is full: one scroll
    have hrow : 24 ≤ t.row := by simp only [HEIGHT] at hs; omega
    refine ⟨Nat.zero_le _, ?_, ?_, fun r x hr => ?_, fun r x hr hx => ?_⟩
    · rw [vga_scroll, if_pos hs]; rfl
    · rw [vga_scroll, if_pos hs]
      simp only [Term.advance, BitVec.toNat_ofNat]
      omega
    · simp only [Term.advance] at hr
      exact hblank r x (by omega)
    · rw [cell_vga_scroll hs hr hx]
      simp only [Term.advance]
      split
      · rename_i h24
        rw [hblank _ _ (by omega)]
      · rw [hrows (r + 1) x (by omega) hx]
        congr 1
        omega
  · have hrow : t.row < 24 := by simp only [HEIGHT] at hs; omega
    rw [vga_scroll, if_neg hs]
    refine ⟨Nat.zero_le _, rfl, ?_, fun r x hr => ?_, fun r x hr hx => ?_⟩
    · simp only [Term.advance]; omega
    · simp only [Term.advance] at hr
      exact hblank r x (by omega)
    · simp only [Term.advance]
      rw [hrows r x hr hx]
      congr 1
      omega

theorem refines_store {t : Term} {v : Vga} {w : BitVec 16} (h : Refines t v) (hcol : t.col < 80)
    (c : Byte) :
    Refines (t.store c) { v with
      mem := setCell v.mem ((v.ty.toNat * WIDTH + v.tx.toNat) % 2 ^ 16) (vga_entry 0x07#8 c)
      tx := v.tx + 1#8
      crtc := w } := by
  obtain ⟨-, htx, hty, hblank, hrows⟩ := h
  have hoff : (v.ty.toNat * WIDTH + v.tx.toNat) % 2 ^ 16 = 80 * min t.row 24 + t.col := by
    rw [htx, hty, WIDTH]
    omega
  refine ⟨hcol, ?_, hty, fun r x hr => ?_, fun r x hr hx => ?_⟩
  · rw [BitVec.toNat_add, htx]
    simp only [Term.store, BitVec.toNat_ofNat]
    omega
  · simp only [Term.store] at hr ⊢
    rw [if_neg (by omega)]
    exact hblank r x hr
  · simp only [Term.store]
    rw [hoff, cell_setCell]
    by_cases he : t.row - 24 + r = t.row ∧ x = t.col
    · rw [if_pos (by omega), if_pos he]
      rfl
    · rw [if_neg (by omega), if_neg he, hrows r x hr hx]

theorem refines_putc {t : Term} {v : Vga} (h : Refines t v) (c : Byte) :
    Refines (t.putc c) (putc c v) := by
  unfold Term.putc putc
  split
  · exact h
  · -- a pending wrap is one advance on both sides
    have hw : Refines (if t.col = 80 then t.advance else t)
        (if WIDTH ≤ v.tx.toNat then vga_scroll { v with tx := 0#8, ty := v.ty + 1#8 } else v) := by
      have := h.col_le
      have hiff : WIDTH ≤ v.tx.toNat ↔ t.col = 80 := by rw [h.tx, WIDTH]; omega
      simp only [hiff]
      split
      · exact refines_advance h
      · exact h
    have hcol : (if t.col = 80 then t.advance else t).col < 80 := by
      have := h.col_le
      split
      · exact Nat.zero_lt_succ _
      · omega
    simp only
    generalize (if t.col = 80 then t.advance else t) = t' at hw hcol ⊢
    generalize (if WIDTH ≤ v.tx.toNat then vga_scroll { v with tx := 0#8, ty := v.ty + 1#8 } else v) = v'
      at hw ⊢
    split
    · obtain ⟨h1, h2, h3, h4, h5⟩ := refines_advance hw
      exact ⟨h1, h2, h3, h4, h5⟩
    · exact refines_store hw hcol c

theorem refines_foldl {t : Term} {v : Vga} (h : Refines t v) (cs : List Byte) :
    Refines (cs.foldl (fun t c => t.putc c) t) (cs.foldl (fun v c => putc c v) v) := by
  induction cs generalizing t v with
  | nil => exact h
  | cons c cs ih => exact ih (refines_putc h c)

/-! ## Sequences of calls -/

/-- A call of the driver; `puts` takes the address of its string. -/
inductive Call where
  | putc (c : Byte)
  | puts (s : Nat)

def Call.exec : Call → Vga → Option Vga
  | .putc c, v => some (I386.putc c v)
  | .puts s, v => I386.puts s v

/-- The characters a call passes to `putc`. -/
def Call.chars : Call → Vga → List Byte
  | .putc c, _ => [c]
  | .puts s, v =>
    if s = 0 then [] else charsRead (fun v => v.mem.at 32 s) I386.putc (2 ^ 32) 0 v

/-- The reference terminal, given the characters of each call of a run. -/
def Term.feed : List Call → Vga → Term → Term
  | [], _, t => t
  | k :: ks, v, t =>
    let t := (k.chars v).foldl (fun t c => t.putc c) t
    match k.exec v with
    | some v => t.feed ks v
    | none => t

theorem Call.exec_eq_foldl {k : Call} {v v' : Vga} (h : k.exec v = some v') :
    v' = (k.chars v).foldl (fun v c => I386.putc c v) v := by
  cases k with
  | putc c => cases h; rfl
  | puts s =>
    simp only [Call.exec, I386.puts] at h
    simp only [Call.chars]
    split at h
    · rename_i hs
      cases h
      rw [if_pos hs]
      rfl
    · rename_i hs
      rw [if_neg hs]
      exact forEachChar_eq_foldl h

theorem refines_runs {ks : List Call} {t : Term} {v v' : Vga} (h : Refines t v)
    (hr : runs Call.exec ks v = some v') : Refines (t.feed ks v) v' := by
  induction ks generalizing t v with
  | nil => cases hr; exact h
  | cons k ks ih =>
    rw [runs_cons, Option.bind_eq_some_iff] at hr
    obtain ⟨w, hw, hr⟩ := hr
    simp only [Term.feed, hw]
    have := refines_foldl h (k.chars v)
    rw [← Call.exec_eq_foldl hw] at this
    exact ih this hr

/-- `l` is what call `k` prints: its character, or the text of its string, which
memory `m` holds off the screen. -/
def Call.Says (m : Mem) : Call → List Byte → Prop
  | .putc c, l => l = [c]
  | .puts s, l => (s = 0 ∧ l = []) ∨
      (s ≠ 0 ∧ IsText (m.at 32 s) l ∧ l.length < 2 ^ 32 ∧
        ∀ i, i ≤ l.length → ¬screen (ptrAdd 32 s i))

theorem Call.says_exec {m : Mem} {k : Call} {l : List Byte} {v : Vga} (hs : k.Says m l)
    (hin : InBounds v) (hm : ∀ a, ¬screen a → v.mem a = m a) :
    k.chars v = l ∧ ∃ v', k.exec v = some v' ∧ InBounds v' ∧ ∀ a, ¬screen a → v'.mem a = m a := by
  cases k with
  | putc c =>
    cases hs
    obtain ⟨h1, h2⟩ := putc_screen hin c
    exact ⟨rfl, _, rfl, h1, fun a ha => (h2 a ha).trans (hm a ha)⟩
  | puts s =>
    rcases hs with ⟨rfl, rfl⟩ | ⟨hs, ht, hlen, hoff⟩
    · exact ⟨rfl, v, rfl, hin, hm⟩
    · let I : Vga → Prop := fun w => InBounds w ∧ ∀ a, ¬screen a → w.mem a = m a
      have hf : ∀ c w, I w → I (I386.putc c w) := fun c w ⟨h1, h2⟩ =>
        ⟨(putc_screen h1 c).1, fun a ha => ((putc_screen h1 c).2 a ha).trans (h2 a ha)⟩
      have hl : ∀ w, I w → IsText (w.mem.at 32 s) l := fun w ⟨_, h2⟩ =>
        ⟨fun i hi => (h2 _ (hoff i hi)).trans (ht.reads i hi), ht.noNul⟩
      have hI : I v := ⟨hin, hm⟩
      obtain ⟨h1, h2⟩ : forEachChar (fun w : Vga => w.mem.at 32 s) I386.putc (2 ^ 32) 0 v =
          some ((l.drop 0).foldl (fun w c => I386.putc c w) v) ∧
          charsRead (fun w : Vga => w.mem.at 32 s) I386.putc (2 ^ 32) 0 v = l.drop 0 :=
        forEachChar_text hf hl hI (Nat.zero_le _) (by omega)
      simp only [Call.chars, Call.exec, I386.puts, if_neg hs, h1, h2]
      exact ⟨rfl, _, rfl, forEachChar_preserves hf hI h1⟩

theorem says_runs {m : Mem} {ks : List Call} {ls : List (List Byte)}
    (hs : List.Forall₂ (Call.Says m) ks ls) {v : Vga} (hin : InBounds v)
    (hm : ∀ a, ¬screen a → v.mem a = m a) (t : Term) :
    (∃ v', runs Call.exec ks v = some v') ∧
      t.feed ks v = ls.flatten.foldl (fun t c => t.putc c) t := by
  induction hs generalizing v t with
  | nil => exact ⟨⟨v, rfl⟩, rfl⟩
  | cons hk _ ih =>
    obtain ⟨hc, v1, he, hin1, hm1⟩ := Call.says_exec hk hin hm
    obtain ⟨⟨v', hr⟩, hf⟩ := ih hin1 hm1 (List.foldl (fun t c => t.putc c) t _)
    refine ⟨⟨v', by rw [runs_cons, he]; exact hr⟩, ?_⟩
    simp only [Term.feed, he, hc, List.flatten_cons, List.foldl_append]
    exact hf

/-- **The console refines the terminal.** Over every run of calls after
`vga_init` the screen shows rows `max 0 (row - 24)` on of the reference, which
receives the characters the calls pass to `putc`. Strings that lie off the
screen are those characters, and a run over such strings returns. -/
theorem vga_refines_terminal (v0 : Vga) (ks : List Call) :
    (∀ v, runs Call.exec ks (vga_init v0) = some v →
      let t := (Term.init v0.mem).feed ks (vga_init v0)
      v.tx.toNat = t.col ∧ v.ty.toNat = min t.row 24 ∧
        ∀ r x, r < 25 → x < 80 → cell v.mem (80 * r + x) = t.cells (t.row - 24 + r) x) ∧
    ∀ ls, List.Forall₂ (Call.Says v0.mem) ks ls →
      (∃ v, runs Call.exec ks (vga_init v0) = some v) ∧
        (Term.init v0.mem).feed ks (vga_init v0) =
          ls.flatten.foldl (fun t c => t.putc c) (Term.init v0.mem) := by
  refine ⟨fun v hr => ?_, fun ls hs => says_runs hs (inBounds_init v0) (fun _ _ => rfl) _⟩
  have h := refines_runs (refines_init v0) hr
  exact ⟨h.tx, h.ty, h.rows⟩

theorem vga_refines_terminal_newline :
    ∃ v, runs Call.exec [.putc (ch 'a'), .putc (ch '\n')] (vga_init ⟨fun _ => 0, 7, 9, 0⟩) = some v ∧
      v.tx.toNat = 0 ∧ v.ty.toNat = 1 ∧ cell v.mem 0 = 0x0761 := by
  obtain ⟨h1, h2⟩ := vga_refines_terminal ⟨fun _ => 0, 7, 9, 0⟩ [.putc (ch 'a'), .putc (ch '\n')]
  obtain ⟨⟨v, hv⟩, hf⟩ := h2 [[ch 'a'], [ch '\n']] (.cons rfl (.cons rfl .nil))
  obtain ⟨hx, hy, hc⟩ := h1 v hv
  rw [hf] at hx hy hc
  exact ⟨v, hv, hx, hy, hc 0 0 (by decide) (by decide)⟩

end Osdev2.I386
