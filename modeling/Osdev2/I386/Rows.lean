import Osdev2.I386.Clear
import Osdev2.I386.Terminal

/-!
# Rows per line

`Counted` is the console with its scrolls counted, so that a position has a row
even when the row has left the screen: `ty` and the scrolls since (`row`). A line
is a text and a newline. `putc` leaves the wrap after column 79 to the next
character, the newline too, which then advances again:
`rows_per_line_iff`: a line takes the rows of its text exactly if it does not end
on a full row.
-/

namespace Osdev2.I386

open Osdev2.Lib

/-! ## Counting the scrolls -/

/-- The console and the number of its scrolls. -/
structure Counted where
  vga : Vga
  scrolls : Nat

namespace Counted

/-- The row of the cursor, counted from the top of the screen as it was without the scrolls. -/
def row (s : Counted) : Nat := s.vga.ty.toNat + s.scrolls

def vga_scroll (s : Counted) : Counted where
  vga := I386.vga_scroll s.vga
  scrolls := if HEIGHT ≤ s.vga.ty.toNat then s.scrolls + 1 else s.scrolls

/-- `tx = 0; ty += 1; vga_scroll()`. -/
def advance (s : Counted) : Counted :=
  vga_scroll { s with vga := { s.vga with tx := 0#8, ty := s.vga.ty + 1#8 } }

def putc (c : Byte) (s : Counted) : Counted :=
  if c = 0 then s
  else
    let s := if WIDTH ≤ s.vga.tx.toNat then advance s else s
    if c = ch '\n' ∨ c = ch '\r' then
      let s := advance s
      { s with vga := cursor s.vga.tx s.vga.ty s.vga }
    else
      let v := cursor (s.vga.tx + 1#8) s.vga.ty s.vga
      let off := (v.ty.toNat * WIDTH + v.tx.toNat) % 2 ^ 16
      { s with vga := { v with mem := setCell v.mem off (vga_entry 0x07#8 c), tx := v.tx + 1#8 } }

/-- The text printed from `v` on. -/
def print (l : List Byte) (v : Vga) : Counted := l.foldl (fun s c => putc c s) ⟨v, 0⟩

theorem putc_vga (c : Byte) (s : Counted) : (putc c s).vga = I386.putc c s.vga := by
  unfold putc I386.putc
  split
  · rfl
  · have hw : (if WIDTH ≤ s.vga.tx.toNat then advance s else s).vga =
        if WIDTH ≤ s.vga.tx.toNat then
          I386.vga_scroll { s.vga with tx := 0#8, ty := s.vga.ty + 1#8 } else s.vga := by
      split <;> rfl
    simp only [← hw]
    split <;> rfl

end Counted

/-! ## Rows of the terminal -/

/-- The terminal that shows what the screen shows. -/
def Term.shown (v : Vga) : Term where
  cells r x := if r < 25 then cell v.mem (80 * r + x) else 0
  row := v.ty.toNat
  col := v.tx.toNat

theorem refines_shown {v : Vga} (h : InBounds v) : Refines (Term.shown v) v where
  col_le := h.tx
  tx := rfl
  ty := (Nat.min_eq_left h.ty).symm
  blank r x hr := by
    simp only [Term.shown] at hr ⊢
    rw [if_neg (by omega)]
  rows r x hr _ := by
    have hty := h.ty
    simp only [Term.shown]
    rw [if_pos (by omega), show v.ty.toNat - 24 + r = r by omega]

/-- The console refines the terminal, and counts the rows as it does. -/
structure Tallies (t : Term) (s : Counted) : Prop where
  refines : Refines t s.vga
  row : s.row = t.row

theorem Tallies.advance {t : Term} {s : Counted} (h : Tallies t s) : Tallies t.advance s.advance := by
  refine ⟨refines_advance h.refines, ?_⟩
  have hlt := s.vga.ty.isLt
  have hty := h.refines.ty
  have hrow := h.row
  have hty' : (s.vga.ty + 1#8).toNat = s.vga.ty.toNat + 1 := by
    rw [BitVec.toNat_add, hty, BitVec.toNat_ofNat]
    omega
  simp only [Counted.row, Counted.advance, Counted.vga_scroll, Term.advance] at hrow ⊢
  by_cases hs : HEIGHT ≤ (s.vga.ty + 1#8).toNat
  · -- the row goes back by one and the scrolls go up by one
    rw [if_pos hs, I386.vga_scroll, if_pos hs]
    simp only [HEIGHT, BitVec.toNat_ofNat] at hs ⊢
    omega
  · rw [if_neg hs, I386.vga_scroll, if_neg hs]
    simp only
    omega

theorem Tallies.putc {t : Term} {s : Counted} (h : Tallies t s) (c : Byte) :
    Tallies (t.putc c) (Counted.putc c s) := by
  refine ⟨Counted.putc_vga c s ▸ refines_putc h.refines c, ?_⟩
  unfold Counted.putc Term.putc
  split
  · exact h.row
  · have hw : Tallies (if t.col = 80 then t.advance else t)
        (if WIDTH ≤ s.vga.tx.toNat then s.advance else s) := by
      have hcol := h.refines.col_le
      have hiff : WIDTH ≤ s.vga.tx.toNat ↔ t.col = 80 := by rw [h.refines.tx, WIDTH]; omega
      simp only [hiff]
      split
      · exact h.advance
      · exact h
    simp only
    generalize (if t.col = 80 then t.advance else t) = t' at hw ⊢
    generalize (if WIDTH ≤ s.vga.tx.toNat then s.advance else s) = s' at hw ⊢
    split
    · exact hw.advance.row
    · exact hw.row

theorem tallies_print {v : Vga} (h : InBounds v) (l : List Byte) :
    Tallies (l.foldl (fun t c => t.putc c) (Term.shown v)) (Counted.print l v) := by
  have h0 : Tallies (Term.shown v) ⟨v, 0⟩ := ⟨refines_shown h, rfl⟩
  unfold Counted.print
  generalize Term.shown v = t at h0
  generalize (⟨v, 0⟩ : Counted) = s at h0
  induction l generalizing t s with
  | nil => exact h0
  | cons c l ih => exact ih _ _ (h0.putc c)

theorem Tallies.cell {t : Term} {s : Counted} (h : Tallies t s) {r x : Nat} (hr : s.scrolls ≤ r)
    (hrow : r ≤ t.row) (hx : x < 80) : cell s.vga.mem (80 * (r - s.scrolls) + x) = t.cells r x := by
  have hty := h.refines.ty
  have hcount := h.row
  unfold Counted.row at hcount
  rw [h.refines.rows _ x (by omega) hx, show t.row - 24 + (r - s.scrolls) = r by omega]

/-! ## A line -/

/-- A character that takes a cell. -/
def Visible (c : Byte) : Prop := c ≠ 0 ∧ c ≠ ch '\n' ∧ c ≠ ch '\r'

instance : DecidablePred Visible := fun _ => inferInstanceAs (Decidable (_ ∧ _))

/-- `l` has been printed from column 0 of `t` on, 80 characters a row. -/
structure Laid (t : Term) (l : List Byte) (t' : Term) : Prop where
  row : t'.row = t.row + (l.length - 1) / 80
  col : t'.col = l.length - 80 * ((l.length - 1) / 80)
  chars : ∀ i (h : i < l.length), t'.cells (t.row + i / 80) (i % 80) = 0x07#8 ++ l[i]

theorem Laid.nil {t : Term} (h : t.col = 0) : Laid t [] t :=
  ⟨rfl, h, fun _ hi => absurd hi (Nat.not_lt_zero _)⟩

theorem Laid.snoc {t t' : Term} {l : List Byte} {c : Byte} (h : Laid t l t') (hc : Visible c) :
    Laid t (l ++ [c]) (t'.putc c) := by
  obtain ⟨h0, hn, hr⟩ := hc
  obtain ⟨hrow, hcol, hchars⟩ := h
  have hlen : (l ++ [c]).length = l.length + 1 := List.length_append
  have hput : t'.putc c = (if t'.col = 80 then t'.advance else t').store c := by
    rw [Term.putc, if_neg h0]
    exact if_neg (not_or.mpr ⟨hn, hr⟩)
  obtain ⟨u, hu⟩ : ∃ u, u = if t'.col = 80 then t'.advance else t' := ⟨_, rfl⟩
  -- the cell the character goes to
  have hu' : u.row = t.row + l.length / 80 ∧ u.col = l.length % 80 ∧ u.cells = t'.cells := by
    rw [hu]
    split
    · refine ⟨?_, ?_, rfl⟩ <;> simp only [Term.advance] <;> omega
    · exact ⟨by omega, by omega, rfl⟩
  obtain ⟨hurow, hucol, hucells⟩ := hu'
  rw [hput, ← hu]
  refine ⟨?_, ?_, fun i hi => ?_⟩
  · simp only [Term.store, hlen]
    omega
  · simp only [Term.store, hlen]
    omega
  · simp only [Term.store, hurow, hucol, hucells]
    rcases Nat.lt_or_ge i l.length with hil | hil
    · rw [if_neg (by omega), List.getElem_append_left hil]
      exact hchars i hil
    · obtain rfl : i = l.length := by omega
      rw [if_pos (by simp only [and_self]), List.getElem_concat_length rfl]

theorem laid_foldl {t : Term} (h : t.col = 0) {l : List Byte} (hl : ∀ c ∈ l, Visible c) :
    Laid t l (l.foldl (fun t c => t.putc c) t) := by
  induction l using List.reverseRecOn with
  | nil => exact Laid.nil h
  | append_singleton l c ih =>
    rw [List.foldl_append]
    exact (ih fun d hd => hl d (List.mem_append_left _ hd)).snoc (hl c (by simp))

/-- The newline after a text: it advances once, and once more for a full row. -/
theorem Laid.newline {t t' : Term} {l : List Byte} (h : Laid t l t') :
    (t'.putc (ch '\n')).row = t.row + (l.length - 1) / 80 + 1 +
        (if l ≠ [] ∧ 80 ∣ l.length then 1 else 0) ∧
      (t'.putc (ch '\n')).col = 0 ∧ (t'.putc (ch '\n')).cells = t'.cells := by
  have hput : t'.putc (ch '\n') = (if t'.col = 80 then t'.advance else t').advance := by
    rw [Term.putc, if_neg (by decide)]
    exact if_pos (Or.inl rfl)
  have hcol := h.col
  have hpos : l ≠ [] ↔ 0 < l.length := List.length_pos_iff.symm
  have hfull : t'.col = 80 ↔ l ≠ [] ∧ 80 ∣ l.length := by
    rw [hpos]
    omega
  rw [hput]
  simp only [← hfull]
  split
  · exact ⟨by simp only [Term.advance, h.row], rfl, rfl⟩
  · exact ⟨by simp only [Term.advance, h.row], rfl, rfl⟩

/-! ## On the console -/

/-- The line `l`, printed from `v` on: it takes a row for 80 characters, one if it is
empty, the cursor is at the left of the row below, and each character is where it
belongs as long as its row is on the screen. -/
structure OnItsRows (l : List Byte) (v : Vga) : Prop where
  rows : (Counted.print (l ++ [ch '\n']) v).row = v.ty.toNat + max 1 ((l.length + 79) / 80)
  column : (Counted.print (l ++ [ch '\n']) v).vga.tx = 0
  chars : ∀ pre, pre <+: l ++ [ch '\n'] → ∀ i (h : i < l.length), i < pre.length →
    (Counted.print pre v).scrolls ≤ v.ty.toNat + i / 80 →
    cell (Counted.print pre v).vga.mem
        (80 * (v.ty.toNat + i / 80 - (Counted.print pre v).scrolls) + i % 80) =
      vga_entry 0x07#8 l[i]

section Line

variable {v : Vga} {l : List Byte} (hin : InBounds v) (hx : v.tx = 0) (hl : ∀ c ∈ l, Visible c)

include hin hx hl

theorem line_row : (Counted.print (l ++ [ch '\n']) v).row =
    v.ty.toNat + (l.length - 1) / 80 + 1 + (if l ≠ [] ∧ 80 ∣ l.length then 1 else 0) := by
  have hcol : (Term.shown v).col = 0 := congrArg BitVec.toNat hx
  have ht := tallies_print hin (l ++ [ch '\n'])
  rw [List.foldl_append] at ht
  exact ht.row.trans (laid_foldl hcol hl).newline.1

theorem line_column : (Counted.print (l ++ [ch '\n']) v).vga.tx = 0 := by
  have hcol : (Term.shown v).col = 0 := congrArg BitVec.toNat hx
  have ht := tallies_print hin (l ++ [ch '\n'])
  rw [List.foldl_append] at ht
  exact BitVec.eq_of_toNat_eq (ht.refines.tx.trans (laid_foldl hcol hl).newline.2.1)

/-- Nothing printed is lost before its row leaves the screen. -/
theorem line_chars {pre : List Byte} (hp : pre <+: l ++ [ch '\n']) {i : Nat} (hi : i < l.length)
    (hip : i < pre.length) (hs : (Counted.print pre v).scrolls ≤ v.ty.toNat + i / 80) :
    cell (Counted.print pre v).vga.mem
        (80 * (v.ty.toNat + i / 80 - (Counted.print pre v).scrolls) + i % 80) =
      vga_entry 0x07#8 l[i] := by
  have hcol : (Term.shown v).col = 0 := congrArg BitVec.toNat hx
  have ht := tallies_print hin pre
  -- the text, or the whole line
  have hlaid : v.ty.toNat + i / 80 ≤ (pre.foldl (fun t c => t.putc c) (Term.shown v)).row ∧
      (pre.foldl (fun t c => t.putc c) (Term.shown v)).cells (v.ty.toNat + i / 80) (i % 80) =
        0x07#8 ++ l[i] := by
    rcases List.prefix_concat_iff.mp hp with rfl | hpre
    · have hlay := laid_foldl hcol hl
      obtain ⟨hrow, -, hcells⟩ := hlay.newline
      rw [List.foldl_append]
      simp only [List.foldl_cons, List.foldl_nil, hrow, hcells]
      exact ⟨by simp only [Term.shown]; omega, hlay.chars i hi⟩
    · have hlay := laid_foldl hcol fun c hc => hl c (hpre.subset hc)
      have hget : pre[i] = l[i] := hpre.getElem hip
      exact ⟨by rw [hlay.row]; simp only [Term.shown]; omega, hget ▸ hlay.chars i hip⟩
  exact (ht.cell hs hlaid.1 (Nat.mod_lt i (by decide))).trans hlaid.2

end Line

/-- **Rows per line.** From every state the calls of the driver reach in which the cursor is at
the left, a line takes the rows of its text exactly if the text does not fill its last row. -/
theorem rows_per_line_iff {m : Mem} {crtc : BitVec 16} {ks : List Driver} {v : Vga}
    (hr : runs Driver.exec ks ⟨m, 0, 0, crtc⟩ = some v) (hx : v.tx = 0) {l : List Byte}
    (hl : ∀ c ∈ l, Visible c) : OnItsRows l v ↔ (l = [] ∨ ¬80 ∣ l.length) := by
  have hin : InBounds v := runs_preserves (fun _ _ _ h he => Driver.exec_inBounds h he)
    (⟨Nat.zero_le _, Nat.zero_le _⟩ : InBounds ⟨m, 0, 0, crtc⟩) hr
  have hrow := line_row hin hx hl
  have hpos : l = [] ↔ l.length = 0 := List.length_eq_zero_iff.symm
  constructor
  · intro h
    by_contra hfull
    rw [not_or, not_not] at hfull
    have hrows := h.rows
    rw [hrow, if_pos hfull] at hrows
    rw [hpos] at hfull
    omega
  · intro h
    refine ⟨?_, line_column hin hx hl, fun pre hp i hi hip hs => line_chars hin hx hl hp hi hip hs⟩
    rw [hrow, if_neg (by rintro ⟨h1, h2⟩; exact h.elim h1 (· h2))]
    rw [hpos] at h
    omega

theorem rows_per_line_iff_short : OnItsRows [ch 'o', ch 'k'] ⟨fun _ => 0, 0, 0, 0⟩ :=
  (@rows_per_line_iff (fun _ => 0) 0 [] ⟨fun _ => 0, 0, 0, 0⟩ rfl rfl [ch 'o', ch 'k']
    (by decide)).mpr (Or.inr (by decide))

/-- 80 characters take two rows, and the second is empty. -/
theorem full_row_skips : ∃ v, runs Driver.exec [] ⟨fun _ => 0, 0, 0, 0⟩ = some v ∧ v.tx = 0 ∧
    (∀ c ∈ List.replicate 80 (ch 'a'), Visible c) ∧ ¬OnItsRows (List.replicate 80 (ch 'a')) v := by
  have hall : ∀ c ∈ List.replicate 80 (ch 'a'), Visible c := fun c hc =>
    List.eq_of_mem_replicate hc ▸ by decide
  refine ⟨_, rfl, rfl, hall, fun h => ?_⟩
  have hrows := h.rows
  rw [line_row ⟨Nat.zero_le _, Nat.zero_le _⟩ rfl hall, List.length_replicate,
    if_pos ⟨by simp, by decide⟩] at hrows
  exact absurd hrows (by decide)

end Osdev2.I386
