import Osdev2.I386.Bounds

/-!
# Clearing a row

`clrline` and `clrline_y` count the cells of a row where `memset` counts bytes, so
that they clear the left half (`cell_clrline_y`); `vga_scroll` counts bytes
(`clearRow`). `clears_rows_iff`: along every sequence of calls they clear the row they
are asked to exactly where its right half is blank.
-/

namespace Osdev2.I386

open Osdev2.Lib Osdev2.Libk

/-! ## A row cleared -/

/-- The row clear of `vga_scroll`, for any row. -/
def clearRow (r : Nat) (m : Mem) : Mem := memset (VGA_MEM + 2 * (r * WIDTH)) 0 m (WIDTH * 2)

/-- `v'` is `v` with row `r` of the screen cleared. -/
structure RowCleared (r : Nat) (v v' : Vga) : Prop where
  onScreen : r < HEIGHT
  cleared : ∀ x < 80, cell v'.mem (80 * r + x) = 0
  others : ∀ k, (∀ x < 80, k ≠ 80 * r + x) → cell v'.mem k = cell v.mem k
  tx : v'.tx = v.tx
  ty : v'.ty = v.ty
  /-- As the scroll would have done it. -/
  agrees : v'.mem = clearRow r v.mem

/-- The right half of row `r` is blank. -/
def RightBlank (r : Nat) (v : Vga) : Prop := ∀ x, 40 ≤ x → x < 80 → cell v.mem (80 * r + x) = 0

/-- `n` cells from cell `k` on, as `memset` clears them. -/
theorem cell_memset (m : Mem) (k n j : Nat) :
    cell (memset (VGA_MEM + 2 * k) 0 m (2 * n)) j = if k ≤ j ∧ j < k + n then 0 else cell m j := by
  simp only [cell, memset_apply]
  by_cases h : k ≤ j ∧ j < k + n
  · rw [if_pos (by omega), if_pos (by omega), if_pos h]
    rfl
  · rw [if_neg (by omega), if_neg (by omega), if_neg h]

theorem cell_clearRow (r : Nat) (m : Mem) (j : Nat) :
    cell (clearRow r m) j = if 80 * r ≤ j ∧ j < 80 * r + 80 then 0 else cell m j := by
  have h : clearRow r m = memset (VGA_MEM + 2 * (80 * r)) 0 m (2 * 80) := by
    rw [Nat.mul_comm 80 r]
    rfl
  rw [h, cell_memset]

theorem cell_clrline_y (y : Byte) (v : Vga) (j : Nat) : cell (clrline_y y v).mem j =
    if 80 * y.toNat ≤ j ∧ j < 80 * y.toNat + 40 then 0 else cell v.mem j := by
  have h : (clrline_y y v).mem = memset (VGA_MEM + 2 * (80 * y.toNat)) 0 v.mem (2 * 40) := by
    rw [Nat.mul_comm 80]
    rfl
  rw [h, cell_memset]

theorem cell_eq_zero {m : Mem} {k : Nat} :
    cell m k = 0 ↔ m (VGA_MEM + 2 * k) = 0 ∧ m (VGA_MEM + 2 * k + 1) = 0 := by
  unfold cell
  generalize m (VGA_MEM + 2 * k) = lo
  generalize m (VGA_MEM + 2 * k + 1) = hi
  constructor
  · intro h
    have h1 : (hi ++ lo).extractLsb' 0 8 = lo := BitVec.extractLsb'_append_eq_right
    have h2 : (hi ++ lo).extractLsb' 8 8 = hi := BitVec.extractLsb'_append_eq_left
    rw [h] at h1 h2
    exact ⟨h1.symm.trans (by decide), h2.symm.trans (by decide)⟩
  · rintro ⟨rfl, rfl⟩
    decide

/-- With the right half blank the two clears do the same. -/
theorem clrline_y_eq_clearRow {y : Byte} {v : Vga} (h : RightBlank y.toNat v) :
    (clrline_y y v).mem = clearRow y.toNat v.mem := by
  funext a
  simp only [clrline_y, clearRow, memset_apply, WIDTH]
  by_cases hl : VGA_MEM + 2 * (y.toNat * 80) ≤ a ∧ a < VGA_MEM + 2 * (y.toNat * 80) + 80
  · rw [if_pos hl, if_pos (by omega)]
  · rw [if_neg hl]
    by_cases hr : VGA_MEM + 2 * (y.toNat * 80) ≤ a ∧ a < VGA_MEM + 2 * (y.toNat * 80) + 80 * 2
    · -- a byte of a cell of the right half
      rw [if_pos hr]
      obtain ⟨x, hx⟩ : ∃ x, x = (a - (VGA_MEM + 2 * (y.toNat * 80))) / 2 := ⟨_, rfl⟩
      obtain ⟨h0, h1⟩ := cell_eq_zero.mp (h x (by omega) (by omega))
      rcases Nat.mod_two_eq_zero_or_one (a - (VGA_MEM + 2 * (y.toNat * 80))) with hm | hm
      · rwa [show VGA_MEM + 2 * (80 * y.toNat + x) = a by omega] at h0
      · rwa [show VGA_MEM + 2 * (80 * y.toNat + x) + 1 = a by omega] at h1
    · rw [if_neg hr]

/-- **One clear.** -/
theorem clrline_y_iff {y : Byte} (hy : y.toNat < HEIGHT) (v : Vga) :
    RowCleared y.toNat v (clrline_y y v) ↔ RightBlank y.toNat v := by
  constructor
  · intro h x hx hx80
    have hc := h.cleared x hx80
    rwa [cell_clrline_y, if_neg (by omega)] at hc
  · intro h
    refine ⟨hy, fun x hx => ?_, fun k hk => ?_, rfl, rfl, clrline_y_eq_clearRow h⟩
    · rw [clrline_y_eq_clearRow h, cell_clearRow, if_pos (by omega)]
    · rw [clrline_y_eq_clearRow h, cell_clearRow,
        if_neg fun hin => hk (k - 80 * y.toNat) (by omega) (by omega)]

/-! ## Sequences of calls -/

/-- A call of any function of `vga.c`. -/
inductive Driver where
  | call (op : Op)
  | cursor (x y : Byte)
  | vga_scroll
  | clrline_y (y : Byte)

namespace Driver

def exec : Driver → Vga → Option Vga
  | .call op, v => op.exec v
  | .cursor x y, v => some (I386.cursor x y v)
  | .vga_scroll, v => some (I386.vga_scroll v)
  | .clrline_y y, v => some (I386.clrline_y y v)

/-- The row of the screen a call is to clear. -/
def row : Driver → Vga → Option Byte
  | .call .clrline, v => some v.ty
  | .clrline_y y, _ => if y.toNat < HEIGHT then some y else none
  | _, _ => none

theorem exec_inBounds {k : Driver} {v v' : Vga} (h : InBounds v) (he : k.exec v = some v') :
    InBounds v' := by
  cases k with
  | call op => exact Op.exec_inBounds h he
  | cursor x y =>
    cases he
    exact ⟨h.tx, h.ty⟩
  | vga_scroll =>
    cases he
    exact inBounds_scroll h.tx
  | clrline_y y =>
    cases he
    exact ⟨h.tx, h.ty⟩

theorem exec_row {k : Driver} {v v' : Vga} {r : Byte} (h : InBounds v) (hr : k.row v = some r)
    (he : k.exec v = some v') : r.toNat < HEIGHT ∧ v' = I386.clrline_y r v := by
  cases k with
  | call op =>
    cases op with
    | clrline =>
      cases hr
      cases he
      exact ⟨Nat.lt_succ_of_le h.ty, rfl⟩
    | _ => cases hr
  | clrline_y y =>
    simp only [row] at hr
    split at hr
    · rename_i hy
      cases hr
      cases he
      exact ⟨hy, rfl⟩
    · cases hr
  | _ => cases hr

end Driver

/-- **Whole rows.** Along every sequence of calls from power-on, with any content of the screen,
`clrline` and `clrline_y` clear the row they are asked to exactly if its right half is blank. -/
theorem clears_rows_iff (m : Mem) (crtc : BitVec 16) (ks : List Driver) :
    EveryStep Driver.exec (fun k v v' => ∀ r, k.row v = some r → RowCleared r.toNat v v') ks
        ⟨m, 0, 0, crtc⟩ ↔
      EveryStep Driver.exec (fun k v _ => ∀ r, k.row v = some r → RightBlank r.toNat v) ks
        ⟨m, 0, 0, crtc⟩ := by
  have hstep : ∀ (pre : List Driver) (k : Driver) v v',
      runs Driver.exec pre ⟨m, 0, 0, crtc⟩ = some v → k.exec v = some v' →
      ∀ r : Byte, k.row v = some r → (RowCleared r.toNat v v' ↔ RightBlank r.toNat v) := by
    intro pre k v v' hrun he r hr
    have hin : InBounds v := runs_preserves (fun _ _ _ h he => Driver.exec_inBounds h he)
      (⟨Nat.zero_le _, Nat.zero_le _⟩ : InBounds ⟨m, 0, 0, crtc⟩) hrun
    obtain ⟨hlt, rfl⟩ := Driver.exec_row hin hr he
    exact clrline_y_iff hlt v
  constructor
  · intro h pre k v v' hp hrun he r hr
    exact (hstep pre k v v' hrun he r hr).mp (h pre k v v' hp hrun he r hr)
  · intro h pre k v v' hp hrun he r hr
    exact (hstep pre k v v' hrun he r hr).mpr (h pre k v v' hp hrun he r hr)

/-- A character in column 40, and `clrline`. -/
theorem clears_rows_not : ¬EveryStep Driver.exec
    (fun k v v' => ∀ r, k.row v = some r → RowCleared r.toNat v v')
    [.call (.setpos 40 0), .call (.putc (ch 'a')), .call .clrline] ⟨fun _ => 0, 0, 0, 0⟩ := by
  intro h
  have hrow := h [.call (.setpos 40 0), .call (.putc (ch 'a'))] (.call .clrline) _ _ ⟨[], rfl⟩ rfl rfl 0 rfl
  have hblank := (clrline_y_iff (by decide) _).mp hrow 40 (by decide) (by decide)
  revert hblank
  decide +kernel

end Osdev2.I386
