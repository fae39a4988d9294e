import Osdev2.Libk.Mem

/-!
# The VGA text console (`kernel/arch/i386/vga.c`)

The driver's two static bytes `tx`, `ty`, the memory its cells live in, and the
cursor location register of the CRT controller (the four `outb` of `cursor`
load it). A cell is 16 bits, little-endian: `cell m k` is `VGA_MEM[k]`.

`vga_scroll` and `clrline_y` go through libk's `memmove` and `memset`, which
count bytes; `cell_vga_scroll` reads the result back in cells. Every function
writes inside the 64 KiB from `VGA_MEM` whatever its position bytes hold
(`putc_frame`, `clrline_frame`).
-/

namespace Osdev2.I386

open Osdev2.Lib Osdev2.Libk

@[irreducible] def VGA_MEM : Nat := 0xB8000
def WIDTH : Nat := 80
def HEIGHT : Nat := 25

structure Vga where
  mem : Mem
  tx : Byte
  ty : Byte
  crtc : BitVec 16

/-- `((s & 0xFF) << 8) | (c & 0xFF)`. -/
def vga_entry (s c : Byte) : BitVec 16 := s ++ c

def cell (m : Mem) (k : Nat) : BitVec 16 := m (VGA_MEM + 2 * k + 1) ++ m (VGA_MEM + 2 * k)

def setCell (m : Mem) (k : Nat) (v : BitVec 16) : Mem :=
  Function.update (Function.update m (VGA_MEM + 2 * k) (v.setWidth 8))
    (VGA_MEM + 2 * k + 1) ((v >>> 8).setWidth 8)

def vga_init (v : Vga) : Vga := { v with tx := 0#8, ty := 0#8 }

def cursor (x y : Byte) (v : Vga) : Vga :=
  { v with crtc := BitVec.ofNat 16 (y.toNat * WIDTH + x.toNat) }

def vga_scroll (v : Vga) : Vga :=
  if HEIGHT ≤ v.ty.toNat then
    let m := memmove VGA_MEM (VGA_MEM + 2 * WIDTH) v.mem ((HEIGHT - 1) * WIDTH * 2)
    let m := memset (VGA_MEM + 2 * ((HEIGHT - 1) * WIDTH)) 0 m (WIDTH * 2)
    { v with mem := m, ty := 24#8 }
  else v

def putc (c : Byte) (v : Vga) : Vga :=
  if c = 0 then v
  else
    let v := if WIDTH ≤ v.tx.toNat then vga_scroll { v with tx := 0#8, ty := v.ty + 1#8 } else v
    if c = ch '\n' ∨ c = ch '\r' then
      let v := vga_scroll { v with tx := 0#8, ty := v.ty + 1#8 }
      cursor v.tx v.ty v
    else
      let v := cursor (v.tx + 1#8) v.ty v
      let off := (v.ty.toNat * WIDTH + v.tx.toNat) % 2 ^ 16
      { v with mem := setCell v.mem off (vga_entry 0x07#8 c), tx := v.tx + 1#8 }

def puts (s : Nat) (v : Vga) : Option Vga :=
  if s = 0 then some v else forEachChar (fun v => v.mem.at 32 s) putc (2 ^ 32) 0 v

def setpos (x y : Byte) (v : Vga) : Vga :=
  if WIDTH < x.toNat then v
  else vga_scroll { v with tx := x, ty := if HEIGHT ≤ y.toNat then 25#8 else y }

def setpos_x (x : Byte) (v : Vga) : Vga := if WIDTH < x.toNat then v else { v with tx := x }

def clrline_y (y : Byte) (v : Vga) : Vga :=
  { v with mem := memset (VGA_MEM + 2 * (y.toNat * WIDTH)) 0 v.mem WIDTH }

def clrline (v : Vga) : Vga := clrline_y v.ty v

/-! ## Cells -/

theorem cell_setCell (m : Mem) (k j : Nat) (v : BitVec 16) :
    cell (setCell m k v) j = if j = k then v else cell m j := by
  unfold cell setCell
  by_cases h : j = k
  · subst h
    rw [if_pos rfl, Function.update_self, Function.update_of_ne (by omega), Function.update_self]
    apply BitVec.eq_of_toNat_eq
    simp only [BitVec.toNat_append, BitVec.toNat_setWidth, BitVec.toNat_ushiftRight]
    have := v.isLt
    rw [← Nat.shiftLeft_add_eq_or_of_lt (Nat.mod_lt _ (by decide)), Nat.shiftRight_eq_div_pow,
      Nat.shiftLeft_eq]
    omega
  · rw [if_neg h]
    simp only [Function.update_apply]
    rw [if_neg (by omega), if_neg (by omega), if_neg (by omega), if_neg (by omega)]

/-- Scrolling moves the rows up by one and clears the last. -/
theorem cell_vga_scroll {v : Vga} (h : HEIGHT ≤ v.ty.toNat) {r x : Nat} (hr : r < 25) (hx : x < 80) :
    cell (vga_scroll v).mem (80 * r + x) =
      if r = 24 then 0 else cell v.mem (80 * (r + 1) + x) := by
  unfold vga_scroll
  rw [if_pos h]
  simp only [cell, memset_apply, memmove_apply, WIDTH, HEIGHT]
  by_cases h24 : r = 24
  · subst h24
    rw [if_pos (by omega), if_pos (by omega), if_pos rfl]
    rfl
  · rw [if_neg (by omega), if_pos (by omega), if_neg (by omega), if_pos (by omega), if_neg h24]
    congr 2 <;> omega

/-! ## Where the driver writes -/

/-- The 64 KiB of addresses a cell index of the driver can name. -/
def window (a : Nat) : Prop := VGA_MEM ≤ a ∧ a < VGA_MEM + 0x10000

theorem setCell_frame {m : Mem} {k a : Nat} {v : BitVec 16} (hk : k < 2 ^ 15) (ha : ¬window a) :
    setCell m k v a = m a := by
  unfold window at ha
  unfold setCell
  rw [Function.update_of_ne (by omega), Function.update_of_ne (by omega)]

theorem vga_scroll_outside (v : Vga) {a : Nat} (ha : ¬(VGA_MEM ≤ a ∧ a < VGA_MEM + 4000)) :
    (vga_scroll v).mem a = v.mem a := by
  unfold vga_scroll
  split
  · simp only [memset_apply, memmove_apply, WIDTH, HEIGHT]
    generalize VGA_MEM = b at ha ⊢
    rw [if_neg (by omega), if_neg (by omega)]
  · rfl

theorem vga_scroll_frame (v : Vga) {a : Nat} (ha : ¬window a) : (vga_scroll v).mem a = v.mem a :=
  vga_scroll_outside v fun h => ha ⟨h.1, h.2.trans (Nat.add_lt_add_left (by decide) _)⟩

theorem clrline_frame (v : Vga) {a : Nat} (ha : ¬window a) : (clrline v).mem a = v.mem a := by
  unfold window at ha
  have := v.ty.isLt
  simp only [clrline, clrline_y, memset_apply, WIDTH]
  rw [if_neg (by omega)]

theorem putc_frame (c : Byte) (v : Vga) {a : Nat} (ha : ¬window a) :
    (putc c v).mem a = v.mem a := by
  unfold putc
  split
  · rfl
  · -- the pending wrap first, then one of the two branches
    have hw : (if WIDTH ≤ v.tx.toNat then vga_scroll { v with tx := 0#8, ty := v.ty + 1#8 }
        else v).mem a = v.mem a := by
      split
      · exact vga_scroll_frame _ ha
      · rfl
    generalize (if WIDTH ≤ v.tx.toNat then vga_scroll { v with tx := 0#8, ty := v.ty + 1#8 } else v) = w
      at hw
    rw [← hw]
    split
    · exact vga_scroll_frame _ ha
    · refine setCell_frame ?_ ha
      have h1 := w.tx.isLt
      have h2 := w.ty.isLt
      refine Nat.lt_of_le_of_lt (Nat.mod_le _ _) ?_
      simp only [cursor, WIDTH]
      omega

/-! ## The position stays on the screen

`tx` may be 80, the pending wrap. From such a state the driver writes only the
4000 bytes of the screen. -/

structure InBounds (v : Vga) : Prop where
  tx : v.tx.toNat ≤ 80
  ty : v.ty.toNat ≤ 24

def screen (a : Nat) : Prop := VGA_MEM ≤ a ∧ a < VGA_MEM + 4000

theorem inBounds_init (v : Vga) : InBounds (vga_init v) := ⟨Nat.zero_le _, Nat.zero_le _⟩

theorem inBounds_scroll {v : Vga} (hx : v.tx.toNat ≤ 80) : InBounds (vga_scroll v) := by
  unfold vga_scroll
  split
  · exact ⟨hx, Nat.le_refl 24⟩
  · rename_i hs
    simp only [HEIGHT] at hs
    exact ⟨hx, by omega⟩

theorem inBounds_advance (v : Vga) :
    InBounds (vga_scroll { v with tx := 0#8, ty := v.ty + 1#8 }) :=
  inBounds_scroll (Nat.zero_le 80)

theorem putc_screen {v : Vga} (h : InBounds v) (c : Byte) :
    InBounds (putc c v) ∧ ∀ a, ¬screen a → (putc c v).mem a = v.mem a := by
  unfold putc
  split
  · exact ⟨h, fun _ _ => rfl⟩
  · obtain ⟨w, hw, hin, hlt, hm⟩ : ∃ w, (if WIDTH ≤ v.tx.toNat then
        vga_scroll { v with tx := 0#8, ty := v.ty + 1#8 } else v) = w ∧ InBounds w ∧
        w.tx.toNat < 80 ∧ ∀ a, ¬screen a → w.mem a = v.mem a := by
      refine ⟨_, rfl, ?_⟩
      split
      · refine ⟨inBounds_advance v, ?_, fun a ha => vga_scroll_outside _ ha⟩
        unfold vga_scroll
        split <;> exact Nat.zero_lt_succ _
      · rename_i hx
        exact ⟨h, by simp only [WIDTH] at hx; omega, fun _ _ => rfl⟩
    simp only [hw]
    split
    · exact ⟨⟨(inBounds_advance w).tx, (inBounds_advance w).ty⟩,
        fun a ha => (vga_scroll_outside _ ha).trans (hm a ha)⟩
    · have hty := hin.ty
      refine ⟨⟨?_, hty⟩, fun a ha => ?_⟩
      · simp only [cursor, BitVec.toNat_add, BitVec.toNat_ofNat]
        omega
      · unfold screen at ha
        have hoff := Nat.mod_le (w.ty.toNat * WIDTH + w.tx.toNat) (2 ^ 16)
        simp only [WIDTH] at hoff
        simp only [cursor, setCell, WIDTH]
        rw [Function.update_of_ne (by omega), Function.update_of_ne (by omega), hm a ha]

end Osdev2.I386
