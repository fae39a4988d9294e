import Osdev2.I386.Vga
import Osdev2.Lib.Run

/-!
# The console stays within its types and its memory

`Checked` is the driver of `vga.c` with every check the source leaves out: a
position that does not fit its type, a store past the last cell and a copy that
leaves video memory all stop it. `vga_in_bounds`: from `vga_init` on, along every
sequence of calls, no check fails, the driver does what the checked one does, and
the position stays on the screen (`InBounds`).
-/

namespace Osdev2.I386

open Osdev2.Lib Osdev2.Libk

/-! ## The checked driver -/

namespace Checked

/-- `n` in `w` bits, if it fits. -/
def fit (w n : Nat) : Option (BitVec w) := if n < 2 ^ w then some (BitVec.ofNat w n) else none

/-- `count` bytes of video memory from byte `first` on, if they are there. -/
def bytes (first count : Nat) : Option Unit := if first + count ≤ 4000 then some () else none

/-- A cell of the screen. -/
def cellIndex (off : Nat) : Option Unit := if off < 2000 then some () else none

def cursor (x y : Byte) (v : Vga) : Option Vga :=
  (fit 16 (y.toNat * WIDTH + x.toNat)).map fun pos => { v with crtc := pos }

def vga_scroll (v : Vga) : Option Vga :=
  if HEIGHT ≤ v.ty.toNat then do
    bytes (2 * WIDTH) ((HEIGHT - 1) * WIDTH * 2)
    bytes 0 ((HEIGHT - 1) * WIDTH * 2)
    let m := memmove VGA_MEM (VGA_MEM + 2 * WIDTH) v.mem ((HEIGHT - 1) * WIDTH * 2)
    bytes (2 * ((HEIGHT - 1) * WIDTH)) (WIDTH * 2)
    let m := memset (VGA_MEM + 2 * ((HEIGHT - 1) * WIDTH)) 0 m (WIDTH * 2)
    let ty ← fit 8 (HEIGHT - 1)
    return { v with mem := m, ty := ty }
  else some v

/-- `tx = 0; ty += 1; vga_scroll()`. -/
def advance (v : Vga) : Option Vga :=
  (fit 8 (v.ty.toNat + 1)).bind fun ty => vga_scroll { v with tx := 0#8, ty := ty }

def store (c : Byte) (v : Vga) : Option Vga := do
  let x ← fit 8 (v.tx.toNat + 1)
  let v ← cursor x v.ty v
  let off ← fit 16 (v.ty.toNat * WIDTH + v.tx.toNat)
  cellIndex off.toNat
  return { v with mem := setCell v.mem off.toNat (vga_entry 0x07#8 c), tx := x }

def putc (c : Byte) (v : Vga) : Option Vga :=
  if c = 0 then some v
  else
    (if WIDTH ≤ v.tx.toNat then advance v else some v).bind fun v =>
      if c = ch '\n' ∨ c = ch '\r' then (advance v).bind fun v => cursor v.tx v.ty v
      else store c v

/-- `forEachChar` over a checked function; `some none` is a loop that never returns. -/
def eachChar {σ : Type*} (rd : σ → CStr) (f : Byte → σ → Option σ) :
    Nat → Nat → σ → Option (Option σ)
  | 0, _, _ => some none
  | fuel + 1, i, t =>
    if rd t i = 0 then some (some t) else (f (rd t i) t).bind (eachChar rd f fuel (i + 1))

def puts (s : Nat) (v : Vga) : Option (Option Vga) :=
  if s = 0 then some (some v) else eachChar (fun v => v.mem.at 32 s) putc (2 ^ 32) 0 v

def setpos (x y : Byte) (v : Vga) : Option Vga :=
  if WIDTH < x.toNat then some v
  else
    (if HEIGHT ≤ y.toNat then fit 8 HEIGHT else some y).bind fun ty =>
      vga_scroll { v with tx := x, ty := ty }

def clrline (v : Vga) : Option Vga :=
  (bytes (2 * (v.ty.toNat * WIDTH)) WIDTH).map fun _ => I386.clrline v

end Checked

/-! ## No check fails -/

theorem fit_eq {w n : Nat} (h : n < 2 ^ w) : Checked.fit w n = some (BitVec.ofNat w n) :=
  if_pos h

theorem fit_succ {b : Byte} (h : b.toNat < 255) : Checked.fit 8 (b.toNat + 1) = some (b + 1#8) := by
  rw [fit_eq (by omega)]
  exact congrArg some (BitVec.eq_of_toNat_eq (by simp [BitVec.toNat_add]))

theorem cursor_checked (x y : Byte) (v : Vga) : Checked.cursor x y v = some (cursor x y v) := by
  unfold Checked.cursor
  rw [fit_eq]
  · rfl
  · have := x.isLt
    have := y.isLt
    simp only [WIDTH]
    omega

theorem vga_scroll_checked (v : Vga) : Checked.vga_scroll v = some (vga_scroll v) := by
  unfold Checked.vga_scroll vga_scroll
  split
  · rfl
  · rfl

theorem advance_checked {v : Vga} (h : InBounds v) :
    Checked.advance v = some (vga_scroll { v with tx := 0#8, ty := v.ty + 1#8 }) := by
  have := h.ty
  unfold Checked.advance
  rw [fit_succ (by omega)]
  exact vga_scroll_checked _

theorem store_checked {c : Byte} {v : Vga} (hx : v.tx.toNat < 80) (hy : v.ty.toNat ≤ 24) :
    Checked.store c v = some (let w := cursor (v.tx + 1#8) v.ty v
      { w with
        mem := setCell w.mem ((w.ty.toNat * WIDTH + w.tx.toNat) % 2 ^ 16) (vga_entry 0x07#8 c)
        tx := w.tx + 1#8 }) := by
  have hoff : v.ty.toNat * WIDTH + v.tx.toNat < 2000 := by
    simp only [WIDTH]
    omega
  have hmod : (v.ty.toNat * WIDTH + v.tx.toNat) % 2 ^ 16 < 2000 :=
    Nat.lt_of_le_of_lt (Nat.mod_le _ _) hoff
  have hindex : Checked.cellIndex ((v.ty.toNat * WIDTH + v.tx.toNat) % 2 ^ 16) = some () :=
    if_pos hmod
  unfold Checked.store
  simp only [fit_succ (show v.tx.toNat < 255 by omega), Option.bind_eq_bind, Option.bind_some,
    cursor_checked, cursor, fit_eq (show v.ty.toNat * WIDTH + v.tx.toNat < 2 ^ 16 by omega),
    BitVec.toNat_ofNat, hindex, Option.pure_def]

theorem putc_checked {v : Vga} (h : InBounds v) (c : Byte) :
    Checked.putc c v = some (putc c v) := by
  unfold Checked.putc putc
  split
  · rfl
  · -- the pending wrap, on both sides
    obtain ⟨w, hw, hc, hin, hlt⟩ : ∃ w, (if WIDTH ≤ v.tx.toNat then
        vga_scroll { v with tx := 0#8, ty := v.ty + 1#8 } else v) = w ∧
        (if WIDTH ≤ v.tx.toNat then Checked.advance v else some v) = some w ∧
        InBounds w ∧ w.tx.toNat < 80 := by
      refine ⟨_, rfl, ?_⟩
      by_cases hx : WIDTH ≤ v.tx.toNat
      · rw [if_pos hx, if_pos hx]
        refine ⟨advance_checked h, inBounds_advance v, ?_⟩
        unfold vga_scroll
        split <;> exact Nat.zero_lt_succ _
      · rw [if_neg hx, if_neg hx]
        simp only [WIDTH] at hx
        exact ⟨rfl, h, by omega⟩
    simp only [hw, hc, Option.bind_some]
    by_cases hn : c = ch '\n' ∨ c = ch '\r'
    · rw [if_pos hn, if_pos hn, advance_checked hin, Option.bind_some, cursor_checked]
    · rw [if_neg hn, if_neg hn]
      exact store_checked hlt hin.ty

theorem eachChar_eq {σ : Type*} {rd : σ → CStr} {f : Byte → σ → σ} {g : Byte → σ → Option σ}
    {I : σ → Prop} (hg : ∀ c t, I t → g c t = some (f c t) ∧ I (f c t)) :
    ∀ (fuel i : Nat) (t : σ), I t →
      Checked.eachChar rd g fuel i t = some (forEachChar rd f fuel i t)
  | 0, _, _, _ => rfl
  | fuel + 1, i, t, hI => by
    rw [Checked.eachChar, forEachChar]
    split
    · rfl
    · obtain ⟨hc, hI'⟩ := hg (rd t i) t hI
      rw [hc, Option.bind_some]
      exact eachChar_eq hg fuel (i + 1) _ hI'

theorem puts_checked {v : Vga} (h : InBounds v) (s : Nat) : Checked.puts s v = some (puts s v) := by
  unfold Checked.puts puts
  split
  · rfl
  · exact eachChar_eq (fun c t hI => ⟨putc_checked hI c, (putc_screen hI c).1⟩) _ _ _ h

theorem setpos_checked (x y : Byte) (v : Vga) : Checked.setpos x y v = some (setpos x y v) := by
  unfold Checked.setpos setpos
  split
  · rfl
  · split
    · exact vga_scroll_checked _
    · exact vga_scroll_checked _

theorem clrline_checked {v : Vga} (h : InBounds v) : Checked.clrline v = some (clrline v) := by
  have hy := h.ty
  unfold Checked.clrline Checked.bytes
  rw [if_pos (by simp only [WIDTH]; omega)]
  rfl

/-! ## Sequences of calls -/

/-- A call of the driver; `puts` takes the address of its string. -/
inductive Op where
  | vga_init
  | putc (c : Byte)
  | puts (s : Nat)
  | setpos (x y : Byte)
  | setpos_x (x : Byte)
  | clrline

namespace Op

def exec : Op → Vga → Option Vga
  | .vga_init, v => some (I386.vga_init v)
  | .putc c, v => some (I386.putc c v)
  | .puts s, v => I386.puts s v
  | .setpos x y, v => some (I386.setpos x y v)
  | .setpos_x x, v => some (I386.setpos_x x v)
  | .clrline, v => some (I386.clrline v)

/-- The call with its checks: `none` is a check that fails. -/
def checked : Op → Vga → Option (Option Vga)
  | .vga_init, v => some (some (I386.vga_init v))
  | .putc c, v => (Checked.putc c v).map some
  | .puts s, v => Checked.puts s v
  | .setpos x y, v => (Checked.setpos x y v).map some
  | .setpos_x x, v => some (some (I386.setpos_x x v))
  | .clrline, v => (Checked.clrline v).map some

theorem checked_eq {v : Vga} (h : InBounds v) (op : Op) : op.checked v = some (op.exec v) := by
  cases op with
  | vga_init => rfl
  | putc c => exact congrArg (Option.map some) (putc_checked h c)
  | puts s => exact puts_checked h s
  | setpos x y => exact congrArg (Option.map some) (setpos_checked x y v)
  | setpos_x x => rfl
  | clrline => exact congrArg (Option.map some) (clrline_checked h)

theorem exec_inBounds {v v' : Vga} {op : Op} (h : InBounds v) (he : op.exec v = some v') :
    InBounds v' := by
  cases op <;> simp only [exec, Option.some.injEq] at he
  case vga_init => exact he ▸ inBounds_init v
  case putc c => exact he ▸ (putc_screen h c).1
  case puts s =>
    unfold I386.puts at he
    split at he
    · cases he
      exact h
    · exact forEachChar_preserves (I := InBounds) (fun c t hI => (putc_screen hI c).1) h he
  case setpos x y =>
    subst he
    unfold I386.setpos
    split
    · exact h
    · rename_i hx
      exact inBounds_scroll (Nat.le_of_not_lt hx)
  case setpos_x x =>
    subst he
    unfold I386.setpos_x
    split
    · exact h
    · rename_i hx
      exact ⟨Nat.le_of_not_lt hx, h.ty⟩
  case clrline => exact he ▸ ⟨h.tx, h.ty⟩

end Op

/-- **The console's bounds.** After `vga_init`, every call of every sequence passes every
check, does what the checked driver does, and leaves the position on the screen. -/
theorem vga_in_bounds (v₀ : Vga) (ops : List Op) :
    AtEvery Op.exec (fun op v => op.checked v = some (op.exec v) ∧
      ∀ v', op.exec v = some v' → InBounds v') ops (vga_init v₀) := by
  intro pre op v _ hrun
  have hin : InBounds v :=
    runs_preserves (fun _ _ _ h he => Op.exec_inBounds h he) (inBounds_init v₀) hrun
  exact ⟨Op.checked_eq hin op, fun v' he => Op.exec_inBounds hin he⟩

end Osdev2.I386
