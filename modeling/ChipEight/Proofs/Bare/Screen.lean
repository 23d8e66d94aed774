import ChipEight.Cpu
import ChipEight.Proofs.Bare.Storage
import ChipEight.Proofs.Picture
import ChipEight.Screen

/-!
# ChipEight.Proofs.Bare.Screen

The screen with a byte for every pixel, 1 for lit and 0 for dark. A sprite is drawn bit by bit,
each lit bit flips one pixel, and the flip itself notices a pixel that was lit.

* `Screen.drawSprite` — the drawing.
* `Pixels.ofPicture`  — the bytes of a picture; all of them are 0 or 1.
* `drawSprite_ok`     — no index leaves the grid, and the outcome is that of `Screen.draw`.
-/

namespace ChipEight
namespace Bare

abbrev Pixels := Vector (Vector Byte 64) 32

structure Screen where
  pixels : Pixels
  changed : Bool
  deriving DecidableEq

namespace Pixels

def dark : Pixels := Vector.replicate 32 (Vector.replicate 64 0)

/-- Flips a pixel, and tells whether it was lit. -/
def flip (p : Pixels) (x y : Nat) : Checked (Pixels × Bool) := do
  let row ← get p y
  let pixel ← get row x
  let row ← put row x (pixel ^^^ 1)
  let p ← put p y row
  return (p, pixel == 1)

/-- One bit of a sprite's row; the pair is the grid and whether anything was erased so far. -/
def drawBit (bits : Byte) (x y bit : Nat) (s : Pixels × Bool) : Checked (Pixels × Bool) := do
  let mask ← shiftRight (0x80 : Byte) bit
  if bits &&& mask = 0 then
    return s
  let (p, wasLit) ← flip s.1 ((x + bit) % 64) y
  return (p, s.2 || wasLit)

def drawRows (x y : Nat) : List Byte → Pixels × Bool → Checked (Pixels × Bool)
  | [], s => .ok s
  | bits :: rest, s => do
    let s ← countUp (drawBit bits x (y % 32)) 8 s
    drawRows x (y + 1) rest s

def ofRow (r : BitVec 64) : Vector Byte 64 := Vector.ofFn fun x => Cpu.flag (r.getMsbD x)

def ofPicture (p : Picture) : Pixels := p.map ofRow

end Pixels

def Screen.clear (_ : Screen) : Screen := ⟨Pixels.dark, true⟩

def Screen.drawSprite (s : Screen) (sprite : List Byte) (x y : Byte) : Checked (Screen × Bool) := do
  let (pixels, erased) ← Pixels.drawRows x.toNat y.toNat sprite (s.pixels, false)
  return (⟨pixels, true⟩, erased)

/-- The bytes behind a screen. -/
def Screen.of (s : ChipEight.Screen) : Screen := ⟨.ofPicture s.picture, s.changed⟩

/-! ## The bytes of a picture -/

namespace Pixels

theorem getElem_ofRow (r : BitVec 64) {x : Nat} (hx : x < 64) :
    (ofRow r)[x] = Cpu.flag (r.getMsbD x) := by
  rw [ofRow, Vector.getElem_ofFn]

theorem getElem_ofPicture (p : Picture) {y : Nat} (hy : y < 32) :
    (ofPicture p)[y] = ofRow p[y] := by
  rw [ofPicture, Vector.getElem_map]

theorem ofPicture_dark : ofPicture Picture.dark = dark := by
  apply Vector.ext
  intro y hy
  rw [getElem_ofPicture _ hy, Picture.dark, dark, Vector.getElem_replicate,
    Vector.getElem_replicate]
  apply Vector.ext
  intro x hx
  rw [getElem_ofRow _ hx, Vector.getElem_replicate]
  show Cpu.flag ((0#64).getMsbD x) = 0
  rw [BitVec.getMsbD_zero]
  rfl

theorem ofPicture_set (p : Picture) {y : Nat} (r : BitVec 64) (hy : y < 32) :
    ofPicture (p.set y r hy) = (ofPicture p).set y (ofRow r) hy := by
  apply Vector.ext
  intro k hk
  rw [getElem_ofPicture _ hk, Vector.getElem_set, Vector.getElem_set, getElem_ofPicture _ hk]
  split <;> rfl

theorem flag_eq_one (b : Bool) : (Cpu.flag b == 1) = b := by
  cases b <;> rfl

theorem flag_xor_one (b : Bool) : Cpu.flag b ^^^ 1 = Cpu.flag (!b) := by
  cases b <;> rfl

/-- Flipping one pixel of a row. -/
theorem ofRow_set {r q : BitVec 64} {x : Nat} (hx : x < 64)
    (h : ∀ c, c < 64 → q.getMsbD c = (r.getMsbD c ^^ (c == x))) :
    (ofRow r).set x (Cpu.flag (!r.getMsbD x)) hx = ofRow q := by
  apply Vector.ext
  intro c hc
  rw [Vector.getElem_set, getElem_ofRow _ hc, getElem_ofRow _ hc, h c hc]
  by_cases hcx : x = c
  · subst hcx
    simp
  · simp [hcx, beq_eq_false_iff_ne.mpr (Ne.symm hcx)]

/-- A flip on the bytes of a picture: the pixel tells whether it was lit, and any picture row `q`
that differs in just that column describes what is left. -/
theorem flip_ok (p : Picture) {x y : Nat} {q : BitVec 64} (hx : x < 64) (hy : y < 32)
    (h : ∀ c, c < 64 → q.getMsbD c = (p[y].getMsbD c ^^ (c == x))) :
    flip (ofPicture p) x y = .ok (ofPicture (p.set y q hy), p[y].getMsbD x) := by
  rw [flip, get_ok hy, ok_bind, getElem_ofPicture _ hy, get_ok hx, ok_bind, getElem_ofRow _ hx,
    put_ok _ hx, ok_bind, put_ok _ hy, ok_bind, flag_xor_one, ofRow_set hx h, flag_eq_one,
    ofPicture_set]
  rfl

end Pixels

/-! ## Drawing -/

namespace Pixels

open Picture

theorem mask_eq_zero_iff (bits : Byte) {k : Nat} (hk : k < 8) :
    bits &&& (0x80 : Byte) >>> k = 0 ↔ bits.getMsbD k = false := by
  have hone : ∀ i, i < 8 → ((0x80 : Byte) >>> k).getMsbD i = (i == k) := by
    intro i hi
    have hmsb : ∀ j, (0x80 : Byte).getMsbD j = (j == 0) := by
      intro j
      by_cases hj : j < 8
      · revert j
        decide
      · rw [BitVec.getMsbD_of_ge _ _ (by omega)]
        exact (beq_eq_false_iff_ne.mpr (by omega)).symm
    rw [BitVec.getMsbD_ushiftRight, hmsb]
    by_cases hik : i = k
    · subst hik
      simp [hi]
    · rw [beq_eq_false_iff_ne.mpr hik]
      by_cases hlt : i < k
      · simp [hlt]
      · rw [beq_eq_false_iff_ne.mpr (show i - k ≠ 0 by omega)]
        simp
  constructor
  · intro h
    have hbit := congrArg (BitVec.getMsbD · k) h
    simp only [BitVec.getMsbD_and, hone k hk, beq_self_eq_true, Bool.and_true] at hbit
    exact hbit.trans BitVec.getMsbD_zero
  · intro h
    apply BitVec.eq_of_getMsbD_eq
    intro i hi
    show (bits &&& (0x80 : Byte) >>> k).getMsbD i = (0#8).getMsbD i
    rw [BitVec.getMsbD_and, hone i hi, BitVec.getMsbD_zero]
    by_cases hik : i = k
    · rw [hik, h, Bool.false_and]
    · rw [beq_eq_false_iff_ne.mpr hik, Bool.and_false]

variable (p : Picture) (bits : Byte) (x : Nat) {y : Nat} (hy : y < 32) (erased : Bool)

/-- The grid and the flag when the first `k` bits of a row are on it. -/
def drawn (k : Nat) : Pixels × Bool :=
  (ofPicture (p.set y (p[y] ^^^ stripe (leading k bits) x) hy),
   erased || p[y] &&& stripe (leading k bits) x != 0)

theorem drawBit_ok {k : Nat} (hk : k < 8) :
    drawBit bits x y k (drawn p bits x hy erased k) = .ok (drawn p bits x hy erased (k + 1)) := by
  have hcol : (x + k) % 64 < 64 := Nat.mod_lt _ (by decide)
  rw [drawBit, shiftRight_ok hk, ok_bind]
  by_cases hbit : bits.getMsbD k = true
  · have hmask : ¬ bits &&& (0x80 : Byte) >>> k = 0 := by
      rw [mask_eq_zero_iff bits hk, hbit]
      decide
    have hq : ∀ c, c < 64 → (p[y] ^^^ stripe (leading (k + 1) bits) x).getMsbD c =
        ((p.set y (p[y] ^^^ stripe (leading k bits) x) hy)[y].getMsbD c ^^
          (c == (x + k) % 64)) := by
      intro c hc
      rw [Vector.getElem_set_self, BitVec.getMsbD_xor, BitVec.getMsbD_xor,
        stripe_leading_succ bits x k hc hk, hbit, Bool.true_and]
      by_cases h : c = (x + k) % 64
      · rw [h, stripe_leading_self bits x k hk]
        simp
      · simp [beq_eq_false_iff_ne.mpr h]
    rw [if_neg hmask, drawn, flip_ok _ hcol hy hq, ok_bind]
    dsimp only
    rw [pure_eq_ok, drawn, Vector.set_set, Vector.getElem_set_self, BitVec.getMsbD_xor,
      stripe_leading_self bits x k hk, and_stripe_leading_succ p[y] bits x k hk, hbit,
      Bool.or_assoc, Bool.xor_false, Bool.true_and]
  · have hskip : stripe (leading (k + 1) bits) x = stripe (leading k bits) x := by
      apply BitVec.eq_of_getMsbD_eq
      intro c hc
      rw [stripe_leading_succ bits x k hc hk, Bool.eq_false_iff.mpr hbit, Bool.false_and,
        Bool.or_false]
    rw [if_pos ((mask_eq_zero_iff bits hk).mpr (Bool.eq_false_iff.mpr hbit)), pure_eq_ok, drawn,
      drawn, hskip]

theorem drawRow_ok :
    countUp (drawBit bits x y) 8 (ofPicture p, erased) =
      .ok (ofPicture (p.set y (p[y] ^^^ stripe bits x) hy),
        erased || p[y] &&& stripe bits x != 0) := by
  have h := countUp_ok (drawn p bits x hy erased) fun k hk => drawBit_ok p bits x hy erased hk
  have hstart : drawn p bits x hy erased 0 = (ofPicture p, erased) := by
    rw [drawn, leading_zero, stripe_zero]
    simp
  rw [hstart, drawn, leading_eight] at h
  exact h

theorem drawRows_ok (sprite : List Byte) (y : Nat) :
    drawRows x y sprite (ofPicture p, erased) =
      .ok (ofPicture (p.blit sprite x (Fin.ofNat 32 y)).1,
        erased || (p.blit sprite x (Fin.ofNat 32 y)).2) := by
  induction sprite generalizing p y erased with
  | nil => simp [drawRows, blit]
  | cons bits rest ih =>
    rw [drawRows, drawRow_ok p bits x (Nat.mod_lt y (by decide)), ok_bind, ih, blit, next_row,
      Bool.or_assoc]
    rfl

end Pixels

@[simp] theorem drawSprite_ok (s : ChipEight.Screen) (sprite : List Byte) (x y : Byte) :
    (Screen.of s).drawSprite sprite x y =
      .ok (Screen.of (s.draw sprite x y).1, (s.draw sprite x y).2) := by
  rw [Screen.drawSprite, Screen.of, Pixels.drawRows_ok, ok_bind, Bool.false_or]
  rfl

@[simp] theorem clear_of (s : ChipEight.Screen) : (Screen.of s).clear = Screen.of s.clear := by
  rw [Screen.clear, Screen.of, ChipEight.Screen.clear, Pixels.ofPicture_dark]

/-- The bytes behind a screen are all 0 or 1. -/
theorem pixel_of (s : ChipEight.Screen) {x y : Nat} (hx : x < 64) (hy : y < 32) :
    (Screen.of s).pixels[y][x] = 0 ∨ (Screen.of s).pixels[y][x] = 1 := by
  rw [Screen.of, Pixels.getElem_ofPicture _ hy, Pixels.getElem_ofRow _ hx]
  cases s.picture[y].getMsbD x
  · exact .inl rfl
  · exact .inr rfl

end Bare
end ChipEight
