import ChipEight.Proofs.Drawing.Hits

/-!
# ChipEight.Proofs.Drawing.Torus

The screen has no edges to a sprite: it is drawn in the same way wherever it lies.

* `touched_congr` — only the place modulo 64 and 32 matters, not the byte that names it.
* `Screen.shift`  — all pixels moved right and down, round the edges (`lit_shift`).
* `Flips.shift`   — flips move along with the picture.
* `drawing_on_torus` — two sprites drawn one below the other, and a sprite on a shifted screen.
-/

namespace ChipEight

/-- The pixel `dx` to the right and `dy` down. -/
def Pixel.shift (dx dy : Nat) (a : Pixel) : Pixel :=
  ofNat (a.1.val + dx) (a.2.val + dy)

/-- All pixels moved `dx` to the right and `dy` down. -/
def Picture.shift (dx dy : Nat) (p : Picture) : Picture :=
  Vector.ofFn fun r => (p.get (Pixel.row (r.val + (32 - dy % 32)))).rotateRight dx

def Screen.shift (dx dy : Nat) (s : Screen) : Screen :=
  { s with picture := s.picture.shift dx dy }

namespace Pixel

variable (dx dy : Nat) (a b : Pixel)

theorem shift_inj : shift dx dy a = shift dx dy b ↔ a = b := by
  obtain ⟨⟨c, hc⟩, ⟨r, hr⟩⟩ := a
  obtain ⟨⟨c', hc'⟩, ⟨r', hr'⟩⟩ := b
  simp only [shift, ofNat, column, row, Prod.mk.injEq, Fin.mk.injEq]
  omega

theorem exists_shift : ∃ b, shift dx dy b = a := by
  refine ⟨shift (64 - dx % 64) (32 - dy % 32) a, ?_⟩
  obtain ⟨⟨c, hc⟩, ⟨r, hr⟩⟩ := a
  simp only [shift, ofNat, column, row, Prod.mk.injEq, Fin.mk.injEq]
  omega

theorem count_map_shift (touched : List Pixel) :
    (touched.map (shift dx dy)).count (shift dx dy a) = touched.count a := by
  rw [List.count, List.countP_map, List.count]
  congr 1
  funext b
  rw [Function.comp, Bool.eq_iff_iff, beq_iff_eq, beq_iff_eq, shift_inj]

end Pixel

namespace Sprite

variable (sprite : List Byte)

theorem touched_congr {x x' y y' : Nat} (hx : x % 64 = x' % 64) (hy : y % 32 = y' % 32) :
    touched sprite x y = touched sprite x' y' := by
  have hpixel : ∀ b k, Pixel.ofNat (x + b) (y + k) = Pixel.ofNat (x' + b) (y' + k) := by
    intro b k
    simp only [Pixel.ofNat, Pixel.column, Pixel.row, Prod.mk.injEq, Fin.mk.injEq]
    omega
  simp only [touched, touchedByRow, hpixel]

theorem touched_shift (x y dx dy : Nat) :
    touched sprite (x + dx) (y + dy) = (touched sprite x y).map (Pixel.shift dx dy) := by
  have hpixel : ∀ b k, Pixel.ofNat (x + dx + b) (y + dy + k) =
      Pixel.shift dx dy (Pixel.ofNat (x + b) (y + k)) := by
    intro b k
    simp only [Pixel.shift, Pixel.ofNat, Pixel.column, Pixel.row, Prod.mk.injEq, Fin.mk.injEq]
    omega
  simp only [touched, touchedByRow, List.map_flatMap, List.map_map, hpixel]
  rfl

end Sprite

namespace Picture

theorem lit_eq_get (p : Picture) (c r : Nat) :
    p.lit c r = (p.get (Pixel.row r)).getMsbD (c % 64) := rfl

theorem lit_mod (p : Picture) (c r : Nat) : p.lit (c % 64) (r % 32) = p.lit c r := by
  have hrow : Pixel.row (r % 32) = Pixel.row r := Fin.ext (Nat.mod_mod r 32)
  rw [lit_eq_get, lit_eq_get, hrow, Nat.mod_mod]

theorem get_shift (p : Picture) (dx dy : Nat) (r : Fin 32) :
    (p.shift dx dy).get r = (p.get (Pixel.row (r.val + (32 - dy % 32)))).rotateRight dx :=
  Vector.getElem_ofFn r.isLt

theorem lit_shift (p : Picture) (dx dy c r : Nat) :
    (p.shift dx dy).lit (c + dx) (r + dy) = p.lit c r := by
  have hrow : Pixel.row ((Pixel.row (r + dy)).val + (32 - dy % 32)) = Pixel.row r := by
    simp only [Pixel.row, Fin.mk.injEq]
    omega
  rw [lit_eq_get, lit_eq_get, get_shift, hrow, BitVec.getMsbD_rotateRight]
  -- The rotation takes a column from the right end where `c + dx` comes round.
  have hcolumn : (c + dx) % 64 < 64 := Nat.mod_lt _ (by decide)
  by_cases hround : (c + dx) % 64 < dx % 64
  · rw [if_pos hround, show (64 + (c + dx) % 64 - dx % 64) % 64 = c % 64 by omega]
    simp [hcolumn]
  · rw [if_neg hround, show (c + dx) % 64 - dx % 64 = c % 64 by omega]
    simp [hcolumn]

namespace Flips

/-- Flips on a shifted picture. -/
theorem shift {touched : List Pixel} {p q : Picture} {erased : Bool}
    (h : Flips touched p q erased) (dx dy : Nat) :
    Flips (touched.map (Pixel.shift dx dy)) (p.shift dx dy) (q.shift dx dy) erased := by
  have hlit : ∀ (p : Picture) (a : Pixel),
      (p.shift dx dy).lit (Pixel.shift dx dy a).1 (Pixel.shift dx dy a).2 = p.lit a.1 a.2 := by
    intro p a
    rw [← p.lit_shift dx dy, ← lit_mod _ (a.1.val + dx)]
    rfl
  constructor
  · intro a
    obtain ⟨b, rfl⟩ := Pixel.exists_shift dx dy a
    rw [hlit, hlit, Pixel.count_map_shift, h.lit]
  · rw [h.erased]
    constructor
    · rintro ⟨a, ha⟩
      exact ⟨Pixel.shift dx dy a, by rwa [hlit, Pixel.count_map_shift]⟩
    · rintro ⟨a, ha⟩
      obtain ⟨b, rfl⟩ := Pixel.exists_shift dx dy a
      rw [hlit, Pixel.count_map_shift] at ha
      exact ⟨b, ha⟩

end Flips
end Picture

namespace Screen

variable (s : Screen)

/-- A sprite that is cut in two rows of bytes, drawn from the top. -/
theorem draw_append (above below : List Byte) (x y : Byte) :
    let first := s.draw above x y
    let second := first.1.draw below x (y + BitVec.ofNat 8 above.length)
    s.draw (above ++ below) x y = (second.1, first.2 || second.2) := by
  intro first second
  have hplace : Sprite.touched below x.toNat (y + BitVec.ofNat 8 above.length).toNat =
      Sprite.touched below x.toNat (y.toNat + above.length) := by
    apply Sprite.touched_congr below rfl
    rw [BitVec.toNat_add, BitVec.toNat_ofNat]
    omega
  have hwhole := s.draw_flips (above ++ below) x y
  have hparts := (s.draw_flips above x y).append
    (first.1.draw_flips below x (y + BitVec.ofNat 8 above.length))
  rw [hplace, ← Sprite.touched_append] at hparts
  obtain ⟨hpicture, hcollision⟩ := hwhole.unique hparts
  exact Prod.ext (eq_of_picture_changed hpicture rfl) hcollision

theorem draw_shift (sprite : List Byte) (x y : Byte) (dx dy : Nat) :
    (s.shift dx dy).draw sprite (x + BitVec.ofNat 8 dx) (y + BitVec.ofNat 8 dy) =
      ((s.draw sprite x y).1.shift dx dy, (s.draw sprite x y).2) := by
  have hplace : Sprite.touched sprite (x + BitVec.ofNat 8 dx).toNat (y + BitVec.ofNat 8 dy).toNat =
      (Sprite.touched sprite x.toNat y.toNat).map (Pixel.shift dx dy) := by
    rw [← Sprite.touched_shift]
    apply Sprite.touched_congr
    · rw [BitVec.toNat_add, BitVec.toNat_ofNat]
      omega
    · rw [BitVec.toNat_add, BitVec.toNat_ofNat]
      omega
  have hshifted := (s.shift dx dy).draw_flips sprite (x + BitVec.ofNat 8 dx) (y + BitVec.ofNat 8 dy)
  rw [hplace] at hshifted
  obtain ⟨hpicture, hcollision⟩ := hshifted.unique ((s.draw_flips sprite x y).shift dx dy)
  exact Prod.ext (eq_of_picture_changed hpicture rfl) hcollision

/-- Two sprites in one are the first and, as many rows further down as it has, the second; the
collision is that of either. And a shift of the screen by any number of columns and rows, under
which each pixel keeps its light at its new place, may come before a drawing at the shifted place or
after one at the old place. -/
theorem drawing_on_torus :
    (∀ (above below : List Byte) (x y : Byte),
        let first := s.draw above x y
        let second := first.1.draw below x (y + BitVec.ofNat 8 above.length)
        s.draw (above ++ below) x y = (second.1, first.2 || second.2)) ∧
      ∀ dx dy : Nat,
        (∀ c r, (s.shift dx dy).picture.lit (c + dx) (r + dy) = s.picture.lit c r) ∧
          ∀ (sprite : List Byte) (x y : Byte),
            (s.shift dx dy).draw sprite (x + BitVec.ofNat 8 dx) (y + BitVec.ofNat 8 dy) =
              ((s.draw sprite x y).1.shift dx dy, (s.draw sprite x y).2) :=
  ⟨s.draw_append, fun dx dy =>
    ⟨s.picture.lit_shift dx dy, fun sprite x y => s.draw_shift sprite x y dx dy⟩⟩

end Screen
end ChipEight
