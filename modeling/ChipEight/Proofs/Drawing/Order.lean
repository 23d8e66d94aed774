import ChipEight.Proofs.Drawing.Hits

/-!
# ChipEight.Proofs.Drawing.Order

A list of drawings leaves the same picture in any order, and one of them collides in one order if
one does in another. Which of them it is does depend on the order.

* `Screen.drawAll`   — drawings one after another, with the collision that each reported.
* `drawAll_flips`    — all of them flip the pixels that each of them touches.
* `draw_twice`       — the second time undoes the first, and one of them collides unless the sprite
  is empty of bits.
* `drawing_order_irrelevant` — the theorem on any order.
-/

namespace ChipEight

structure Drawing where
  sprite : List Byte
  x : Byte
  y : Byte
  deriving DecidableEq

namespace Drawing

def on (d : Drawing) (s : Screen) : Screen × Bool := s.draw d.sprite d.x d.y

def touched (d : Drawing) : List Pixel := Sprite.touched d.sprite d.x.toNat d.y.toNat

end Drawing

/-- Drawings one after another, each with its collision. -/
def Screen.drawAll (s : Screen) : List Drawing → Screen × List Bool
  | [] => (s, [])
  | d :: rest =>
    let (drawn, collision) := d.on s
    let (last, collisions) := drawn.drawAll rest
    (last, collision :: collisions)

namespace Sprite

theorem exists_touchedByRow_iff (bits : Byte) (x y : Nat) :
    (∃ a, a ∈ touchedByRow 8 bits x y) ↔ bits ≠ 0 := by
  rw [Picture.row_ne_zero_iff]
  constructor
  · rintro ⟨a, ha⟩
    obtain ⟨b, hb, -⟩ := List.mem_map.mp ha
    rw [List.mem_filter, List.mem_range] at hb
    exact ⟨b, hb⟩
  · rintro ⟨b, hb, hbit⟩
    exact ⟨_, List.mem_map.mpr ⟨b, List.mem_filter.mpr ⟨List.mem_range.mpr hb, hbit⟩, rfl⟩⟩

/-- A sprite has a set bit over some pixel if it has one at all. -/
theorem exists_touched_iff (sprite : List Byte) (x y : Nat) :
    (∃ a, a ∈ touched sprite x y) ↔ ∃ bits ∈ sprite, bits ≠ 0 := by
  induction sprite generalizing y with
  | nil => simp
  | cons bits rest ih =>
    simp only [touched_cons, List.mem_append, exists_or, exists_touchedByRow_iff, ih,
      List.mem_cons, or_and_right, exists_eq_left]

end Sprite

namespace Screen

variable (s : Screen)

theorem drawAll_flips (ds : List Drawing) :
    Picture.Flips (ds.flatMap Drawing.touched) s.picture (s.drawAll ds).1.picture
      ((s.drawAll ds).2.any id) := by
  induction ds generalizing s with
  | nil => exact .nil s.picture
  | cons d rest ih => exact (s.draw_flips d.sprite d.x d.y).append (ih (d.on s).1)

theorem drawAll_changed (ds : List Drawing) :
    (s.drawAll ds).1.changed = (s.changed || !ds.isEmpty) := by
  induction ds generalizing s with
  | nil => simp [drawAll]
  | cons d rest ih =>
    show ((d.on s).1.drawAll rest).1.changed = _
    rw [ih]
    simp [Drawing.on]

theorem draw_twice (sprite : List Byte) (x y : Byte) :
    let once := s.draw sprite x y
    let twice := once.1.draw sprite x y
    twice.1.picture = s.picture ∧
      (once.2 = true ∨ twice.2 = true ↔ ∃ bits ∈ sprite, bits ≠ 0) := by
  intro once twice
  have hflips := (s.draw_flips sprite x y).append (once.1.draw_flips sprite x y)
  constructor
  · apply Picture.ext_lit
    intro a
    rw [hflips.lit, List.count_append, ← Nat.two_mul, Nat.mul_mod_right]
    simp
  · rw [← Bool.or_eq_true, hflips.erased, ← Sprite.exists_touched_iff sprite x.toNat y.toNat]
    refine exists_congr fun a => ?_
    rw [List.count_append, ← List.one_le_count_iff]
    -- A pixel that is touched is touched by both.
    constructor
    · rintro (⟨hone, -⟩ | htwo) <;> omega
    · intro hone
      exact .inr (by omega)

/-- The order of drawings does not matter to the screen that they leave, nor to whether one of them
collided; a single one may collide in one order and not in another. The same sprite twice at the
same place leaves every pixel as it was, and one of the two collides exactly if the sprite has a set
bit. -/
theorem drawing_order_irrelevant :
    (∀ ds ds' : List Drawing, ds.Perm ds' →
        (s.drawAll ds).1 = (s.drawAll ds').1 ∧
          (s.drawAll ds).2.any id = (s.drawAll ds').2.any id) ∧
      (∃ (t : Screen) (d d' : Drawing), (d.on t).2 ≠ (d.on (d'.on t).1).2) ∧
      ∀ (sprite : List Byte) (x y : Byte),
        let once := s.draw sprite x y
        let twice := once.1.draw sprite x y
        twice.1.picture = s.picture ∧
          (once.2 = true ∨ twice.2 = true ↔ ∃ bits ∈ sprite, bits ≠ 0) := by
  refine ⟨?_, ?_, s.draw_twice⟩
  · intro ds ds' hperm
    have htouched := hperm.flatMap_right Drawing.touched
    obtain ⟨hpicture, hcollision⟩ :=
      ((s.drawAll_flips ds).perm htouched).unique (s.drawAll_flips ds')
    have hchanged : (s.drawAll ds).1.changed = (s.drawAll ds').1.changed := by
      rw [drawAll_changed, drawAll_changed, hperm.isEmpty_eq]
    exact ⟨eq_of_picture_changed hpicture hchanged, hcollision⟩
  · exact ⟨blank, ⟨[0x80], 0, 0⟩, ⟨[0xC0], 0, 0⟩, by decide⟩

/-- Three drawings round the corner of the screen, in two orders: the second of them collides only
in one, and the last of all does in both. -/
theorem drawing_order_irrelevant_corner :
    ∃ ds ds' : List Drawing, ds.Perm ds' ∧
      (blank.drawAll ds).2 = [false, true, true] ∧ (blank.drawAll ds').2 = [false, false, true] ∧
      (blank.drawAll ds).1 = (blank.drawAll ds').1 ∧
      (blank.drawAll ds).2.any id = (blank.drawAll ds').2.any id := by
  let ds : List Drawing := [⟨[0xC0], 63, 31⟩, ⟨[0x80], 255, 255⟩, ⟨[0x80, 0x80], 0, 30⟩]
  have hperm : ds.Perm ds.reverse := (List.reverse_perm ds).symm
  have hfirst : (blank.drawAll ds).2 = [false, true, true] := by decide +kernel
  have hsecond : (blank.drawAll ds.reverse).2 = [false, false, true] := by decide +kernel
  exact ⟨ds, ds.reverse, hperm, hfirst, hsecond, blank.drawing_order_irrelevant.1 _ _ hperm⟩

end Screen
end ChipEight
