import ChipEight.Proofs.Bare.Screen

/-!
# ChipEight.Proofs.Drawing.Hits

What a sprite of any length does to a picture, without the order in which its bits are drawn.

* `Sprite.touched`, `Sprite.hits` — the pixels under the set bits of a sprite, and how many set bits
  there are over one of them. A sprite of more than 32 rows comes round to its own pixels.
* `Picture.Flips` — a picture became another one when some pixels were flipped one by one. Only how
  often each of them was flipped matters, so `Flips` is kept along any two lists (`Flips.append`)
  and by any order (`Flips.perm`).
* `Flips.stripe`, `blit_flips` — one row of a sprite, and all of them.
* `draw_by_hits` — the pixels and the collision after a drawing, by the hits.
-/

namespace ChipEight

/-- A column and a row. -/
abbrev Pixel := Fin 64 × Fin 32

namespace Pixel

theorem column_lt (x : Nat) : x % 64 < 64 := Nat.mod_lt x (by decide)

theorem row_lt (y : Nat) : y % 32 < 32 := Nat.mod_lt y (by decide)

def column (x : Nat) : Fin 64 := ⟨x % 64, column_lt x⟩

def row (y : Nat) : Fin 32 := ⟨y % 32, row_lt y⟩

/-- The pixel at coordinates that count round the edges. -/
def ofNat (x y : Nat) : Pixel := (column x, row y)

theorem ofNat_eq_iff {x y : Nat} {a : Pixel} :
    ofNat x y = a ↔ a.1.val = x % 64 ∧ a.2.val = y % 32 := by
  obtain ⟨c, r⟩ := a
  simp only [ofNat, column, row, Prod.mk.injEq, Fin.ext_iff]
  exact and_congr eq_comm eq_comm

end Pixel

namespace Sprite

/-- The pixels under the set bits among the first `width` of a row. -/
def touchedByRow (width : Nat) (bits : Byte) (x y : Nat) : List Pixel :=
  ((List.range width).filter bits.getMsbD).map fun b => Pixel.ofNat (x + b) y

/-- The pixels under the set bits of a sprite, a pixel once for each bit over it. Bit `b` of row `k`
lies over column `x + b` of row `y + k`, both counted round the edges. -/
def touched (sprite : List Byte) (x y : Nat) : List Pixel :=
  sprite.zipIdx.flatMap fun (bits, k) => touchedByRow 8 bits x (y + k)

def hits (sprite : List Byte) (x y : Nat) (a : Pixel) : Nat := (touched sprite x y).count a

variable (bits : Byte) (sprite rest : List Byte) (x y : Nat)

@[simp] theorem touched_nil : touched [] x y = [] := rfl

theorem touched_cons :
    touched (bits :: rest) x y = touchedByRow 8 bits x y ++ touched rest x (y + 1) := by
  simp only [touched, List.zipIdx_cons', List.flatMap_cons, List.flatMap_map, Nat.add_zero]
  congr 2
  funext row
  obtain ⟨bits, k⟩ := row
  simp [Nat.add_assoc, Nat.add_comm 1 k]

theorem touched_append :
    touched (sprite ++ rest) x y = touched sprite x y ++ touched rest x (y + sprite.length) := by
  induction sprite generalizing y with
  | nil => rfl
  | cons bits sprite ih =>
    rw [List.cons_append, touched_cons, touched_cons, ih, List.append_assoc, List.length_cons,
      Nat.add_assoc y 1, Nat.add_comm 1]

theorem touchedByRow_succ (k : Nat) :
    touchedByRow (k + 1) bits x y =
      touchedByRow k bits x y ++
        if bits.getMsbD k = true then [Pixel.ofNat (x + k) y] else [] := by
  rw [touchedByRow, List.range_succ, List.filter_append, List.map_append, List.filter_cons]
  cases bits.getMsbD k <;> rfl

/-- Over a pixel lies at most one bit of a row, and none unless the pixel is in that row. -/
theorem count_touchedByRow {width : Nat} (hwidth : width ≤ 8) (a : Pixel) :
    (touchedByRow width bits x y).count a =
      if a.2.val = y % 32 ∧ (Picture.stripe (Picture.leading width bits) x).getMsbD a.1 = true
      then 1 else 0 := by
  induction width with
  | zero =>
    rw [Picture.leading_zero, Picture.stripe_zero]
    simp [touchedByRow]
  | succ k ih =>
    have hbit := Picture.stripe_leading_succ bits x k a.1.isLt hwidth
    have hfree := Picture.stripe_leading_self bits x k hwidth
    have hpixel : [Pixel.ofNat (x + k) y].count a =
        if a.1.val = (x + k) % 64 ∧ a.2.val = y % 32 then 1 else 0 := by
      simp only [List.count_singleton, beq_iff_eq, Pixel.ofNat_eq_iff]
    rw [touchedByRow_succ, List.count_append, ih (by omega), hbit]
    cases bits.getMsbD k with
    | false => simp
    | true =>
      rw [if_pos rfl, hpixel]
      -- Bit `k` lies over a column that the bits before it have left free.
      by_cases hrow : a.2.val = y % 32
      · by_cases hcolumn : a.1.val = (x + k) % 64
        · simp [hrow, hcolumn, hfree]
        · simp [hrow, hcolumn]
      · simp [hrow]

theorem row_of_mem_touched {a : Pixel} (h : a ∈ touched sprite x y) :
    ∃ k, k < sprite.length ∧ a.2.val = (y + k) % 32 := by
  obtain ⟨⟨bits, k⟩, hrow, hbit⟩ := List.mem_flatMap.mp h
  obtain ⟨b, -, hpixel⟩ := List.mem_map.mp hbit
  exact ⟨k, (List.mem_zipIdx' hrow).1, (Pixel.ofNat_eq_iff.mp hpixel).2⟩

/-- A sprite that does not come round from bottom to top has one bit at most over a pixel. -/
theorem hits_le_one (hlength : sprite.length ≤ 32) (a : Pixel) : hits sprite x y a ≤ 1 := by
  induction sprite generalizing y with
  | nil => exact Nat.zero_le 1
  | cons bits rest ih =>
    rw [List.length_cons] at hlength
    have hrest := ih (y + 1) (by omega)
    have hcount := count_touchedByRow bits x y (Nat.le_refl 8) a
    rw [hits] at hrest ⊢
    rw [touched_cons, List.count_append, hcount]
    split
    case isFalse => omega
    case isTrue hrow =>
      -- The pixel is in the first row, and the other rows lie elsewhere.
      have hnone : a ∉ touched rest x (y + 1) := by
        intro hmem
        obtain ⟨k, hk, hother⟩ := row_of_mem_touched rest x (y + 1) hmem
        omega
      have hzero := List.count_eq_zero_of_not_mem hnone
      omega

end Sprite

namespace Picture

/-! ## Flips -/

theorem lit_of_lt (p : Picture) {c r : Nat} (hc : c < 64) (hr : r < 32) :
    p.lit c r = p[r].getMsbD c := by
  simp only [lit, Fin.getElem_fin, Fin.val_ofNat, Nat.mod_eq_of_lt hc, Nat.mod_eq_of_lt hr]

theorem ext_lit {p q : Picture} (h : ∀ a : Pixel, p.lit a.1 a.2 = q.lit a.1 a.2) : p = q := by
  apply Vector.ext
  intro r hr
  apply BitVec.eq_of_getMsbD_eq
  intro c hc
  rw [← p.lit_of_lt hc hr, ← q.lit_of_lt hc hr]
  exact h (⟨c, hc⟩, ⟨r, hr⟩)

theorem odd_add (n m : Nat) :
    decide ((n + m) % 2 = 1) = (decide (n % 2 = 1) ^^ decide (m % 2 = 1)) := by
  rw [Bool.eq_iff_iff]
  simp only [bne_iff_ne, ne_eq, decide_eq_decide, decide_eq_true_eq]
  omega

/-- Of `n` flips of a pixel and then `m` more, one finds it lit if one of the first or one of the
others does. -/
theorem finds_lit_add (lit : Bool) (n m : Nat) :
    (1 ≤ n + m ∧ lit = true ∨ 2 ≤ n + m) ↔
      (1 ≤ n ∧ lit = true ∨ 2 ≤ n) ∨ (1 ≤ m ∧ (lit ^^ decide (n % 2 = 1)) = true ∨ 2 ≤ m) := by
  cases lit
  · simp only [Bool.false_eq_true, Bool.false_xor, decide_eq_true_eq, and_false, false_or]
    omega
  · simp only [Bool.true_xor, Bool.not_eq_true', decide_eq_false_iff_not, and_true]
    omega

/-- One picture became the other when the pixels of a list were flipped one by one, and `erased`
tells whether one of them was lit when it was flipped. With a pixel that is flipped again, that
happens at the second time if not at the first. -/
structure Flips (touched : List Pixel) (p q : Picture) (erased : Bool) : Prop where
  lit : ∀ a : Pixel, q.lit a.1 a.2 = (p.lit a.1 a.2 ^^ decide (touched.count a % 2 = 1))
  erased :
    erased = true ↔
      ∃ a : Pixel, 1 ≤ touched.count a ∧ p.lit a.1 a.2 = true ∨ 2 ≤ touched.count a

namespace Flips

variable {touched later : List Pixel} {p q r : Picture} {erased erased' : Bool}

theorem nil (p : Picture) : Flips [] p p false := by
  constructor <;> simp

theorem append (h : Flips touched p q erased) (h' : Flips later q r erased') :
    Flips (touched ++ later) p r (erased || erased') := by
  constructor
  · intro a
    rw [h'.lit, h.lit, List.count_append, Bool.xor_assoc, odd_add]
  · rw [Bool.or_eq_true, h.erased, h'.erased, ← exists_or]
    refine exists_congr fun a => ?_
    rw [h.lit, List.count_append, finds_lit_add]

/-- The order of the flips leaves no trace. -/
theorem perm (h : Flips touched p q erased) (hperm : touched.Perm later) :
    Flips later p q erased := by
  constructor
  · intro a
    rw [h.lit, hperm.count_eq]
  · simp only [h.erased, hperm.count_eq]

theorem unique (h : Flips touched p q erased) (h' : Flips touched p r erased') :
    q = r ∧ erased = erased' := by
  constructor
  · exact ext_lit fun a => (h.lit a).trans (h'.lit a).symm
  · rw [Bool.eq_iff_iff, h.erased, h'.erased]

/-- Where no pixel is flipped twice, a lit one that was flipped is dark in the end. -/
theorem erased_iff_of_once (h : Flips touched p q erased) (honce : ∀ a, touched.count a ≤ 1) :
    erased = true ↔ ∃ a : Pixel, p.lit a.1 a.2 = true ∧ q.lit a.1 a.2 = false := by
  rw [h.erased]
  refine exists_congr fun a => ?_
  have hcount := honce a
  rw [h.lit]
  cases p.lit a.1 a.2
  · simp only [Bool.false_eq_true, and_false, false_and, false_or, iff_false]
    omega
  · simp only [Bool.true_xor, Bool.not_eq_false', decide_eq_true_eq, and_true, true_and]
    omega

theorem stripe (p : Picture) (bits : Byte) (x : Nat) {y r : Nat} (hr : r < 32) (hy : r = y % 32) :
    Flips (Sprite.touchedByRow 8 bits x y) p (p.set r (p[r] ^^^ Picture.stripe bits x) hr)
      (p[r] &&& Picture.stripe bits x != 0) := by
  have hcount : ∀ a : Pixel, (Sprite.touchedByRow 8 bits x y).count a =
      if a.2.val = r ∧ (Picture.stripe bits x).getMsbD a.1 = true then 1 else 0 := by
    intro a
    rw [Sprite.count_touchedByRow bits x y (Nat.le_refl 8) a, leading_eight, hy]
  constructor
  · intro a
    rw [hcount, lit_of_lt _ a.1.isLt a.2.isLt, lit_of_lt _ a.1.isLt a.2.isLt, Vector.getElem_set]
    by_cases hrow : a.2.val = r
    · cases hbit : (Picture.stripe bits x).getMsbD a.1 <;> simp [hrow, hbit]
    · simp [hrow, Ne.symm hrow]
  · rw [bne_iff_ne, row_ne_zero_iff]
    constructor
    · rintro ⟨c, hc, hbit⟩
      rw [BitVec.getMsbD_and, Bool.and_eq_true] at hbit
      refine ⟨(⟨c, hc⟩, ⟨r, hr⟩), .inl ⟨Nat.le_of_eq ?_, ?_⟩⟩
      · rw [hcount, if_pos ⟨rfl, hbit.2⟩]
      · rw [lit_of_lt p hc hr]
        exact hbit.1
    · rintro ⟨⟨⟨c, hc⟩, ⟨r', hr'⟩⟩, h⟩
      rw [hcount, lit_of_lt p hc hr'] at h
      split at h
      case isFalse => omega
      case isTrue htouched =>
        obtain ⟨hsame, hbit⟩ := htouched
        obtain ⟨-, hlit⟩ | htwice := h
        · cases hsame
          refine ⟨c, hc, ?_⟩
          rw [BitVec.getMsbD_and, hbit, Bool.and_true]
          exact hlit
        · omega

end Flips

theorem blit_flips (p : Picture) (sprite : List Byte) (x y : Nat) :
    Flips (Sprite.touched sprite x y) p (p.blit sprite x (Fin.ofNat 32 y)).1
      (p.blit sprite x (Fin.ofNat 32 y)).2 := by
  induction sprite generalizing p y with
  | nil => exact .nil p
  | cons bits rest ih =>
    rw [Sprite.touched_cons, blit, next_row]
    exact (Flips.stripe p bits x (Fin.ofNat 32 y).isLt rfl).append (ih _ (y + 1))

end Picture

namespace Screen

theorem eq_of_picture_changed {s t : Screen} (hpicture : s.picture = t.picture)
    (hchanged : s.changed = t.changed) : s = t := by
  cases s
  cases t
  cases hpicture
  cases hchanged
  rfl

variable (s : Screen) (sprite : List Byte) (x y : Byte)

theorem draw_flips :
    Picture.Flips (Sprite.touched sprite x.toNat y.toNat) s.picture (s.draw sprite x y).1.picture
      (s.draw sprite x y).2 :=
  s.picture.blit_flips sprite x.toNat y.toNat

@[simp] theorem draw_changed : (s.draw sprite x y).1.changed = true := rfl

theorem byte_of (a : Pixel) :
    (Bare.Screen.of s).pixels[a.2][a.1] = if s.picture.lit a.1 a.2 then 1 else 0 := by
  rw [Picture.lit_of_lt _ a.1.isLt a.2.isLt]
  simp only [Bare.Screen.of, Fin.getElem_fin, Bare.Pixels.getElem_ofPicture _ a.2.isLt,
    Bare.Pixels.getElem_ofRow _ a.1.isLt]
  rfl

/-- A drawing by its hits, for a sprite of any length at any place. A pixel is lit afterwards if it
was lit and the number of set bits over it is even, or was not and it is odd. There is a collision
exactly if some pixel was lit with a set bit over it, or has two set bits over it. The screen is
marked as changed even if the sprite is empty. The bytes of the screen are drawn on to the same
effect, and each of them still is 1 for a lit pixel and 0 for a dark one. -/
theorem draw_by_hits :
    let hits := Sprite.hits sprite x.toNat y.toNat
    let drawn := (s.draw sprite x y).1
    let collision := (s.draw sprite x y).2
    (∀ a : Pixel, drawn.picture.lit a.1 a.2 =
        (s.picture.lit a.1 a.2 ^^ decide (hits a % 2 = 1))) ∧
      (collision = true ↔ ∃ a : Pixel, 1 ≤ hits a ∧ s.picture.lit a.1 a.2 = true ∨ 2 ≤ hits a) ∧
      drawn.changed = true ∧
      (Bare.Screen.of s).drawSprite sprite x y = .ok (Bare.Screen.of drawn, collision) ∧
      ∀ a : Pixel, (Bare.Screen.of drawn).pixels[a.2][a.1] =
        if drawn.picture.lit a.1 a.2 then 1 else 0 := by
  have hflips := s.draw_flips sprite x y
  exact ⟨hflips.lit, hflips.erased, s.draw_changed sprite x y,
    Bare.drawSprite_ok s sprite x y, byte_of _⟩

/-- The last of 33 rows erases what the first one drew. -/
example : (blank.draw (List.replicate 33 0x80) 0 0).2 = true := by decide +kernel

end Screen
end ChipEight
