import ChipEight.Host.Texture

/-!
# ChipEight.Proofs.Host.Texture

What lies where in a texture that a picture was painted on.

* `getElem?_overwrite` — bytes written one after the other, place by place.
* `getElem?_line`      — the colour bytes of a line of pixels.
* `getElem?_paint`     — a painted texture: a line at the start of each row, and the padding behind
  it as it was.
* `Encodes`, `paint_encodes` — so every pixel has its colour in it.
-/

namespace ChipEight
namespace Host
namespace Texture

/-- Every pixel of the picture has its three colour bytes in the buffer, a row every `pitch`
bytes. -/
def Encodes (pitch : Nat) (buffer : Array Byte) (p : Picture) : Prop :=
  ∀ x y c, x < 64 → y < 32 → c < 3 →
    buffer[y * pitch + 3 * x + c]? = some (if p.lit x y then 255 else 0)

@[simp] theorem size_overwrite (buffer : Array Byte) (offset : Nat) (bytes : List Byte) :
    (overwrite buffer offset bytes).size = buffer.size := by
  induction bytes generalizing buffer offset with
  | nil => rfl
  | cons b rest ih => rw [overwrite, ih, Array.size_setIfInBounds]

theorem getElem?_overwrite {buffer : Array Byte} {offset : Nat} {bytes : List Byte}
    (hfits : offset + bytes.length ≤ buffer.size) (i : Nat) :
    (overwrite buffer offset bytes)[i]? =
      if offset ≤ i ∧ i < offset + bytes.length then bytes[i - offset]? else buffer[i]? := by
  induction bytes generalizing buffer offset with
  | nil =>
    rw [overwrite, if_neg]
    simp only [List.length_nil]
    omega
  | cons b rest ih =>
    rw [List.length_cons] at hfits ⊢
    rw [overwrite, ih (by rw [Array.size_setIfInBounds]; omega), Array.getElem?_setIfInBounds]
    by_cases hfirst : offset = i
    · subst hfirst
      rw [if_neg (by omega), if_pos rfl, if_pos (by omega), if_pos (by omega), Nat.sub_self]
      rfl
    · by_cases hrest : offset + 1 ≤ i ∧ i < offset + 1 + rest.length
      · have hplace : i - offset = i - (offset + 1) + 1 := by omega
        rw [if_pos hrest, if_pos (by omega), hplace, List.getElem?_cons_succ]
      · rw [if_neg hrest, if_neg hfirst, if_neg (by omega)]

/-! ## Lines -/

theorem length_shades (lit : Nat → Bool) (n : Nat) :
    ((List.range n).flatMap fun x => shade (lit x)).length = 3 * n := by
  induction n with
  | zero => rfl
  | succ n ih =>
    rw [List.range_succ, List.flatMap_append, List.length_append, ih]
    rfl

theorem getElem?_shades (lit : Nat → Bool) {n x c : Nat} (hx : x < n) (hc : c < 3) :
    ((List.range n).flatMap fun x => shade (lit x))[3 * x + c]? =
      some (if lit x then 255 else 0) := by
  induction n with
  | zero => exact absurd hx (Nat.not_lt_zero x)
  | succ n ih =>
    have hlength := length_shades lit n
    rw [List.range_succ, List.flatMap_append]
    by_cases hlast : x = n
    · subst hlast
      have hplace : 3 * x + c - 3 * x = c := by omega
      rw [List.getElem?_append_right (by omega), hlength, hplace, List.flatMap_singleton, shade,
        List.getElem?_replicate, if_pos hc]
    · rw [List.getElem?_append_left (by omega)]
      exact ih (by omega)

theorem length_line (p : Picture) (y : Nat) : (line p y).length = lineSize :=
  length_shades (fun x => p.lit x y) Picture.width

theorem getElem?_line (p : Picture) (y : Nat) {x c : Nat} (hx : x < Picture.width) (hc : c < 3) :
    (line p y)[3 * x + c]? = some (if p.lit x y then 255 else 0) :=
  getElem?_shades (fun x => p.lit x y) hx hc

/-! ## Pictures -/

/-- The first `n` lines of a picture, painted. -/
def paintLines (p : Picture) (pitch : Nat) (buffer : Array Byte) (n : Nat) : Array Byte :=
  (List.range n).foldl (fun buffer y => overwrite buffer (y * pitch) (line p y)) buffer

theorem paintLines_succ (p : Picture) (pitch : Nat) (buffer : Array Byte) (n : Nat) :
    paintLines p pitch buffer (n + 1) =
      overwrite (paintLines p pitch buffer n) (n * pitch) (line p n) := by
  rw [paintLines, paintLines, List.range_succ, List.foldl_append, List.foldl_cons, List.foldl_nil]

@[simp] theorem size_paintLines (p : Picture) (pitch : Nat) (buffer : Array Byte) (n : Nat) :
    (paintLines p pitch buffer n).size = buffer.size := by
  induction n with
  | zero => rfl
  | succ n ih => rw [paintLines_succ, size_overwrite, ih]

theorem getElem?_paintLines (p : Picture) {pitch : Nat} (hpitch : lineSize ≤ pitch)
    {buffer : Array Byte} {n : Nat} (hn : n * pitch ≤ buffer.size) (y : Nat) {j : Nat}
    (hj : j < pitch) :
    (paintLines p pitch buffer n)[y * pitch + j]? =
      if y < n ∧ j < lineSize then (line p y)[j]? else buffer[y * pitch + j]? := by
  induction n with
  | zero =>
    rw [if_neg (by omega)]
    rfl
  | succ n ih =>
    have hsucc : (n + 1) * pitch = n * pitch + pitch := Nat.succ_mul n pitch
    have hlength := length_line p n
    rw [paintLines_succ, getElem?_overwrite (by rw [size_paintLines]; omega), hlength,
      ih (by omega)]
    -- Row `y` lies before row `n`, is row `n`, or lies behind it.
    rcases Nat.lt_trichotomy y n with hlt | rfl | hgt
    · have hbefore : (y + 1) * pitch ≤ n * pitch := Nat.mul_le_mul_right pitch hlt
      rw [Nat.succ_mul] at hbefore
      rw [if_neg (by omega)]
      by_cases hline : j < lineSize
      · rw [if_pos ⟨hlt, hline⟩, if_pos ⟨by omega, hline⟩]
      · rw [if_neg (by omega), if_neg (by omega)]
    · by_cases hline : j < lineSize
      · rw [if_pos (by omega), if_pos ⟨by omega, hline⟩, Nat.add_sub_cancel_left]
      · rw [if_neg (by omega), if_neg (by omega), if_neg (by omega)]
    · have hbehind : (n + 1) * pitch ≤ y * pitch := Nat.mul_le_mul_right pitch hgt
      rw [if_neg (by omega), if_neg (by omega), if_neg (by omega)]

/-- Byte `j` of row `y`, for any pitch that holds a line. -/
theorem getElem?_paint (p : Picture) {pitch : Nat} (hpitch : lineSize ≤ pitch)
    {buffer : Array Byte} (hsize : buffer.size = Picture.height * pitch) {y j : Nat}
    (hy : y < Picture.height) (hj : j < pitch) :
    (paint p pitch buffer)[y * pitch + j]? =
      if j < lineSize then (line p y)[j]? else buffer[y * pitch + j]? := by
  have hlines := getElem?_paintLines p hpitch (Nat.le_of_eq hsize.symm) y hj
  simp only [hy, true_and] at hlines
  exact hlines

theorem paint_encodes (p : Picture) {pitch : Nat} (hpitch : lineSize ≤ pitch)
    {buffer : Array Byte} (hsize : buffer.size = Picture.height * pitch) :
    Encodes pitch (paint p pitch buffer) p := by
  intro x y c hx hy hc
  have hline : 3 * x + c < lineSize := by
    show 3 * x + c < 3 * 64
    omega
  rw [Nat.add_assoc, getElem?_paint p hpitch hsize hy (by omega), if_pos hline,
    getElem?_line p y hx hc]

theorem size_blank (pitch : Nat) : (blank pitch).size = Picture.height * pitch :=
  Array.size_replicate

end Texture
end Host
end ChipEight
