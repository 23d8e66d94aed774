import ChipEight.Word

/-!
# ChipEight.Screen

64 by 32 pixels, each lit or dark. Drawing flips pixels and wraps around all four edges.

* `Picture`     — the rows, from the top; the leftmost pixel is the most significant bit.
* `Picture.lit` — one pixel, at coordinates that wrap.
* `Picture.blit` — a sprite flipped onto a picture, and whether a lit pixel went dark on the way.
* `Screen`      — a picture, and whether it was cleared or drawn on since it was last taken.
-/

namespace ChipEight

def Picture.width : Nat := 64

def Picture.height : Nat := 32

abbrev Picture := Vector (BitVec 64) 32

namespace Picture

def dark : Picture := Vector.replicate 32 0

def lit (p : Picture) (x y : Nat) : Bool := p[Fin.ofNat 32 y].getMsbD (x % 64)

/-- A row of a sprite, moved `x` pixels to the right of the left edge and around it. -/
def stripe (bits : Byte) (x : Nat) : BitVec 64 := (bits.setWidth 64 <<< 56).rotateRight x

/-- Flips the pixels of a sprite's rows, from row `y` down. Each row sees the picture that the rows
above it left. -/
def blit (p : Picture) (sprite : List Byte) (x : Nat) (y : Fin 32) : Picture × Bool :=
  match sprite with
  | [] => (p, false)
  | bits :: rest =>
    let stripe := stripe bits x
    let erased := p[y] &&& stripe != 0
    let (q, later) := blit (p.set y (p[y] ^^^ stripe) y.isLt) rest x (y + 1)
    (q, erased || later)

end Picture

structure Screen where
  picture : Picture
  changed : Bool
  deriving DecidableEq

namespace Screen

def blank : Screen := ⟨Picture.dark, false⟩

def clear (_ : Screen) : Screen := ⟨Picture.dark, true⟩

/-- Draws a sprite with its top left corner at `x`, `y`, and tells whether it erased anything. -/
def draw (s : Screen) (sprite : List Byte) (x y : Byte) : Screen × Bool :=
  let (picture, erased) := s.picture.blit sprite x.toNat (Fin.ofNat 32 y.toNat)
  (⟨picture, true⟩, erased)

/-- The picture if it changed since the last time, and the screen with that settled. -/
def take (s : Screen) : Screen × Option Picture :=
  ({ s with changed := false }, if s.changed then some s.picture else none)

end Screen

end ChipEight
