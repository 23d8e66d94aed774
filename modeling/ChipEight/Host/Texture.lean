import ChipEight.Screen

/-!
# ChipEight.Host.Texture

A picture as a texture: three colour bytes a pixel, and each line of pixels at the start of its row
of `pitch` bytes. What follows a line in its row is padding and is left alone.

* `Texture.paint`   — writes a picture into a texture's buffer.
* `Texture.picture` — reads it back.
-/

namespace ChipEight
namespace Host
namespace Texture

/-- The bytes that a line of pixels takes. -/
def lineSize : Nat := 3 * Picture.width

/-- The colour bytes of a pixel. -/
def shade (lit : Bool) : List Byte := List.replicate 3 (if lit then 255 else 0)

def line (p : Picture) (y : Nat) : List Byte :=
  (List.range Picture.width).flatMap fun x => shade (p.lit x y)

/-- Writes bytes one after the other from `offset` on. -/
def overwrite (buffer : Array Byte) (offset : Nat) : List Byte → Array Byte
  | [] => buffer
  | b :: rest => overwrite (buffer.setIfInBounds offset b) (offset + 1) rest

def paint (p : Picture) (pitch : Nat) (buffer : Array Byte) : Array Byte :=
  (List.range Picture.height).foldl (fun buffer y => overwrite buffer (y * pitch) (line p y)) buffer

/-- A new texture's buffer. -/
def blank (pitch : Nat) : Array Byte := Array.replicate (Picture.height * pitch) 0

/-- Whether the pixel at `x`, `y` of a texture is bright, by its first colour byte. -/
def bright (pitch : Nat) (buffer : Array Byte) (x y : Nat) : Bool :=
  buffer[y * pitch + 3 * x]?.getD 0 != 0

def picture (pitch : Nat) (buffer : Array Byte) : Picture :=
  Vector.ofFn fun y =>
    (List.range Picture.width).foldl
      (fun row x => row <<< 1 ||| (if bright pitch buffer x y.val then 1 else 0)) 0

end Texture
end Host
end ChipEight
