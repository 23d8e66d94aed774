import ChipEight.Error

/-!
# ChipEight.Memory

4096 cells of one byte. Every 16-bit address names the cell it is congruent to, so accesses past
the end come round to the start.

* `Memory.read`, `Memory.write` — one cell; `Memory.readRange`, `Memory.writeRange` — consecutive
  ones.
* `Memory.load`    — a ROM at `Memory.start`, if it fits.
* `Memory.program` — what the cells of the last ROM hold now.
-/

namespace ChipEight

structure Memory where
  cells : Vector Byte 4096
  romLength : Nat
  deriving DecidableEq

namespace Memory

def size : Nat := 4096

/-- Where a ROM is put, and where a program starts. -/
def start : Word := 0x200

/-- The longest ROM that fits behind `start`. -/
def capacity : Nat := size - start.toNat

/-- Where the font begins. -/
def fontStart : Word := 0x000

/-- Rows of a glyph, one byte each. -/
def glyphSize : Nat := 5

/-- The digits 0 to F, five rows each, drawn in the high half of every byte. -/
def font : List Byte :=
  [0xF0, 0x90, 0x90, 0x90, 0xF0,
   0x20, 0x60, 0x20, 0x20, 0x70,
   0xF0, 0x10, 0xF0, 0x80, 0xF0,
   0xF0, 0x10, 0xF0, 0x10, 0xF0,
   0x90, 0x90, 0xF0, 0x10, 0x10,
   0xF0, 0x80, 0xF0, 0x10, 0xF0,
   0xF0, 0x80, 0xF0, 0x90, 0xF0,
   0xF0, 0x10, 0x20, 0x40, 0x40,
   0xF0, 0x90, 0xF0, 0x90, 0xF0,
   0xF0, 0x90, 0xF0, 0x10, 0xF0,
   0xF0, 0x90, 0xF0, 0x90, 0x90,
   0xE0, 0x90, 0xE0, 0x90, 0xE0,
   0xF0, 0x80, 0x80, 0x80, 0xF0,
   0xE0, 0x90, 0x90, 0x90, 0xE0,
   0xF0, 0x80, 0xF0, 0x80, 0xF0,
   0xF0, 0x80, 0xF0, 0x80, 0x80]

/-- The cell that an address names: its low 12 bits. -/
def cell (a : Word) : Fin 4096 := Fin.ofNat 4096 a.toNat

def read (m : Memory) (a : Word) : Byte := m.cells[cell a]

def write (m : Memory) (a : Word) (value : Byte) : Memory :=
  { m with cells := m.cells.set (cell a) value (cell a).isLt }

def readWord (m : Memory) (a : Word) : Word := Word.ofBytes (m.read a) (m.read (a + 1))

def readRange (m : Memory) (a : Word) (length : Nat) : List Byte :=
  (List.range length).map fun k => m.read (a + BitVec.ofNat 16 k)

def writeRange (m : Memory) (a : Word) : List Byte → Memory
  | [] => m
  | b :: rest => (m.write a b).writeRange (a + 1) rest

/-- The font and zeros, with no ROM. -/
def blank : Memory := writeRange ⟨Vector.replicate 4096 0, 0⟩ fontStart font

/-- Puts a ROM at `start`. Only the cells it covers change, so a longer one before it shows behind
its end. -/
def load (m : Memory) (rom : List Byte) : Except Error Memory :=
  if capacity < rom.length then .error (.romTooLarge rom.length capacity)
  else .ok { m.writeRange start rom with romLength := rom.length }

def program (m : Memory) : List Byte := m.readRange start m.romLength

/-- Where the glyph of a digit begins; only the low four bits of the digit count. -/
def glyphAddress (digit : Byte) : Word := fontStart + BitVec.ofNat 16 (digit.toNat % 16 * glyphSize)

end Memory

end ChipEight
