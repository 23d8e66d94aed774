import ChipEight.Word

/-!
# ChipEight.Instruction

The instruction set, with every operand already of the width it can have.

* `Arithmetic`  — the nine operations on two registers, and `Arithmetic.apply`, what each computes.
* `Condition`   — what a skip asks about; the six come in pairs of opposites.
* `Instruction` — all 35 kinds, those two families counted out.
-/

namespace ChipEight

/-- What 8XY_ does with VX and VY; the result goes to VX. -/
inductive Arithmetic where
  | copy
  | or
  | and
  | xor
  | add
  | sub
  | shiftRight
  | subFrom
  | shiftLeft
  deriving DecidableEq

namespace Arithmetic

/-- The last digit of the opcode. -/
def digit : Arithmetic → Fin 16
  | .copy => 0x0
  | .or => 0x1
  | .and => 0x2
  | .xor => 0x3
  | .add => 0x4
  | .sub => 0x5
  | .shiftRight => 0x6
  | .subFrom => 0x7
  | .shiftLeft => 0xE

def all : List Arithmetic :=
  [.copy, .or, .and, .xor, .add, .sub, .shiftRight, .subFrom, .shiftLeft]

def ofDigit? (d : Fin 16) : Option Arithmetic := all.find? (·.digit == d)

/-- The result for VX, and the flag for VF if the operation has one. A subtraction raises it when
nothing was borrowed, and both shifts look at VY only. -/
def apply (op : Arithmetic) (a b : Byte) : Byte × Option Bool :=
  match op with
  | .copy => (b, none)
  | .or => (a ||| b, none)
  | .and => (a &&& b, none)
  | .xor => (a ^^^ b, none)
  | .add => (a + b, some (255 < a.toNat + b.toNat))
  | .sub => (a - b, some (b ≤ a))
  | .shiftRight => (b >>> 1, some (b.getLsbD 0))
  | .subFrom => (b - a, some (a ≤ b))
  | .shiftLeft => (b <<< 1, some b.msb)

end Arithmetic

/-- What a skip asks about the machine. -/
inductive Condition where
  | isByte (x : Register) (nn : Byte)
  | isNotByte (x : Register) (nn : Byte)
  | equal (x y : Register)
  | different (x y : Register)
  | keyDown (x : Register)
  | keyUp (x : Register)
  deriving DecidableEq

inductive Instruction where
  /-- A routine in native machine code, which has nothing to run on and is passed over. -/
  | sys (routine : Address)
  | clear
  | ret
  | jump (target : Address)
  | call (target : Address)
  | skip (condition : Condition)
  | setByte (x : Register) (nn : Byte)
  | addByte (x : Register) (nn : Byte)
  | arith (op : Arithmetic) (x y : Register)
  | setIndex (target : Address)
  /-- A jump that adds V0 to its target. -/
  | jumpPlus (target : Address)
  | random (x : Register) (mask : Byte)
  | draw (x y : Register) (rows : Fin 16)
  | readDelay (x : Register)
  | awaitKey (x : Register)
  | setDelay (x : Register)
  | setSound (x : Register)
  | addIndex (x : Register)
  /-- Point the index at the glyph of the digit in VX. -/
  | glyph (x : Register)
  | decimal (x : Register)
  /-- Registers V0 to VX to memory. -/
  | store (x : Register)
  /-- Memory to registers V0 to VX. -/
  | restore (x : Register)
  deriving DecidableEq

end ChipEight
