import ChipEight.Word

/-!
# ChipEight.Hex

Upper-case hexadecimal text.

* `Hex.fixed`  — exactly so many digits, the lowest ones of the number.
* `Hex.padded` — every digit of the number, with leading zeros up to a least width.
-/

namespace ChipEight
namespace Hex

def digits : Bank Char :=
  #v['0', '1', '2', '3', '4', '5', '6', '7', '8', '9', 'A', 'B', 'C', 'D', 'E', 'F']

def digit (d : Fin 16) : Char := digits.read d

def fixed : Nat → Nat → List Char
  | 0, _ => []
  | width + 1, n => fixed width (n / 16) ++ [digit (nibble 0 n)]

/-- How many hexadecimal digits `n` has; zero has one. -/
def length (n : Nat) : Nat := n.log2 / 4 + 1

def padded (width n : Nat) : String := String.ofList (fixed (max width (length n)) n)

/-- A number of a program's own text: `0x` and at least `width` digits. -/
def literal (width n : Nat) : String := "0x" ++ padded width n

end Hex
end ChipEight
