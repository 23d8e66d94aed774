import ChipEight.Instruction.Assembly
import ChipEight.Instruction.Decode
import ChipEight.Memory

/-!
# ChipEight.Listing

The loaded program as text, each line starting with the address of its first byte.

* `Memory.hexListing`     — sixteen bytes to a line.
* `Memory.programListing` — one opcode to a line with its mnemonic, or `???` where it means nothing.
  A byte left over at the end is read as if a zero followed.
-/

namespace ChipEight
namespace Listing

/-- A list in pieces of `n`, the last of which may be shorter. -/
def pieces {α : Type} (n : Nat) (xs : List α) : List (List α) :=
  match xs with
  | [] => []
  | x :: rest => (x :: rest.take (n - 1)) :: pieces n (rest.drop (n - 1))
  termination_by xs.length
  decreasing_by simp only [List.length_drop, List.length_cons]; omega

/-- Big-endian words; an odd byte at the end is a high byte. -/
def words : List Byte → List Word
  | [] => []
  | [high] => [Word.ofBytes high 0]
  | high :: low :: rest => Word.ofBytes high low :: words rest

def joinLines (lines : List String) : String := String.join (lines.map (· ++ "\n"))

def hexLine (row : Nat) (bytes : List Byte) : String :=
  Hex.padded 3 (Memory.start.toNat + 16 * row) ++ ":"
    ++ String.join (bytes.map fun b => " " ++ Hex.padded 2 b.toNat)

def meaning (opcode : Word) : String :=
  match Instruction.decode opcode with
  | .ok i => i.mnemonic
  | .error _ => "???"

def programLine (row : Nat) (opcode : Word) : String :=
  Hex.padded 3 (Memory.start.toNat + 2 * row) ++ ": " ++ Hex.padded 4 opcode.toNat ++ "  "
    ++ meaning opcode

end Listing

def Memory.hexListing (m : Memory) : String :=
  Listing.joinLines ((Listing.pieces 16 m.program).mapIdx Listing.hexLine)

def Memory.programListing (m : Memory) : String :=
  Listing.joinLines ((Listing.words m.program).mapIdx Listing.programLine)

end ChipEight
