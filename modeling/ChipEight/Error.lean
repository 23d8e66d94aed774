import ChipEight.Hex

/-!
# ChipEight.Error

Why the machine refuses a call.

* `Family` — the opcode families in which some bit patterns mean nothing.
* `Error`  — the causes, each with what it is about.
* `Error.message` — the wording of each.
-/

namespace ChipEight

inductive Family where
  | equality
  | arithmetic
  | inequality
  | keySkip
  | misc
  deriving DecidableEq

def Family.complaint : Family → String
  | .equality => "5XY_ comparison expects a trailing 0"
  | .arithmetic => "8XY_ arithmetic has no such operation"
  | .inequality => "9XY_ comparison expects a trailing 0"
  | .keySkip => "EX__ key skip has no such operation"
  | .misc => "FX__ has no such operation"

inductive Error where
  | invalidOpcode (opcode : Word) (family : Family)
  | notReady
  | alreadyReady
  | romTooLarge (size capacity : Nat)
  | invalidKey (key : Byte)
  deriving DecidableEq

def Error.message : Error → String
  | .invalidOpcode opcode family =>
    "invalid opcode " ++ Hex.literal 4 opcode.toNat ++ " (" ++ family.complaint ++ ")"
  | .notReady => "virtual machine used before it was initialized"
  | .alreadyReady => "virtual machine is already initialized"
  | .romTooLarge size capacity =>
    "ROM is too large (" ++ toString size ++ " bytes), max size is " ++ toString capacity
      ++ " bytes"
  | .invalidKey key =>
    "key index " ++ Hex.literal 2 key.toNat ++ " is outside the keypad (0x0..=0xF)"

end ChipEight
