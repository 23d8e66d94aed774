import ChipEight.Error
import ChipEight.Instruction

/-!
# ChipEight.Instruction.Decode

`Instruction.decode` reads an opcode. The leading digit selects the family; family 0 accepts
everything, and families 5, 8, 9, E and F refuse the operations they do not have.
-/

namespace ChipEight
namespace Instruction

/-- Families E and F, whose operation is the low byte and whose operand is VX. -/
def ofSingle? (group : Fin 16) (low : Nat) (x : Register) : Option Instruction :=
  match group.val, low with
  | 0xE, 0x9E => some (.skip (.keyDown x))
  | 0xE, 0xA1 => some (.skip (.keyUp x))
  | 0xF, 0x07 => some (.readDelay x)
  | 0xF, 0x0A => some (.awaitKey x)
  | 0xF, 0x15 => some (.setDelay x)
  | 0xF, 0x18 => some (.setSound x)
  | 0xF, 0x1E => some (.addIndex x)
  | 0xF, 0x29 => some (.glyph x)
  | 0xF, 0x33 => some (.decimal x)
  | 0xF, 0x55 => some (.store x)
  | 0xF, 0x65 => some (.restore x)
  | _, _ => none

/-- What a family finds, or that it has no such operation. -/
def orRefuse (w : Word) (family : Family) : Option Instruction → Except Error Instruction
  | some i => .ok i
  | none => .error (.invalidOpcode w family)

def decode (w : Word) : Except Error Instruction :=
  match w.group.val with
  | 0x0 => .ok (if w = 0x00E0 then .clear else if w = 0x00EE then .ret else .sys w.nnn)
  | 0x1 => .ok (.jump w.nnn)
  | 0x2 => .ok (.call w.nnn)
  | 0x3 => .ok (.skip (.isByte w.x w.nn))
  | 0x4 => .ok (.skip (.isNotByte w.x w.nn))
  | 0x5 => orRefuse w .equality (if w.n = 0 then some (.skip (.equal w.x w.y)) else none)
  | 0x6 => .ok (.setByte w.x w.nn)
  | 0x7 => .ok (.addByte w.x w.nn)
  | 0x8 => orRefuse w .arithmetic ((Arithmetic.ofDigit? w.n).map (.arith · w.x w.y))
  | 0x9 => orRefuse w .inequality (if w.n = 0 then some (.skip (.different w.x w.y)) else none)
  | 0xA => .ok (.setIndex w.nnn)
  | 0xB => .ok (.jumpPlus w.nnn)
  | 0xC => .ok (.random w.x w.nn)
  | 0xD => .ok (.draw w.x w.y w.n)
  | 0xE => orRefuse w .keySkip (ofSingle? 0xE w.nn.toNat w.x)
  | _ => orRefuse w .misc (ofSingle? 0xF w.nn.toNat w.x)

end Instruction
end ChipEight
