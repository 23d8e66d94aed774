import ChipEight.Hex
import ChipEight.Instruction

/-!
# ChipEight.Instruction.Assembly

The assembler's spelling of an instruction: a head, then the operands.

* `Operand`              — a register, a number, or one of the named places of the machine.
* `Instruction.assembly` — head and operands.
* `Instruction.mnemonic` — both as one text, such as `DRW V0, V1, 5`.
-/

namespace ChipEight

inductive Operand where
  | register (x : Register)
  | byte (value : Byte)
  | address (value : Address)
  | count (value : Fin 16)
  | index
  /-- The memory that the index points at. -/
  | indirect
  | delay
  | sound
  | key
  | font
  | digits
  deriving DecidableEq

def Operand.text : Operand → String
  | .register x => "V" ++ Hex.padded 1 x.val
  | .byte b => Hex.literal 2 b.toNat
  | .address a => Hex.literal 3 a.toNat
  | .count n => toString n.val
  | .index => "I"
  | .indirect => "[I]"
  | .delay => "DT"
  | .sound => "ST"
  | .key => "K"
  | .font => "F"
  | .digits => "B"

def Arithmetic.head : Arithmetic → String
  | .copy => "LD"
  | .or => "OR"
  | .and => "AND"
  | .xor => "XOR"
  | .add => "ADD"
  | .sub => "SUB"
  | .shiftRight => "SHR"
  | .subFrom => "SUBN"
  | .shiftLeft => "SHL"

def Condition.assembly : Condition → String × List Operand
  | .isByte x nn => ("SE", [.register x, .byte nn])
  | .isNotByte x nn => ("SNE", [.register x, .byte nn])
  | .equal x y => ("SE", [.register x, .register y])
  | .different x y => ("SNE", [.register x, .register y])
  | .keyDown x => ("SKP", [.register x])
  | .keyUp x => ("SKNP", [.register x])

namespace Instruction

def assembly : Instruction → String × List Operand
  | .sys a => ("SYS", [.address a])
  | .clear => ("CLS", [])
  | .ret => ("RET", [])
  | .jump a => ("JP", [.address a])
  | .call a => ("CALL", [.address a])
  | .skip c => c.assembly
  | .setByte x nn => ("LD", [.register x, .byte nn])
  | .addByte x nn => ("ADD", [.register x, .byte nn])
  | .arith op x y => (op.head, [.register x, .register y])
  | .setIndex a => ("LD", [.index, .address a])
  | .jumpPlus a => ("JP", [.register 0, .address a])
  | .random x nn => ("RND", [.register x, .byte nn])
  | .draw x y n => ("DRW", [.register x, .register y, .count n])
  | .readDelay x => ("LD", [.register x, .delay])
  | .awaitKey x => ("LD", [.register x, .key])
  | .setDelay x => ("LD", [.delay, .register x])
  | .setSound x => ("LD", [.sound, .register x])
  | .addIndex x => ("ADD", [.index, .register x])
  | .glyph x => ("LD", [.font, .register x])
  | .decimal x => ("LD", [.digits, .register x])
  | .store x => ("LD", [.indirect, .register x])
  | .restore x => ("LD", [.register x, .indirect])

/-- A space follows the head if there are operands, and commas stand between them. -/
def mnemonic (i : Instruction) : String :=
  match i.assembly with
  | (head, []) => head
  | (head, operands) => head ++ " " ++ ", ".intercalate (operands.map Operand.text)

end Instruction

end ChipEight
