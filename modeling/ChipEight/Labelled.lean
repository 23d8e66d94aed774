import ChipEight.Instruction

/-!
# ChipEight.Labelled

A value written out in full: its name, then its fields in braces, each under its own name. The log
shows a configuration this way, and `Instruction.described` does the same for an instruction.
-/

namespace ChipEight

/-- A name and the fields that belong to it; a name without fields stands alone. -/
structure Labelled where
  name : String
  fields : List (String × String)

namespace Labelled

def text (l : Labelled) : String :=
  match l.fields with
  | [] => l.name
  | fields =>
    l.name ++ " \x7b "
      ++ ", ".intercalate (fields.map fun (label, value) => label ++ ": " ++ value) ++ " \x7d"

def registerX (name : String) (x : Register) : Labelled := ⟨name, [("x", toString x.val)]⟩

def registersXY (name : String) (x y : Register) : Labelled :=
  ⟨name, [("x", toString x.val), ("y", toString y.val)]⟩

def registerByte (name : String) (x : Register) (nn : Byte) : Labelled :=
  ⟨name, [("x", toString x.val), ("nn", toString nn.toNat)]⟩

def address (name : String) (a : Address) : Labelled := ⟨name, [("addr", toString a.toNat)]⟩

end Labelled

def Arithmetic.title : Arithmetic → String
  | .copy => "Move"
  | .or => "Or"
  | .and => "And"
  | .xor => "Xor"
  | .add => "AddReg"
  | .sub => "Sub"
  | .shiftRight => "ShiftRight"
  | .subFrom => "SubN"
  | .shiftLeft => "ShiftLeft"

def Condition.described : Condition → Labelled
  | .isByte x nn => .registerByte "SkipEqByte" x nn
  | .isNotByte x nn => .registerByte "SkipNeByte" x nn
  | .equal x y => .registersXY "SkipEqReg" x y
  | .different x y => .registersXY "SkipNeReg" x y
  | .keyDown x => .registerX "SkipKey" x
  | .keyUp x => .registerX "SkipNotKey" x

def Instruction.described : Instruction → Labelled
  | .sys a => .address "Sys" a
  | .clear => ⟨"Cls", []⟩
  | .ret => ⟨"Ret", []⟩
  | .jump a => .address "Jump" a
  | .call a => .address "Call" a
  | .skip c => c.described
  | .setByte x nn => .registerByte "LoadByte" x nn
  | .addByte x nn => .registerByte "AddByte" x nn
  | .arith op x y => .registersXY op.title x y
  | .setIndex a => .address "LoadI" a
  | .jumpPlus a => .address "JumpV0" a
  | .random x nn => .registerByte "Random" x nn
  | .draw x y n =>
    ⟨"Draw", [("x", toString x.val), ("y", toString y.val), ("n", toString n.val)]⟩
  | .readDelay x => .registerX "LoadDelay" x
  | .awaitKey x => .registerX "WaitKey" x
  | .setDelay x => .registerX "SetDelay" x
  | .setSound x => .registerX "SetSound" x
  | .addIndex x => .registerX "AddI" x
  | .glyph x => .registerX "LoadFont" x
  | .decimal x => .registerX "Bcd" x
  | .store x => .registerX "Store" x
  | .restore x => .registerX "Read" x

end ChipEight
