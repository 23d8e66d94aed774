import ChipEight.Hex
import ChipEight.Instruction

/-!
# ChipEight.Instruction.Template

The opcode templates: four hexadecimal places, each a fixed digit or a part of an operand.

* `Template.text`        — the usual spelling, such as `8XY4` or `DXYN`.
* `Template.fill`        — the opcode with the operands put in.
* `Template.Fits`        — whether an opcode has the template's fixed digits.
* `Instruction.template`, `Instruction.operands`, `Instruction.encode` — an instruction written
  back as an opcode.
* `Template.all`         — the 35 of them, a template ahead of any that it is a special case of.
-/

namespace ChipEight

/-- The operands of an opcode; `number` is `N`, `NN` or `NNN`, whatever its template holds. -/
structure Operands where
  x : Register := 0
  y : Register := 0
  number : Nat := 0
  deriving DecidableEq

/-- One place of a template. A number's digits are told apart by their own place in it. -/
inductive Cell where
  | digit (d : Fin 16)
  | x
  | y
  | n (place : Nat)
  deriving DecidableEq

namespace Cell

def text : Cell → Char
  | .digit d => Hex.digit d
  | .x => 'X'
  | .y => 'Y'
  | .n _ => 'N'

def fill (o : Operands) : Cell → Fin 16
  | .digit d => d
  | .x => o.x
  | .y => o.y
  | .n place => nibble place o.number

def Fits : Cell → Fin 16 → Prop
  | .digit d, e => d = e
  | _, _ => True

instance : (c : Cell) → (d : Fin 16) → Decidable (c.Fits d)
  | .digit d, e => inferInstanceAs (Decidable (d = e))
  | .x, _ => isTrue trivial
  | .y, _ => isTrue trivial
  | .n _, _ => isTrue trivial

end Cell

structure Template where
  first : Cell
  second : Cell
  third : Cell
  fourth : Cell
  deriving DecidableEq

namespace Template

def cells (t : Template) : List Cell := [t.first, t.second, t.third, t.fourth]

def text (t : Template) : String := String.ofList (t.cells.map Cell.text)

def fill (t : Template) (o : Operands) : Word :=
  Word.ofNibbles (t.first.fill o) (t.second.fill o) (t.third.fill o) (t.fourth.fill o)

def Fits (t : Template) (w : Word) : Prop :=
  t.first.Fits w.group ∧ t.second.Fits w.x ∧ t.third.Fits w.y ∧ t.fourth.Fits w.n

instance (t : Template) (w : Word) : Decidable (t.Fits w) :=
  inferInstanceAs (Decidable (_ ∧ _ ∧ _ ∧ _))

def fixed (a b c d : Fin 16) : Template := ⟨.digit a, .digit b, .digit c, .digit d⟩

/-- A family that takes an address. -/
def address (group : Fin 16) : Template := ⟨.digit group, .n 2, .n 1, .n 0⟩

/-- A family that takes a register and a byte. -/
def immediate (group : Fin 16) : Template := ⟨.digit group, .x, .n 1, .n 0⟩

/-- A family that takes two registers. -/
def pair (group last : Fin 16) : Template := ⟨.digit group, .x, .y, .digit last⟩

/-- A family that takes one register. -/
def single (group c d : Fin 16) : Template := ⟨.digit group, .x, .digit c, .digit d⟩

def all : List Template :=
  [fixed 0 0 0xE 0, fixed 0 0 0xE 0xE, address 0, address 1, address 2,
   immediate 3, immediate 4, pair 5 0, immediate 6, immediate 7]
  ++ Arithmetic.all.map (fun op => pair 8 op.digit)
  ++ [pair 9 0, address 0xA, address 0xB, immediate 0xC, ⟨.digit 0xD, .x, .y, .n 0⟩,
      single 0xE 9 0xE, single 0xE 0xA 1,
      single 0xF 0 7, single 0xF 0 0xA, single 0xF 1 5, single 0xF 1 8, single 0xF 1 0xE,
      single 0xF 2 9, single 0xF 3 3, single 0xF 5 5, single 0xF 6 5]

end Template

def Condition.template : Condition → Template
  | .isByte .. => .immediate 3
  | .isNotByte .. => .immediate 4
  | .equal .. => .pair 5 0
  | .different .. => .pair 9 0
  | .keyDown _ => .single 0xE 9 0xE
  | .keyUp _ => .single 0xE 0xA 1

def Condition.operands : Condition → Operands
  | .isByte x nn | .isNotByte x nn => { x, number := nn.toNat }
  | .equal x y | .different x y => { x, y }
  | .keyDown x | .keyUp x => { x }

namespace Instruction

def template : Instruction → Template
  | .sys _ => .address 0
  | .clear => .fixed 0 0 0xE 0
  | .ret => .fixed 0 0 0xE 0xE
  | .jump _ => .address 1
  | .call _ => .address 2
  | .skip c => c.template
  | .setByte .. => .immediate 6
  | .addByte .. => .immediate 7
  | .arith op .. => .pair 8 op.digit
  | .setIndex _ => .address 0xA
  | .jumpPlus _ => .address 0xB
  | .random .. => .immediate 0xC
  | .draw .. => ⟨.digit 0xD, .x, .y, .n 0⟩
  | .readDelay _ => .single 0xF 0 7
  | .awaitKey _ => .single 0xF 0 0xA
  | .setDelay _ => .single 0xF 1 5
  | .setSound _ => .single 0xF 1 8
  | .addIndex _ => .single 0xF 1 0xE
  | .glyph _ => .single 0xF 2 9
  | .decimal _ => .single 0xF 3 3
  | .store _ => .single 0xF 5 5
  | .restore _ => .single 0xF 6 5

def operands : Instruction → Operands
  | .clear | .ret => {}
  | .sys a | .jump a | .call a | .setIndex a | .jumpPlus a => { number := a.toNat }
  | .skip c => c.operands
  | .setByte x nn | .addByte x nn | .random x nn => { x, number := nn.toNat }
  | .arith _ x y => { x, y }
  | .draw x y rows => { x, y, number := rows.val }
  | .readDelay x | .awaitKey x | .setDelay x | .setSound x | .addIndex x | .glyph x | .decimal x
  | .store x | .restore x => { x }

def encode (i : Instruction) : Word := i.template.fill i.operands

end Instruction

end ChipEight
