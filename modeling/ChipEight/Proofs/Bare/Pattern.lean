import ChipEight.Proofs.Bare.Instruction
import ChipEight.Proofs.Hex

/-!
# ChipEight.Proofs.Bare.Pattern

The kinds of instruction as texts such as `8XY4` or `DXYN`, and opcodes spelled with them.

* `Instruction.pattern`  — the text of a kind, one for each of the 35.
* `Instruction.spelling` — the pattern with hexadecimal digits of the operands in place of X, Y, N.
* `Agrees`               — whether an opcode has the digits that a pattern has.
* `Instruction.InRange`  — operands no wider than an opcode can hold.
* `decode_inverts_spelling` — the decoder and the patterns say the same, bit by bit, both ways.
-/

namespace ChipEight
namespace Hex

theorem digit_not_letter : ∀ d : Fin 16, digit d ≠ 'X' ∧ digit d ≠ 'Y' ∧ digit d ≠ 'N' := by
  decide

end Hex

namespace Bare

/-- The operands of an instruction; `number` is its N, NN or NNN, and the others are registers. -/
structure Operands where
  x : Byte := 0
  y : Byte := 0
  number : Word := 0

/-- A pattern with the digits of the operands put in. The N's of a pattern come last, and each
stands for the digit of the number at its own place in it. -/
def fillIn (o : Operands) : List Char → List Char
  | [] => []
  | 'X' :: rest => Hex.digit (nibble 0 o.x.toNat) :: fillIn o rest
  | 'Y' :: rest => Hex.digit (nibble 0 o.y.toNat) :: fillIn o rest
  | 'N' :: rest => Hex.digit (nibble (rest.count 'N') o.number.toNat) :: fillIn o rest
  | c :: rest => c :: fillIn o rest

/-- Digits agree with a pattern if they are its own wherever it has no letter for an operand. -/
def Agrees : List Char → List Char → Prop
  | [], [] => True
  | c :: pattern, d :: digits => (c = 'X' ∨ c = 'Y' ∨ c = 'N' ∨ c = d) ∧ Agrees pattern digits
  | _, _ => False

/-- The patterns of all kinds. -/
def patterns : List String := Template.all.map Template.text

section FillIn

variable (o : Operands) (rest : List Char)

@[simp] theorem fillIn_nil : fillIn o [] = [] := rfl

@[simp] theorem fillIn_x :
    fillIn o ('X' :: rest) = Hex.digit (nibble 0 o.x.toNat) :: fillIn o rest := rfl

@[simp] theorem fillIn_y :
    fillIn o ('Y' :: rest) = Hex.digit (nibble 0 o.y.toNat) :: fillIn o rest := rfl

@[simp] theorem fillIn_n :
    fillIn o ('N' :: rest) =
      Hex.digit (nibble (rest.count 'N') o.number.toNat) :: fillIn o rest := rfl

@[simp] theorem fillIn_digit (d : Fin 16) :
    fillIn o (Hex.digit d :: rest) = Hex.digit d :: fillIn o rest := by
  obtain ⟨hx, hy, hn⟩ := Hex.digit_not_letter d
  rw [fillIn]
  · exact hx
  · exact hy
  · exact hn

end FillIn

namespace Instruction

def pattern : Instruction → String
  | .sys _ => "0NNN"
  | .clear => "00E0"
  | .ret => "00EE"
  | .jump _ => "1NNN"
  | .call _ => "2NNN"
  | .skipByte true _ _ => "3XNN"
  | .skipByte false _ _ => "4XNN"
  | .skipRegister true _ _ => "5XY0"
  | .setByte _ _ => "6XNN"
  | .addByte _ _ => "7XNN"
  | .arith .copy _ _ => "8XY0"
  | .arith .or _ _ => "8XY1"
  | .arith .and _ _ => "8XY2"
  | .arith .xor _ _ => "8XY3"
  | .arith .add _ _ => "8XY4"
  | .arith .sub _ _ => "8XY5"
  | .arith .shiftRight _ _ => "8XY6"
  | .arith .subFrom _ _ => "8XY7"
  | .arith .shiftLeft _ _ => "8XYE"
  | .skipRegister false _ _ => "9XY0"
  | .setIndex _ => "ANNN"
  | .jumpPlus _ => "BNNN"
  | .random _ _ => "CXNN"
  | .draw _ _ _ => "DXYN"
  | .skipKey true _ => "EX9E"
  | .skipKey false _ => "EXA1"
  | .readDelay _ => "FX07"
  | .awaitKey _ => "FX0A"
  | .setDelay _ => "FX15"
  | .setSound _ => "FX18"
  | .addIndex _ => "FX1E"
  | .glyph _ => "FX29"
  | .decimal _ => "FX33"
  | .store _ => "FX55"
  | .restore _ => "FX65"

def operands : Instruction → Operands
  | .clear | .ret => {}
  | .sys a | .jump a | .call a | .setIndex a | .jumpPlus a => { number := a }
  | .skipByte _ x nn | .setByte x nn | .addByte x nn | .random x nn =>
    { x, number := nn.setWidth 16 }
  | .skipRegister _ x y | .arith _ x y => { x, y }
  | .draw x y rows => { x, y, number := rows.setWidth 16 }
  | .skipKey _ x | .readDelay x | .awaitKey x | .setDelay x | .setSound x | .addIndex x | .glyph x
  | .decimal x | .store x | .restore x => { x }

def spelling (i : Instruction) : List Char := fillIn i.operands i.pattern.toList

/-- Registers and N are digits, and addresses have three of them. -/
def InRange : Instruction → Prop
  | .clear | .ret => True
  | .sys a | .jump a | .call a | .setIndex a | .jumpPlus a => a.toNat < 4096
  | .skipRegister _ x y | .arith _ x y => x.toNat < 16 ∧ y.toNat < 16
  | .draw x y rows => x.toNat < 16 ∧ y.toNat < 16 ∧ rows.toNat < 16
  | .skipByte _ x _ | .setByte x _ | .addByte x _ | .random x _ | .skipKey _ x | .readDelay x
  | .awaitKey x | .setDelay x | .setSound x | .addIndex x | .glyph x | .decimal x | .store x
  | .restore x => x.toNat < 16

/-- The instruction with each operand cut to the width that it can have. -/
def narrow : Instruction → ChipEight.Instruction
  | .sys a => .sys (a.setWidth 12)
  | .clear => .clear
  | .ret => .ret
  | .jump a => .jump (a.setWidth 12)
  | .call a => .call (a.setWidth 12)
  | .skipByte true x nn => .skip (.isByte (nibble 0 x.toNat) nn)
  | .skipByte false x nn => .skip (.isNotByte (nibble 0 x.toNat) nn)
  | .skipRegister true x y => .skip (.equal (nibble 0 x.toNat) (nibble 0 y.toNat))
  | .skipRegister false x y => .skip (.different (nibble 0 x.toNat) (nibble 0 y.toNat))
  | .skipKey true x => .skip (.keyDown (nibble 0 x.toNat))
  | .skipKey false x => .skip (.keyUp (nibble 0 x.toNat))
  | .setByte x nn => .setByte (nibble 0 x.toNat) nn
  | .addByte x nn => .addByte (nibble 0 x.toNat) nn
  | .arith op x y => .arith op (nibble 0 x.toNat) (nibble 0 y.toNat)
  | .setIndex a => .setIndex (a.setWidth 12)
  | .jumpPlus a => .jumpPlus (a.setWidth 12)
  | .random x mask => .random (nibble 0 x.toNat) mask
  | .draw x y rows => .draw (nibble 0 x.toNat) (nibble 0 y.toNat) (nibble 0 rows.toNat)
  | .readDelay x => .readDelay (nibble 0 x.toNat)
  | .awaitKey x => .awaitKey (nibble 0 x.toNat)
  | .setDelay x => .setDelay (nibble 0 x.toNat)
  | .setSound x => .setSound (nibble 0 x.toNat)
  | .addIndex x => .addIndex (nibble 0 x.toNat)
  | .glyph x => .glyph (nibble 0 x.toNat)
  | .decimal x => .decimal (nibble 0 x.toNat)
  | .store x => .store (nibble 0 x.toNat)
  | .restore x => .restore (nibble 0 x.toNat)

/-! ## Plain forms -/

theorem pattern_of (i : ChipEight.Instruction) : (of i).pattern = i.template.text := by
  cases i with
  | skip condition => cases condition <;> rfl
  | arith op x y => cases op <;> rfl
  | _ => rfl

/-- Filling in the plain operands of an instruction spells its encoding. -/
theorem spelling_of (i : ChipEight.Instruction) :
    (of i).spelling = Hex.fixed 4 i.encode.toNat := by
  have hbyte : ∀ nn : Byte, nn.toNat % 65536 = nn.toNat := fun nn => by omega
  have haddress : ∀ a : Address, a.toNat % 65536 = a.toNat := fun a => by omega
  have hdigit : ∀ d : Fin 16, d.val % 65536 = d.val := fun d => by omega
  rw [Hex.fixed_word, ChipEight.Instruction.encode, Template.fill, Word.group_ofNibbles,
    Word.x_ofNibbles, Word.y_ofNibbles, Word.n_ofNibbles, spelling, pattern_of, Template.text,
    Template.cells, String.toList_ofList]
  cases i with
  | skip condition =>
    cases condition <;>
      simp [of, ofCondition, operands, ChipEight.Instruction.template,
        ChipEight.Instruction.operands, Condition.template, Condition.operands,
        Template.immediate, Template.pair, Template.single, Cell.text, Cell.fill, nibble_val, hbyte]
  | _ =>
    simp [of, operands, ChipEight.Instruction.template, ChipEight.Instruction.operands,
      Template.fixed, Template.address, Template.immediate, Template.pair, Template.single,
      Cell.text, Cell.fill, nibble_val, hbyte, haddress, hdigit]

theorem of_inRange (i : ChipEight.Instruction) : (of i).InRange := by
  have hregister : ∀ x : Fin 16, (ofDigit x).toNat < 16 := fun x => by
    rw [toNat_ofDigit]
    exact x.isLt
  have haddress : ∀ a : Address, (a.setWidth 16).toNat < 4096 := fun a => by
    rw [BitVec.toNat_setWidth]
    omega
  cases i with
  | clear => trivial
  | ret => trivial
  | sys a => exact haddress a
  | jump a => exact haddress a
  | call a => exact haddress a
  | setIndex a => exact haddress a
  | jumpPlus a => exact haddress a
  | skip condition =>
    cases condition with
    | equal x y => exact ⟨hregister x, hregister y⟩
    | different x y => exact ⟨hregister x, hregister y⟩
    | _ => exact hregister _
  | arith op x y => exact ⟨hregister x, hregister y⟩
  | draw x y rows => exact ⟨hregister x, hregister y, hregister rows⟩
  | _ => exact hregister _

theorem of_narrow {i : Instruction} (h : i.InRange) : of i.narrow = i := by
  have hregister : ∀ b : Byte, b.toNat < 16 → ofDigit (nibble 0 b.toNat) = b := by
    intro b hb
    have hdigit := nibble_val ⟨b.toNat, hb⟩
    apply BitVec.eq_of_toNat_eq
    rw [toNat_ofDigit, hdigit]
  have haddress : ∀ a : Word, a.toNat < 4096 → (a.setWidth 12).setWidth 16 = a := by
    intro a ha
    apply BitVec.eq_of_toNat_eq
    rw [BitVec.toNat_setWidth, BitVec.toNat_setWidth]
    omega
  cases i with
  | skipByte same x nn => cases same <;> simp [narrow, of, ofCondition, hregister x h]
  | skipKey down x => cases down <;> simp [narrow, of, ofCondition, hregister x h]
  | skipRegister same x y =>
    cases same <;> simp [narrow, of, ofCondition, hregister x h.1, hregister y h.2]
  | arith op x y => simp [narrow, of, hregister x h.1, hregister y h.2]
  | draw x y rows =>
    simp [narrow, of, hregister x h.1, hregister y h.2.1, hregister rows h.2.2]
  | _ =>
    simp only [InRange] at h
    simp [narrow, of, hregister, haddress, h]

end Instruction

/-! ## Patterns and opcodes -/

variable {w : Word} {i : Instruction}

/-- A letter stands for any digit, and a digit for itself. -/
theorem agrees_cell (c : Cell) (d : Fin 16) :
    (c.text = 'X' ∨ c.text = 'Y' ∨ c.text = 'N' ∨ c.text = Hex.digit d) ↔ c.Fits d := by
  cases c with
  | digit e =>
    have hletter := Hex.digit_not_letter e
    constructor
    · rintro (hx | hy | hn | he)
      · exact absurd hx hletter.1
      · exact absurd hy hletter.2.1
      · exact absurd hn hletter.2.2
      · exact Hex.digit_injective he
    · rintro rfl
      exact .inr (.inr (.inr rfl))
  | x => exact iff_of_true (.inl rfl) trivial
  | y => exact iff_of_true (.inr (.inl rfl)) trivial
  | n place => exact iff_of_true (.inr (.inr (.inl rfl))) trivial

theorem agrees_iff_fits (t : Template) :
    Agrees t.text.toList (Hex.fixed 4 w.toNat) ↔ t.Fits w := by
  rw [Hex.fixed_word, Template.text, String.toList_ofList]
  simp [Template.cells, Agrees, Template.Fits, agrees_cell]

theorem agrees_patterns :
    (∃ p ∈ patterns, Agrees p.toList (Hex.fixed 4 w.toNat)) ↔ ∃ t ∈ Template.all, t.Fits w := by
  constructor
  · rintro ⟨p, hp, h⟩
    obtain ⟨t, ht, rfl⟩ := List.mem_map.mp hp
    exact ⟨t, ht, (agrees_iff_fits t).mp h⟩
  · rintro ⟨t, ht, h⟩
    exact ⟨t.text, List.mem_map_of_mem ht, (agrees_iff_fits t).mpr h⟩

/-- An opcode is accepted as the plain form of what it decodes to. -/
theorem accepts_iff :
    decode w = .ok (.ok i) ↔ ∃ j, ChipEight.Instruction.decode w = .ok j ∧ .of j = i := by
  rw [decode_ok]
  cases ChipEight.Instruction.decode w <;> simp [Except.map]

theorem refuses_iff {e : Error} :
    decode w = .ok (.error e) ↔ ChipEight.Instruction.decode w = .error e := by
  rw [decode_ok]
  cases ChipEight.Instruction.decode w <;> simp [Except.map]

theorem accepts_spelling (h : decode w = .ok (.ok i)) : i.spelling = Hex.fixed 4 w.toNat := by
  obtain ⟨j, hj, rfl⟩ := accepts_iff.mp h
  rw [Instruction.spelling_of, ChipEight.Instruction.encode_decode hj]

/-- An opcode that a pattern agrees with decodes to an instruction of that pattern, or to one of the
two that 0NNN leaves to others. -/
theorem accepts_pattern {p : String} (hp : p ∈ patterns)
    (h : Agrees p.toList (Hex.fixed 4 w.toNat)) :
    ∃ i, decode w = .ok (.ok i) ∧ (p = i.pattern ∨ p = "0NNN" ∧ (i = .clear ∨ i = .ret)) := by
  obtain ⟨t, ht, rfl⟩ := List.mem_map.mp hp
  obtain ⟨j, hj, htemplate⟩ :=
    ChipEight.Instruction.decode_fits ht ((agrees_iff_fits t).mp h)
  refine ⟨.of j, accepts_iff.mpr ⟨j, hj, rfl⟩, ?_⟩
  rcases htemplate with rfl | ⟨rfl, rfl | rfl⟩
  · exact .inl (Instruction.pattern_of j).symm
  · exact .inr ⟨rfl, .inl rfl⟩
  · exact .inr ⟨rfl, .inr rfl⟩

/-- The two opcodes that 0NNN leaves to others are no routines. -/
theorem not_accepts_shadowed (w : Word) :
    decode w ≠ .ok (.ok (.sys 0x0E0)) ∧ decode w ≠ .ok (.ok (.sys 0x0EE)) := by
  constructor
  · intro h
    have hw : w = 0x00E0 := Hex.word_eq ((accepts_spelling h).symm.trans (by decide))
    rw [hw] at h
    cases h
  · intro h
    have hw : w = 0x00EE := Hex.word_eq ((accepts_spelling h).symm.trans (by decide))
    rw [hw] at h
    cases h

/-- An instruction that is in range and not shadowed is what its spelling decodes to. -/
theorem accepts_inRange (h : i.InRange) (hclear : i ≠ .sys 0x0E0) (hret : i ≠ .sys 0x0EE) :
    ∃ w : Word, Hex.fixed 4 w.toNat = i.spelling ∧ decode w = .ok (.ok i) := by
  have hof : Instruction.of i.narrow = i := Instruction.of_narrow h
  have hclear' : i.narrow ≠ .sys 0x0E0 := by
    intro hi
    rw [hi] at hof
    exact hclear hof.symm
  have hret' : i.narrow ≠ .sys 0x0EE := by
    intro hi
    rw [hi] at hof
    exact hret hof.symm
  have hdecode := ChipEight.Instruction.decode_encode hclear' hret'
  have haccepts : decode i.narrow.encode = .ok (.ok i) := accepts_iff.mpr ⟨_, hdecode, hof⟩
  exact ⟨i.narrow.encode, (accepts_spelling haccepts).symm, haccepts⟩

/-- The decoder, which is the one that runs, and the 35 patterns. What an opcode decodes to is in
range, and its pattern with the operands put in spells the opcode. An opcode decodes just when a
pattern agrees with it, and then as that pattern says, where 00E0 and 00EE come before 0NNN; any
other is refused by name. And every instruction that is in range, but for the two that 0NNN leaves
to others, is what just one opcode decodes to, the one that it spells. -/
theorem decode_inverts_spelling :
    (∀ w, decode w = .ok ((ChipEight.Instruction.decode w).map .of)) ∧
    (∀ j, (Instruction.of j).pattern = j.template.text) ∧
    (patterns.length = 35 ∧ patterns.Nodup) ∧
    (∀ w i, decode w = .ok (.ok i) →
      i.InRange ∧ i.pattern ∈ patterns ∧ i.spelling = Hex.fixed 4 w.toNat) ∧
    (∀ w, (∃ i, decode w = .ok (.ok i)) ↔
      ∃ p ∈ patterns, Agrees p.toList (Hex.fixed 4 w.toNat)) ∧
    (∀ w p, p ∈ patterns → Agrees p.toList (Hex.fixed 4 w.toNat) →
      ∃ i, decode w = .ok (.ok i) ∧ (p = i.pattern ∨ p = "0NNN" ∧ (i = .clear ∨ i = .ret))) ∧
    (∀ w e, decode w = .ok (.error e) ↔
      (∀ p ∈ patterns, ¬ Agrees p.toList (Hex.fixed 4 w.toNat)) ∧
        e = .invalidOpcode w (.ofGroup w.group)) ∧
    ∀ i, i.InRange ∧ i ≠ .sys 0x0E0 ∧ i ≠ .sys 0x0EE ↔
      ∃ w : Word, Hex.fixed 4 w.toNat = i.spelling ∧ decode w = .ok (.ok i) ∧
        ∀ w', decode w' = .ok (.ok i) → w' = w := by
  have hinRange : ∀ {w i}, decode w = .ok (.ok i) → i.InRange := by
    intro w i h
    obtain ⟨j, -, rfl⟩ := accepts_iff.mp h
    exact Instruction.of_inRange j
  refine ⟨decode_ok, Instruction.pattern_of, ⟨rfl, by decide⟩, ?_, ?_, ?_, ?_, ?_⟩
  · intro w i h
    refine ⟨hinRange h, ?_, accepts_spelling h⟩
    obtain ⟨j, -, rfl⟩ := accepts_iff.mp h
    rw [Instruction.pattern_of]
    exact List.mem_map_of_mem j.template_mem
  · intro w
    rw [agrees_patterns, ← ChipEight.Instruction.decode_ok_iff]
    constructor
    · rintro ⟨i, hi⟩
      obtain ⟨j, hj, -⟩ := accepts_iff.mp hi
      exact ⟨j, hj⟩
    · rintro ⟨j, hj⟩
      exact ⟨.of j, accepts_iff.mpr ⟨j, hj, rfl⟩⟩
  · intro w p
    exact accepts_pattern
  · intro w e
    rw [refuses_iff, ChipEight.Instruction.decode_error_iff, patterns, List.forall_mem_map]
    simp only [agrees_iff_fits]
  · intro i
    constructor
    · rintro ⟨h, hclear, hret⟩
      obtain ⟨w, hw, haccepts⟩ := accepts_inRange h hclear hret
      refine ⟨w, hw, haccepts, fun w' h' => Hex.word_eq ?_⟩
      rw [hw, accepts_spelling h']
    · rintro ⟨w, -, h, -⟩
      obtain ⟨hclear, hret⟩ := not_accepts_shadowed w
      refine ⟨hinRange h, ?_, ?_⟩
      · rintro rfl
        exact hclear h
      · rintro rfl
        exact hret h

end Bare
end ChipEight
