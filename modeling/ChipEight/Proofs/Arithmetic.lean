import ChipEight.Proofs.Decoding
import ChipEight.Proofs.Places

/-!
# ChipEight.Proofs.Arithmetic

The arithmetic on registers, as equations between numbers.

* `Arithmetic.flagOf`, `Arithmetic.Balances` — the flag of an operation, and the equation that holds
  between its operands, its result and its flag.
* `Arithmetic.add_balances` .. `shiftLeft_balances`, `apply_balances` — the operations on bytes meet
  them.
* `Cpu.register_setResult` — what the registers hold once result and flag are in place.
* `arithmetic_on_numbers` — 8XY4 to 8XY7, 8XYE and 7XNN, whichever registers X and Y are.
-/

namespace ChipEight
namespace Arithmetic

/-- The flag that an operation leaves, if it leaves one, by the numbers in VX and VY. -/
def flagOf (a b : Int) : Arithmetic → Option Int
  | .copy | .or | .and | .xor => none
  | .add => some (if 255 < a + b then 1 else 0)
  | .sub => some (if b ≤ a then 1 else 0)
  | .shiftRight => some (b % 2)
  | .subFrom => some (if a ≤ b then 1 else 0)
  | .shiftLeft => some (b / 128)

/-- How the result `r` and the flag `f` make up for the numbers in VX and VY. There is no such
equation where there is no flag. -/
def Balances (a b r f : Int) : Arithmetic → Prop
  | .copy | .or | .and | .xor => False
  | .add => r + 256 * f = a + b
  | .sub => r = a - b + 256 * (1 - f)
  | .shiftRight => 2 * r + f = b
  | .subFrom => r = b - a + 256 * (1 - f)
  | .shiftLeft => r + 256 * f = 2 * b

theorem toNat_flag (p : Prop) [Decidable p] :
    ((Cpu.flag (decide p)).toNat : Int) = if p then 1 else 0 := by
  by_cases h : p <;> simp [Cpu.flag, h]

variable (a b : Byte)

theorem add_balances :
    ((a + b).toNat : Int) + 256 * (if 255 < (a.toNat : Int) + b.toNat then 1 else 0) =
      a.toNat + b.toNat := by
  have := a.isLt
  have := b.isLt
  rw [BitVec.toNat_add]
  split <;> omega

theorem sub_balances :
    ((a - b).toNat : Int) =
      a.toNat - b.toNat + 256 * (1 - if (b.toNat : Int) ≤ a.toNat then 1 else 0) := by
  have := a.isLt
  have := b.isLt
  rw [BitVec.toNat_sub]
  split <;> omega

theorem shiftRight_balances : 2 * ((b >>> 1).toNat : Int) + b.toNat % 2 = b.toNat := by
  rw [BitVec.toNat_ushiftRight, Nat.shiftRight_eq_div_pow]
  omega

theorem shiftLeft_balances : ((b <<< 1).toNat : Int) + 256 * (b.toNat / 128) = 2 * b.toNat := by
  have := b.isLt
  rw [BitVec.toNat_shiftLeft, Nat.shiftLeft_eq]
  omega

theorem flag_getLsbD : ((Cpu.flag (b.getLsbD 0)).toNat : Int) = b.toNat % 2 := by
  have hbit : b.getLsbD 0 = decide (b.toNat % 2 = 1) := Nat.testBit_zero b.toNat
  rw [hbit, toNat_flag]
  split <;> omega

theorem flag_msb : ((Cpu.flag b.msb).toNat : Int) = b.toNat / 128 := by
  have := b.isLt
  rw [BitVec.msb_eq_decide, toNat_flag]
  split <;> omega

/-- An operation with a flag computes the flag and a result that go with the numbers. -/
theorem apply_balances {op : Arithmetic} {f : Int} (h : op.flagOf a.toNat b.toNat = some f) :
    ∃ r flag, op.apply a b = (r, some flag) ∧ ((Cpu.flag flag).toNat : Int) = f ∧
      op.Balances a.toNat b.toNat r.toNat f := by
  cases op with
  | copy | or | and | xor => cases h
  | add =>
    cases h
    refine ⟨_, _, rfl, ?_, add_balances a b⟩
    rw [toNat_flag]
    split <;> split <;> omega
  | sub =>
    cases h
    refine ⟨_, _, rfl, ?_, sub_balances a b⟩
    rw [toNat_flag]
    simp only [BitVec.le_def, Int.ofNat_le]
  | shiftRight =>
    cases h
    exact ⟨_, _, rfl, flag_getLsbD b, shiftRight_balances b⟩
  | subFrom =>
    cases h
    refine ⟨_, _, rfl, ?_, sub_balances b a⟩
    rw [toNat_flag]
    simp only [BitVec.le_def, Int.ofNat_le]
  | shiftLeft =>
    cases h
    exact ⟨_, _, rfl, flag_msb b, shiftLeft_balances b⟩

end Arithmetic

namespace Cpu

variable (c : Cpu)

theorem register_setRegister (x r : Register) (value : Byte) :
    (c.setRegister x value).register r = if x = r then value else c.register r :=
  c.v.read_write x r value

/-- VF has the flag, whichever register X is; VX has the result unless it is VF. -/
theorem register_setResult (x r : Register) (value : Byte) (f : Bool) :
    (c.setResult x (value, some f)).register r =
      if 0xF = r then flag f else if x = r then value else c.register r := by
  rw [setResult, register_setRegister, register_setRegister]

end Cpu

namespace Computer

variable (c : Computer)

/-- A step on 8XY_ with a flag. Behind it VF has the flag that belongs to the numbers in VX and VY
before it, even if X or Y is F, and VX has the result that makes up for it, unless X is F. A step on
7XNN adds and does not carry. No other register is touched, so that VY, where it is neither VX nor
VF, keeps its number. -/
theorem arithmetic_on_numbers (hready : c.cpu.awaiting = none) (x y : Register) :
    let a : Int := (c.cpu.register x).toNat
    let b : Int := (c.cpu.register y).toNat
    (∀ op f, op.flagOf a b = some f → c.fetch = Word.ofNibbles 8 x y op.digit →
      ∃ c' log, c.step = .ok (.executed (.arith op x y), c', log) ∧
        ((c'.cpu.register 0xF).toNat : Int) = f ∧
        (x ≠ 0xF → op.Balances a b (c'.cpu.register x).toNat f) ∧
        ∀ r, r ≠ x → r ≠ 0xF → c'.cpu.register r = c.cpu.register r) ∧
    ∀ nn : Byte, c.fetch = Word.ofNibbles 7 x (nibble 1 nn.toNat) (nibble 0 nn.toNat) →
      ∃ c' log, c.step = .ok (.executed (.addByte x nn), c', log) ∧
        ((c'.cpu.register x).toNat : Int) = (a + nn.toNat) % 256 ∧
        ∀ r, r ≠ x → c'.cpu.register r = c.cpu.register r := by
  intro a b
  refine ⟨?_, ?_⟩
  · intro op f hflag hop
    obtain ⟨log, hstep⟩ := c.step_of_encode (i := .arith op x y) hready hop nofun nofun
    obtain ⟨value, flag, happly, hf, hbalances⟩ := Arithmetic.apply_balances _ _ hflag
    have hresult : ∀ r, (c.pastOpcode.execute (.arith op x y)).cpu.register r =
        if 0xF = r then Cpu.flag flag else if x = r then value else c.cpu.register r := by
      intro r
      have hset := c.pastOpcode.cpu.register_setResult x r value flag
      rwa [← happly] at hset
    refine ⟨_, log, hstep, ?_, ?_, ?_⟩
    · rw [hresult, if_pos rfl, hf]
    · intro hx
      rw [hresult, if_neg (Ne.symm hx), if_pos rfl]
      exact hbalances
    · intro r hx hF
      rw [hresult, if_neg (Ne.symm hF), if_neg (Ne.symm hx)]
  · intro nn hop
    obtain ⟨log, hstep⟩ := c.step_of_encode (i := .addByte x nn) hready hop nofun nofun
    have hresult : ∀ r, (c.pastOpcode.execute (.addByte x nn)).cpu.register r =
        if x = r then c.cpu.register x + nn else c.cpu.register r :=
      fun r => c.cpu.register_setRegister x r (c.cpu.register x + nn)
    refine ⟨_, log, hstep, ?_, ?_⟩
    · rw [hresult, if_pos rfl, BitVec.toNat_add]
      omega
    · intro r hx
      rw [hresult, if_neg (Ne.symm hx)]

/-- A subtraction that borrows, with VF as the operand that the flag takes the place of; and an
addition to VF that comes round and is no flag. -/
theorem arithmetic_on_numbers_flag :
    ∃ c d c' d' : Computer, ∃ log log',
      c.cpu.awaiting = none ∧ c.fetch = Word.ofNibbles 8 1 0xF 5 ∧
      c.cpu.register 1 = 3 ∧ c.cpu.register 0xF = 5 ∧
      c.step = .ok (.executed (.arith .sub 1 0xF), c', log) ∧
      (c'.cpu.register 1).toNat = 254 ∧ (c'.cpu.register 0xF).toNat = 0 ∧
      d.cpu.awaiting = none ∧ d.fetch = Word.ofNibbles 7 0xF 0xF 0xE ∧
      d.cpu.register 0xF = 5 ∧
      d.step = .ok (.executed (.addByte 0xF 0xFE), d', log') ∧
      (d'.cpu.register 0xF).toNat = 3 := by
  let cpu := Cpu.initial (.ofSeed 0)
  let machine (code : List Byte) : Computer :=
    { cpu := { cpu with v := (cpu.v.write 1 3).write 0xF 5 }
      memory := Memory.blank.writeRange 0x200 code
      screen := Screen.blank
      keypad := .released }
  let c := machine [0x81, 0xF5]
  let d := machine [0x7F, 0xFE]
  have hsub : c.fetch = Word.ofNibbles 8 1 0xF 5 := by decide +kernel
  have hadd : d.fetch = Word.ofNibbles 7 0xF 0xF 0xE := by decide +kernel
  obtain ⟨c', log, hstep, hflag, hbalances, -⟩ :=
    (c.arithmetic_on_numbers rfl 1 0xF).1 .sub 0 (by decide) hsub
  obtain ⟨d', log', hstep', hsum, -⟩ := (d.arithmetic_on_numbers rfl 0xF 0).2 0xFE hadd
  have hresult : ((c'.cpu.register 1).toNat : Int) = 3 - 5 + 256 * (1 - 0) := hbalances (by decide)
  have hsum' : ((d'.cpu.register 0xF).toNat : Int) = (5 + 254) % 256 := hsum
  exact ⟨c, d, c', d', log, log', rfl, hsub, rfl, rfl, hstep, by omega, by omega, rfl, hadd, rfl,
    hstep', by omega⟩

end Computer
end ChipEight
