import ChipEight.Proofs.Bare.Storage
import ChipEight.Proofs.Decoding

/-!
# ChipEight.Proofs.Bare.Instruction

Instructions whose operands are plain bytes and words, as wide as the storage that holds them, and
a decoder that masks them out of the opcode and goes through the digits in order, first match first.

* `decode`         — the decoder; an opcode that no arm takes would be `unreachable`.
* `Instruction.of` — the plain form of an instruction; its registers are digits.
* `decode_ok`      — every opcode finds its arm, and it is the one that `Instruction.decode` takes.
-/

namespace ChipEight
namespace Bare

inductive Instruction where
  | sys (routine : Word)
  | clear
  | ret
  | jump (target : Word)
  | call (target : Word)
  /-- Skips if VX is the byte, or if it is not. -/
  | skipByte (same : Bool) (x nn : Byte)
  /-- Skips if VX is VY, or if it is not. -/
  | skipRegister (same : Bool) (x y : Byte)
  /-- Skips if the key is down, or if it is up. -/
  | skipKey (down : Bool) (x : Byte)
  | setByte (x nn : Byte)
  | addByte (x nn : Byte)
  | arith (op : Arithmetic) (x y : Byte)
  | setIndex (target : Word)
  | jumpPlus (target : Word)
  | random (x mask : Byte)
  | draw (x y rows : Byte)
  | readDelay (x : Byte)
  | awaitKey (x : Byte)
  | setDelay (x : Byte)
  | setSound (x : Byte)
  | addIndex (x : Byte)
  | glyph (x : Byte)
  | decimal (x : Byte)
  | store (x : Byte)
  | restore (x : Byte)
  deriving DecidableEq

/-! ## The fields of an opcode -/

def groupField (w : Word) : Byte := ((w &&& 0xF000) >>> 12).setWidth 8

def xField (w : Word) : Byte := ((w &&& 0x0F00) >>> 8).setWidth 8

def yField (w : Word) : Byte := ((w &&& 0x00F0) >>> 4).setWidth 8

def nField (w : Word) : Byte := (w &&& 0x000F).setWidth 8

def nnField (w : Word) : Byte := (w &&& 0x00FF).setWidth 8

def nnnField (w : Word) : Word := w &&& 0x0FFF

def decode (w : Word) : Checked (Except Error Instruction) :=
  let x := xField w
  let y := yField w
  let n := nField w
  let nn := nnField w
  let nnn := nnnField w
  match (groupField w).toNat, x.toNat, y.toNat, n.toNat with
  | 0x0, 0x0, 0xE, 0x0 => .ok (.ok .clear)
  | 0x0, 0x0, 0xE, 0xE => .ok (.ok .ret)
  | 0x0, _, _, _ => .ok (.ok (.sys nnn))
  | 0x1, _, _, _ => .ok (.ok (.jump nnn))
  | 0x2, _, _, _ => .ok (.ok (.call nnn))
  | 0x3, _, _, _ => .ok (.ok (.skipByte true x nn))
  | 0x4, _, _, _ => .ok (.ok (.skipByte false x nn))
  | 0x5, _, _, 0x0 => .ok (.ok (.skipRegister true x y))
  | 0x5, _, _, _ => .ok (.error (.invalidOpcode w .equality))
  | 0x6, _, _, _ => .ok (.ok (.setByte x nn))
  | 0x7, _, _, _ => .ok (.ok (.addByte x nn))
  | 0x8, _, _, 0x0 => .ok (.ok (.arith .copy x y))
  | 0x8, _, _, 0x1 => .ok (.ok (.arith .or x y))
  | 0x8, _, _, 0x2 => .ok (.ok (.arith .and x y))
  | 0x8, _, _, 0x3 => .ok (.ok (.arith .xor x y))
  | 0x8, _, _, 0x4 => .ok (.ok (.arith .add x y))
  | 0x8, _, _, 0x5 => .ok (.ok (.arith .sub x y))
  | 0x8, _, _, 0x6 => .ok (.ok (.arith .shiftRight x y))
  | 0x8, _, _, 0x7 => .ok (.ok (.arith .subFrom x y))
  | 0x8, _, _, 0xE => .ok (.ok (.arith .shiftLeft x y))
  | 0x8, _, _, _ => .ok (.error (.invalidOpcode w .arithmetic))
  | 0x9, _, _, 0x0 => .ok (.ok (.skipRegister false x y))
  | 0x9, _, _, _ => .ok (.error (.invalidOpcode w .inequality))
  | 0xA, _, _, _ => .ok (.ok (.setIndex nnn))
  | 0xB, _, _, _ => .ok (.ok (.jumpPlus nnn))
  | 0xC, _, _, _ => .ok (.ok (.random x nn))
  | 0xD, _, _, _ => .ok (.ok (.draw x y n))
  | 0xE, _, 0x9, 0xE => .ok (.ok (.skipKey true x))
  | 0xE, _, 0xA, 0x1 => .ok (.ok (.skipKey false x))
  | 0xE, _, _, _ => .ok (.error (.invalidOpcode w .keySkip))
  | 0xF, _, 0x0, 0x7 => .ok (.ok (.readDelay x))
  | 0xF, _, 0x0, 0xA => .ok (.ok (.awaitKey x))
  | 0xF, _, 0x1, 0x5 => .ok (.ok (.setDelay x))
  | 0xF, _, 0x1, 0x8 => .ok (.ok (.setSound x))
  | 0xF, _, 0x1, 0xE => .ok (.ok (.addIndex x))
  | 0xF, _, 0x2, 0x9 => .ok (.ok (.glyph x))
  | 0xF, _, 0x3, 0x3 => .ok (.ok (.decimal x))
  | 0xF, _, 0x5, 0x5 => .ok (.ok (.store x))
  | 0xF, _, 0x6, 0x5 => .ok (.ok (.restore x))
  | 0xF, _, _, _ => .ok (.error (.invalidOpcode w .misc))
  | _, _, _, _ => .error .unreachable

/-! ## Plain forms -/

/-- A digit as a byte. -/
def ofDigit (d : Fin 16) : Byte := BitVec.ofNat 8 d.val

@[simp] theorem toNat_ofDigit (d : Fin 16) : (ofDigit d).toNat = d.val := by
  rw [ofDigit, BitVec.toNat_ofNat]
  exact Nat.mod_eq_of_lt (by omega)

namespace Instruction

def ofCondition : Condition → Instruction
  | .isByte x nn => .skipByte true (ofDigit x) nn
  | .isNotByte x nn => .skipByte false (ofDigit x) nn
  | .equal x y => .skipRegister true (ofDigit x) (ofDigit y)
  | .different x y => .skipRegister false (ofDigit x) (ofDigit y)
  | .keyDown x => .skipKey true (ofDigit x)
  | .keyUp x => .skipKey false (ofDigit x)

def of : ChipEight.Instruction → Instruction
  | .sys routine => .sys (routine.setWidth 16)
  | .clear => .clear
  | .ret => .ret
  | .jump target => .jump (target.setWidth 16)
  | .call target => .call (target.setWidth 16)
  | .skip condition => ofCondition condition
  | .setByte x nn => .setByte (ofDigit x) nn
  | .addByte x nn => .addByte (ofDigit x) nn
  | .arith op x y => .arith op (ofDigit x) (ofDigit y)
  | .setIndex target => .setIndex (target.setWidth 16)
  | .jumpPlus target => .jumpPlus (target.setWidth 16)
  | .random x mask => .random (ofDigit x) mask
  | .draw x y rows => .draw (ofDigit x) (ofDigit y) (ofDigit rows)
  | .readDelay x => .readDelay (ofDigit x)
  | .awaitKey x => .awaitKey (ofDigit x)
  | .setDelay x => .setDelay (ofDigit x)
  | .setSound x => .setSound (ofDigit x)
  | .addIndex x => .addIndex (ofDigit x)
  | .glyph x => .glyph (ofDigit x)
  | .decimal x => .decimal (ofDigit x)
  | .store x => .store (ofDigit x)
  | .restore x => .restore (ofDigit x)

end Instruction

/-! ## The decoder -/

theorem toNat_field (w mask : Word) (k : Nat) (d : Fin 16)
    (h : (w.toNat &&& mask.toNat) >>> k = d.val) :
    ((w &&& mask) >>> k).setWidth 8 = ofDigit d := by
  apply BitVec.eq_of_toNat_eq
  rw [BitVec.toNat_setWidth, BitVec.toNat_ushiftRight, BitVec.toNat_and, h, toNat_ofDigit]
  exact Nat.mod_eq_of_lt (by omega)

theorem and_shifted_digit (n k : Nat) : (n &&& 15 <<< k) >>> k = n >>> k % 16 := by
  rw [Nat.shiftRight_and_distrib, Nat.shiftLeft_shiftRight]
  exact Nat.and_two_pow_sub_one_eq_mod _ 4

theorem groupField_eq (w : Word) : groupField w = ofDigit w.group :=
  toNat_field w 0xF000 12 w.group (and_shifted_digit w.toNat 12)

theorem xField_eq (w : Word) : xField w = ofDigit w.x :=
  toNat_field w 0x0F00 8 w.x (and_shifted_digit w.toNat 8)

theorem yField_eq (w : Word) : yField w = ofDigit w.y :=
  toNat_field w 0x00F0 4 w.y (and_shifted_digit w.toNat 4)

theorem nField_eq (w : Word) : nField w = ofDigit w.n := by
  have h := toNat_field w 0x000F 0 w.n (and_shifted_digit w.toNat 0)
  exact h

theorem nnField_eq (w : Word) : nnField w = w.nn := by
  apply BitVec.eq_of_toNat_eq
  rw [nnField, Word.nn, BitVec.toNat_setWidth, BitVec.toNat_setWidth, BitVec.toNat_and]
  rw [show (0x00FF : Word).toNat = 2 ^ 8 - 1 from rfl, Nat.and_two_pow_sub_one_eq_mod, Nat.mod_mod]

theorem nnnField_eq (w : Word) : nnnField w = w.nnn.setWidth 16 := by
  apply BitVec.eq_of_toNat_eq
  rw [nnnField, Word.nnn, BitVec.toNat_setWidth, BitVec.toNat_setWidth, BitVec.toNat_and]
  rw [show (0x0FFF : Word).toNat = 2 ^ 12 - 1 from rfl, Nat.and_two_pow_sub_one_eq_mod]
  omega

theorem decode_ok (w : Word) :
    decode w = .ok ((ChipEight.Instruction.decode w).map Instruction.of) := by
  have hdigits := Word.toNat_digits w
  have hnn := Word.toNat_nn w
  unfold decode ChipEight.Instruction.decode
  rw [groupField_eq, xField_eq, yField_eq, nField_eq, nnField_eq, nnnField_eq, hnn]
  simp only [toNat_ofDigit]
  generalize w.group = g at hdigits ⊢
  generalize w.n = n at hdigits ⊢
  obtain ⟨g, hg⟩ := g
  obtain ⟨n, hn⟩ := n
  dsimp only at hdigits ⊢
  have eq_of_toNat : ∀ c : Word, w.toNat = c.toNat → w = c := fun c => BitVec.eq_of_toNat_eq
  -- One goal for each arm of the decoder.
  split
  case h_1 hx hy =>
    rw [eq_of_toNat 0x00E0 (by simp_all)]
    rfl
  case h_2 hx hy =>
    rw [eq_of_toNat 0x00EE (by simp_all)]
    rfl
  case h_3 hclear hret =>
    have h0 : w ≠ 0x00E0 := by
      intro h
      have htoNat : w.toNat = 0x00E0 := by rw [h]; rfl
      exact hclear (by omega) (by omega) (by omega)
    have h1 : w ≠ 0x00EE := by
      intro h
      have htoNat : w.toNat = 0x00EE := by rw [h]; rfl
      exact hret (by omega) (by omega) (by omega)
    simp only [if_neg h0, if_neg h1]
    rfl
  case h_9 hne =>
    have hn0 : (⟨_, hn⟩ : Fin 16) ≠ 0 := fun h => hne (Fin.val_eq_of_eq h)
    simp only [if_neg hn0]
    rfl
  case h_21 =>
    have hnone : Arithmetic.ofDigit? ⟨_, hn⟩ = none :=
      ChipEight.Instruction.ofDigit?_eq_none _ (by grind) (by grind)
    rw [hnone]
    rfl
  case h_23 hne =>
    have hn0 : (⟨_, hn⟩ : Fin 16) ≠ 0 := fun h => hne (Fin.val_eq_of_eq h)
    simp only [if_neg hn0]
    rfl
  case h_30 =>
    rw [ChipEight.Instruction.ofSingle?_keySkip_eq_none]
    · rfl
    · grind
  case h_40 =>
    rw [ChipEight.Instruction.ofSingle?_misc_eq_none]
    · rfl
    · grind
  case h_41 =>
    clear hdigits
    grind
  all_goals
    simp only [*]
    rfl

end Bare
end ChipEight
