import ChipEight.Proofs.Bare.Storage
import ChipEight.Proofs.Memory

/-!
# ChipEight.Proofs.Bare.Memory

Memory over plain storage: an address is masked to its low 12 bits and used as an index, and blocks
are copied to fixed places. None of it can fail, and it does what `Memory` does.
-/

namespace ChipEight
namespace Bare

/-- The index of the cell that an address names. -/
def masked (a : Word) : Nat := (a &&& 0x0FFF).toNat

def readByte (m : Memory) (a : Word) : Checked Byte := get m.cells (masked a)

def writeByte (m : Memory) (a : Word) (value : Byte) : Checked Memory := do
  let cells ← put m.cells (masked a) value
  return { m with cells }

def readWord (m : Memory) (a : Word) : Checked Word := do
  let high ← readByte m a
  let low ← readByte m (a + 1)
  return high.setWidth 16 <<< 8 ||| low.setWidth 16

def readRange (m : Memory) (a : Word) (length : Nat) : Checked (List Byte) :=
  (List.range length).mapM fun k => readByte m (a + BitVec.ofNat 16 k)

/-- Zeros and the font, with no ROM. -/
def blankMemory : Checked Memory := do
  let cells ← copy (Vector.replicate 4096 0) Memory.fontStart.toNat Memory.font
  return ⟨cells, 0⟩

/-- Copies a ROM in if it fits; the memory stays as it is if it does not. -/
def loadRom (m : Memory) (rom : List Byte) : Checked (Except Error Nat × Memory) := do
  if Memory.capacity < rom.length then
    return (.error (.romTooLarge rom.length Memory.capacity), m)
  let cells ← copy m.cells Memory.start.toNat rom
  return (.ok rom.length, ⟨cells, rom.length⟩)

/-- The cells of the last ROM. -/
def program (m : Memory) : Checked (List Byte) := slice m.cells Memory.start.toNat m.romLength

def glyphAddress (digit : Byte) : Checked Word := do
  let offset ← mul ((digit &&& 0xF).setWidth 16) (BitVec.ofNat 16 Memory.glyphSize)
  add Memory.fontStart offset

theorem masked_eq (a : Word) : masked a = (Memory.cell a).val := by
  rw [masked, BitVec.toNat_and, Memory.cell_val]
  exact Nat.and_two_pow_sub_one_eq_mod a.toNat 12

theorem masked_lt (a : Word) : masked a < 4096 := masked_eq a ▸ (Memory.cell a).isLt

@[simp] theorem readByte_ok (m : Memory) (a : Word) : readByte m a = .ok (m.read a) := by
  rw [readByte, get_ok (masked_lt a)]
  simp only [masked_eq, Memory.read, Fin.getElem_fin]

@[simp] theorem writeByte_ok (m : Memory) (a : Word) (value : Byte) :
    writeByte m a value = .ok (m.write a value) := by
  rw [writeByte, put_ok value (masked_lt a), ok_bind]
  simp only [masked_eq, Memory.write, pure_eq_ok]

/-- Two bytes, the first shifted to the high half, are the word that the two spell. -/
theorem shifted_or (high low : Byte) :
    high.setWidth 16 <<< 8 ||| low.setWidth 16 = Word.ofBytes high low := by
  apply BitVec.eq_of_getLsbD_eq
  intro k hk
  rw [Word.ofBytes, BitVec.getLsbD_append]
  by_cases h : k < 8
  · simp [h, hk]
  · have : 8 ≤ k := by omega
    simp [h, hk, BitVec.getLsbD_of_ge low k this]

@[simp] theorem readWord_ok (m : Memory) (a : Word) : readWord m a = .ok (m.readWord a) := by
  rw [readWord, readByte_ok, readByte_ok]
  exact congrArg Except.ok (shifted_or _ _)

@[simp] theorem readRange_ok (m : Memory) (a : Word) (length : Nat) :
    readRange m a length = .ok (m.readRange a length) :=
  mapM_ok fun k _ => readByte_ok m (a + BitVec.ofNat 16 k)

/-- A block that ends before the last cell is what a range of single writes puts there. -/
theorem copy_cells (m : Memory) {start : Nat} {bytes : List Byte}
    (h : start + bytes.length ≤ 4096) :
    copy m.cells start bytes = .ok (m.writeRange (BitVec.ofNat 16 start) bytes).cells := by
  rw [copy_ok h]
  refine congrArg Except.ok (Vector.ext fun k hk => ?_)
  have hstart : (BitVec.ofNat 16 start).toNat = start := by
    rw [BitVec.toNat_ofNat]
    omega
  have hfits : (BitVec.ofNat 16 start).toNat + bytes.length ≤ 4096 := by rwa [hstart]
  rw [Vector.getElem_ofFn, Fin.getElem_fin, Memory.getElem_cells_eq_cellAt _ hk,
    Memory.getElem_cells_eq_cellAt _ hk, m.cellAt_writeRange_of_fits _ hfits, hstart,
    Nat.mod_eq_of_lt hk]

@[simp] theorem blankMemory_ok : blankMemory = .ok Memory.blank := by
  have hstart : BitVec.ofNat 16 Memory.fontStart.toNat = Memory.fontStart := rfl
  have hfit : Memory.fontStart.toNat + Memory.font.length ≤ 4096 := by decide
  have hcopy := copy_cells ⟨Vector.replicate 4096 0, 0⟩ hfit
  rw [hstart] at hcopy
  rw [blankMemory, hcopy, ok_bind, pure_eq_ok, Memory.blank]
  exact congrArg Except.ok (Memory.mk_writeRange_cells ⟨Vector.replicate 4096 0, 0⟩ _ _)

theorem loadRom_fits (m : Memory) {rom : List Byte} (h : rom.length ≤ Memory.capacity) :
    loadRom m rom = .ok (.ok rom.length,
      { m.writeRange Memory.start rom with romLength := rom.length }) := by
  have hfit : Memory.start.toNat + rom.length ≤ 4096 := by
    have : Memory.capacity = 4096 - Memory.start.toNat := rfl
    have : Memory.start.toNat = 512 := rfl
    omega
  rw [loadRom, if_neg (Nat.not_lt.mpr h), copy_cells m hfit]
  rfl

theorem program_ok (m : Memory) (h : m.romLength ≤ Memory.capacity) :
    program m = .ok m.program := by
  have hfit : Memory.start.toNat + m.romLength ≤ 4096 := by
    have : Memory.capacity = 4096 - Memory.start.toNat := rfl
    have : Memory.start.toNat = 512 := rfl
    omega
  rw [program, slice_ok hfit, ← Memory.readRange_eq_slice m hfit]
  rfl

@[simp] theorem glyphAddress_ok (digit : Byte) :
    glyphAddress digit = .ok (Memory.glyphAddress digit) := by
  have hmask : (digit &&& 0xF).toNat = digit.toNat % 16 := by
    rw [BitVec.toNat_and]
    exact Nat.and_two_pow_sub_one_eq_mod digit.toNat 4
  have hmul : BitVec.umulOverflow ((digit &&& 0xF).setWidth 16 : Word)
      (BitVec.ofNat 16 Memory.glyphSize) = false := by
    simp only [BitVec.umulOverflow, BitVec.toNat_setWidth, hmask, Memory.glyphSize,
      BitVec.toNat_ofNat, decide_eq_false_iff_not]
    omega
  have hadd : ∀ offset : Word, BitVec.uaddOverflow Memory.fontStart offset = false := by
    intro offset
    simp [BitVec.uaddOverflow, Memory.fontStart, offset.isLt]
  rw [glyphAddress, mul_ok hmul, ok_bind, add_ok (hadd _), Memory.glyphAddress]
  congr 2
  apply BitVec.eq_of_toNat_eq
  simp only [BitVec.toNat_mul, BitVec.toNat_setWidth, hmask, BitVec.toNat_ofNat, Memory.glyphSize]
  omega

end Bare
end ChipEight
