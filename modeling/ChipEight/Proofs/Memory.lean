import ChipEight.Memory

/-!
# ChipEight.Proofs.Memory

What a read sees after a write. Addresses that name the same cell are told apart nowhere, so all of
it is modulo 4096.

* `read_write`      — one cell.
* `read_writeRange` — a range: the byte at the distance from its start, if it reaches that far.
* `cellAt`, `readRange_eq_cellAt` — a range of any length, by the numbers of its cells.
* `cellAt_writeRange`, `cellAt_writeRange_of_ne` — a cell of a written range, and any other one;
  `cellAt_writeRange_of_fits` is both, for a range that does not come round.
* `cellAt_blank` — the cells of a memory that nothing was done with.
* `readRange_eq_slice` — a range that does not come round is a stretch of the cells.
-/

namespace ChipEight

theorem Word.toNat_ofBytes (high low : Byte) :
    (ofBytes high low).toNat = 256 * high.toNat + low.toNat := by
  rw [ofBytes, BitVec.toNat_append, Nat.shiftLeft_eq, Nat.mul_comm,
    ← Nat.two_pow_add_eq_or_of_lt low.isLt]

namespace Memory

@[simp] theorem cell_val (a : Word) : (cell a).val = a.toNat % 4096 := rfl

theorem cell_eq_iff {a b : Word} : cell a = cell b ↔ a.toNat % 4096 = b.toNat % 4096 := by
  rw [Fin.ext_iff, cell_val, cell_val]

@[simp] theorem write_romLength (m : Memory) (a : Word) (value : Byte) :
    (m.write a value).romLength = m.romLength := rfl

@[simp] theorem writeRange_romLength (m : Memory) (a : Word) (bytes : List Byte) :
    (m.writeRange a bytes).romLength = m.romLength := by
  induction bytes generalizing m a with
  | nil => rfl
  | cons b rest ih => rw [writeRange, ih, write_romLength]

theorem mk_writeRange_cells (m : Memory) (a : Word) (bytes : List Byte) :
    (⟨(m.writeRange a bytes).cells, m.romLength⟩ : Memory) = m.writeRange a bytes := by
  have hl := writeRange_romLength m a bytes
  cases h : m.writeRange a bytes with
  | mk cells romLength =>
    rw [h] at hl
    rw [← hl]

theorem read_write (m : Memory) (a b : Word) (value : Byte) :
    (m.write a value).read b = if cell a = cell b then value else m.read b := by
  simp only [read, write, Fin.getElem_fin, Vector.getElem_set, Fin.ext_iff]

/-- How far `b` lies behind `a`, going round. -/
def distance (a b : Word) : Nat := (b - a).toNat % 4096

theorem distance_eq_zero {a b : Word} : distance a b = 0 ↔ cell a = cell b := by
  rw [cell_eq_iff, distance, BitVec.toNat_sub]
  have := a.isLt
  have := b.isLt
  omega

/-- One step further on, a place that is not the start itself is one nearer. -/
theorem distance_succ {a b : Word} (h : cell a ≠ cell b) :
    distance a b = distance (a + 1) b + 1 := by
  rw [Ne, cell_eq_iff] at h
  have hone : (1 : Word).toNat = 1 := rfl
  have := a.isLt
  have := b.isLt
  rw [distance, distance, BitVec.toNat_sub, BitVec.toNat_sub, BitVec.toNat_add, hone]
  omega

/-- The start itself is as far from the next place as it can be. -/
theorem distance_behind {a b : Word} (h : cell a = cell b) : distance (a + 1) b = 4095 := by
  rw [cell_eq_iff] at h
  have hone : (1 : Word).toNat = 1 := rfl
  have := a.isLt
  have := b.isLt
  rw [distance, BitVec.toNat_sub, BitVec.toNat_add, hone]
  omega

theorem read_writeRange (m : Memory) (a b : Word) {bytes : List Byte}
    (h : bytes.length ≤ 4096) :
    (m.writeRange a bytes).read b = bytes[distance a b]?.getD (m.read b) := by
  induction bytes generalizing m a with
  | nil => rfl
  | cons byte rest ih =>
    rw [List.length_cons] at h
    rw [writeRange, ih _ _ (by omega), read_write]
    by_cases hc : cell a = cell b
    · have hnone : rest[distance (a + 1) b]? = none := by
        rw [distance_behind hc]
        exact List.getElem?_eq_none (by omega)
      rw [hnone, distance_eq_zero.mpr hc, if_pos hc]
      rfl
    · rw [if_neg hc, distance_succ hc, List.getElem?_cons_succ]

theorem writeRange_append (m : Memory) (a : Word) (bytes rest : List Byte) :
    m.writeRange a (bytes ++ rest) =
      (m.writeRange a bytes).writeRange (a + BitVec.ofNat 16 bytes.length) rest := by
  induction bytes generalizing m a with
  | nil => simp [writeRange]
  | cons b bytes ih =>
    rw [List.cons_append, writeRange, writeRange, ih, List.length_cons, BitVec.add_assoc]
    congr 2
    apply BitVec.eq_of_toNat_eq
    simp [Nat.add_comm]

theorem getElem_cells (m : Memory) {k : Nat} (h : k < 4096) :
    m.cells[k] = m.read (BitVec.ofNat 16 k) := by
  have hk : cell (BitVec.ofNat 16 k) = ⟨k, h⟩ := by
    rw [Fin.ext_iff, cell_val, BitVec.toNat_ofNat]
    show k % 65536 % 4096 = k
    omega
  simp only [read, hk, Fin.getElem_fin]

@[simp] theorem length_readRange (m : Memory) (a : Word) (length : Nat) :
    (m.readRange a length).length = length := by
  simp [readRange]

theorem readRange_succ (m : Memory) (a : Word) (length : Nat) :
    m.readRange a (length + 1) =
      m.readRange a length ++ [m.read (a + BitVec.ofNat 16 length)] := by
  simp [readRange, List.range_succ]

theorem mod_size_lt (k : Nat) : k % 4096 < 4096 := Nat.mod_lt k (by decide)

/-- The cell of a number, counted round the end. -/
def cellAt (m : Memory) (k : Nat) : Byte := m.cells.get ⟨k % 4096, mod_size_lt k⟩

theorem cellAt_congr (m : Memory) {j k : Nat} (h : j % 4096 = k % 4096) :
    m.cellAt j = m.cellAt k := by
  simp only [cellAt, h]

theorem read_eq_cellAt (m : Memory) (a : Word) : m.read a = m.cellAt a.toNat := rfl

theorem cellAt_eq_read (m : Memory) (j : Nat) : m.cellAt j = m.read (BitVec.ofNat 16 j) := by
  rw [read_eq_cellAt, BitVec.toNat_ofNat]
  apply m.cellAt_congr
  omega

theorem getElem_cells_eq_cellAt (m : Memory) {k : Nat} (h : k < 4096) :
    m.cells[k] = m.cellAt k := by
  rw [m.getElem_cells h, m.cellAt_eq_read]

theorem distance_ofNat (a : Word) (j : Nat) :
    (a.toNat + distance a (BitVec.ofNat 16 j)) % 4096 = j % 4096 := by
  have := a.isLt
  rw [distance, BitVec.toNat_sub, BitVec.toNat_ofNat]
  omega

/-- No two cells of a range are the same one, so each holds the byte that was meant for it. -/
theorem cellAt_writeRange (m : Memory) (a : Word) {bytes : List Byte} (h : bytes.length ≤ 4096)
    {k : Nat} (hk : k < bytes.length) :
    (m.writeRange a bytes).cellAt (a.toNat + k) = bytes[k] := by
  have hplace := distance_ofNat a (a.toNat + k)
  have hdistance : distance a (BitVec.ofNat 16 (a.toNat + k)) = k := by
    have : distance a (BitVec.ofNat 16 (a.toNat + k)) < 4096 := Nat.mod_lt _ (by decide)
    omega
  rw [cellAt_eq_read, read_writeRange m _ _ h, hdistance, List.getElem?_eq_getElem hk,
    Option.getD_some]

theorem cellAt_writeRange_of_ne (m : Memory) (a : Word) {bytes : List Byte}
    (h : bytes.length ≤ 4096) {j : Nat}
    (hj : ∀ k < bytes.length, j % 4096 ≠ (a.toNat + k) % 4096) :
    (m.writeRange a bytes).cellAt j = m.cellAt j := by
  have hbehind : bytes.length ≤ distance a (BitVec.ofNat 16 j) := by
    apply Nat.le_of_not_lt
    intro hlt
    exact hj _ hlt (distance_ofNat a j).symm
  rw [cellAt_eq_read, read_writeRange m _ _ h, List.getElem?_eq_none hbehind, Option.getD_none,
    ← cellAt_eq_read]

/-- A range that ends before the last cell covers the cells from its start on, in their order. -/
theorem cellAt_writeRange_of_fits (m : Memory) (a : Word) {bytes : List Byte}
    (h : a.toNat + bytes.length ≤ 4096) (j : Nat) :
    (m.writeRange a bytes).cellAt j =
      if a.toNat ≤ j % 4096 then bytes[j % 4096 - a.toNat]?.getD (m.cellAt j)
      else m.cellAt j := by
  have hdistance : distance a (BitVec.ofNat 16 j) = (4096 + j % 4096 - a.toNat) % 4096 := by
    rw [distance, BitVec.toNat_sub, BitVec.toNat_ofNat]
    omega
  rw [cellAt_eq_read, read_writeRange m _ _ (by omega), hdistance, ← cellAt_eq_read]
  by_cases hj : a.toNat ≤ j % 4096
  · have hplace : (4096 + j % 4096 - a.toNat) % 4096 = j % 4096 - a.toNat := by omega
    rw [if_pos hj, hplace]
  · rw [if_neg hj, List.getElem?_eq_none (by omega), Option.getD_none]

/-- The font, and zeros behind it. -/
theorem cellAt_blank (j : Nat) : blank.cellAt j = font.getD (j % 4096) 0 := by
  have hzero : (⟨Vector.replicate 4096 0, 0⟩ : Memory).cellAt j = 0 := Vector.getElem_replicate _
  have hfontStart : fontStart.toNat = 0 := rfl
  have hfits : fontStart.toNat + font.length ≤ 4096 := by decide
  rw [blank, cellAt_writeRange_of_fits _ _ hfits, hzero, hfontStart, if_pos (Nat.zero_le _),
    Nat.sub_zero, List.getD_eq_getElem?_getD]

/-- A range of any length goes round the cells, from the one that its address names. -/
theorem readRange_eq_cellAt (m : Memory) (a : Word) (length : Nat) :
    m.readRange a length = (List.range length).map fun k => m.cellAt (a.toNat + k) := by
  have hcell : ∀ k, m.read (a + BitVec.ofNat 16 k) = m.cellAt (a.toNat + k) := by
    intro k
    rw [read_eq_cellAt, BitVec.toNat_add, BitVec.toNat_ofNat]
    apply m.cellAt_congr
    omega
  simp only [readRange, hcell]

theorem readRange_eq_slice (m : Memory) {start length : Nat} (h : start + length ≤ 4096) :
    m.readRange (BitVec.ofNat 16 start) length =
      (m.cells.toList.drop start).take length := by
  apply List.ext_getElem
  · simp
    omega
  · intro k hk _
    rw [length_readRange] at hk
    have hcell : m.cells[start + k] = m.read (BitVec.ofNat 16 start + BitVec.ofNat 16 k) := by
      rw [getElem_cells m (by omega)]
      congr 1
      apply BitVec.eq_of_toNat_eq
      simp
    simp [readRange, ← hcell]

end Memory
end ChipEight
