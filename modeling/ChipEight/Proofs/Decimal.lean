import ChipEight.Proofs.Transfer

/-!
# ChipEight.Proofs.Decimal

Decimal digits by way of memory: FX33 writes them, F265 reads them, and FX29 finds their pictures.

* `Computer.decimalDigits_value` — hundreds, tens and ones make up the number.
* `Computer.cellAt_decimal`, `cellAt_decimal_of_ne` — where FX33 puts them, and nowhere else.
* `Memory.glyph`, `Memory.readRange_glyph` — the rows of a digit, and where they are in memory.
* `Computer.step_decimal`, `step_glyph` — a step on FX33, and on FX29 with a decimal digit.
* `decimal_survives_memory` — from a register through memory to the font.
-/

namespace ChipEight
namespace Memory

/-- The five rows of a digit in the font. -/
def glyph (digit : Nat) : List Byte := (font.drop (5 * digit)).take 5

theorem glyphAddress_eq (digit : Byte) :
    glyphAddress digit = BitVec.ofNat 16 (5 * (digit.toNat % 16)) := by
  rw [glyphAddress, Nat.mul_comm]
  exact BitVec.zero_add _

/-- While the font is in place, a digit's address is that of its rows. -/
theorem readRange_glyph {m : Memory} (h : m.readRange fontStart 80 = font) (digit : Byte) :
    m.readRange (glyphAddress digit) 5 = glyph (digit.toNat % 16) := by
  have hfits : 0 + 80 ≤ 4096 := by decide
  have hfont : font = (m.cells.toList.drop 0).take 80 := h.symm.trans (m.readRange_eq_slice hfits)
  have hrest : 5 ≤ 80 - 5 * (digit.toNat % 16) := by omega
  rw [glyphAddress_eq, m.readRange_eq_slice (by omega), glyph, hfont, List.drop_zero,
    List.drop_take, List.take_take, Nat.min_eq_left hrest]

end Memory

namespace Computer

theorem decimalDigits_value (b : Byte) :
    100 * (b / 100).toNat + 10 * (b / 10 % 10).toNat + (b % 10).toNat = b.toNat ∧
      (b / 100).toNat ≤ 9 ∧ (b / 10 % 10).toNat ≤ 9 ∧ (b % 10).toNat ≤ 9 := by
  have hten : (10 : Byte).toNat = 10 := rfl
  have hhundred : (100 : Byte).toNat = 100 := rfl
  have := b.isLt
  rw [BitVec.toNat_umod, BitVec.toNat_umod, BitVec.toNat_udiv, BitVec.toNat_udiv, hten, hhundred]
  omega

variable (c : Computer) (x : Register)

theorem cellAt_decimal {k : Nat} (hk : k < (decimalDigits (c.cpu.register x)).length) :
    (c.execute (.decimal x)).memory.cellAt (c.cpu.index.toNat + k) =
      (decimalDigits (c.cpu.register x))[k] :=
  c.memory.cellAt_writeRange c.cpu.index (Nat.le_of_ble_eq_true rfl) hk

theorem cellAt_decimal_of_ne {j : Nat} (hj : ∀ k < 3, j % 4096 ≠ (c.cpu.index.toNat + k) % 4096) :
    (c.execute (.decimal x)).memory.cellAt j = c.memory.cellAt j := by
  refine c.content_execute (i := .decimal x) (p := .cellAt j) nofun ?_
  rw [Instruction.writes, Place.cellAt_mem_cells]
  rintro ⟨k, hk, heq⟩
  exact hj k hk heq

variable {c x}

theorem step_decimal (hready : c.cpu.awaiting = none) (hop : c.fetch = Word.ofNibbles 0xF x 3 3) :
    ∃ first log, c.step = .ok (.executed (.decimal x), first, log) ∧
      (∀ k, (hk : k < (decimalDigits (c.cpu.register x)).length) →
        first.memory.cellAt (c.cpu.index.toNat + k) = (decimalDigits (c.cpu.register x))[k]) ∧
      (∀ j, (∀ k < 3, j % 4096 ≠ (c.cpu.index.toNat + k) % 4096) →
        first.memory.cellAt j = c.memory.cellAt j) ∧
      first.cpu = { c.cpu with pc := c.cpu.pc + 2 } := by
  obtain ⟨log, hstep⟩ := c.step_of_encode (i := .decimal x) hready hop nofun nofun
  exact ⟨_, log, hstep, fun k => c.pastOpcode.cellAt_decimal x,
    fun j => c.pastOpcode.cellAt_decimal_of_ne x, rfl⟩

/-- A step on FX29 with a decimal digit in VX. -/
theorem step_glyph (hready : c.cpu.awaiting = none) (hop : c.fetch = Word.ofNibbles 0xF x 2 9)
    (hdigit : (c.cpu.register x).toNat ≤ 9) :
    ∃ c' log, c.step = .ok (.executed (.glyph x), c', log) ∧
      c'.cpu.index.toNat = 5 * (c.cpu.register x).toNat ∧ c'.cpu.index.toNat + 4 ≤ 79 ∧
      (c'.memory.readRange Memory.fontStart 80 = Memory.font →
        c'.memory.readRange c'.cpu.index 5 = Memory.glyph (c.cpu.register x).toNat) := by
  obtain ⟨log, hstep⟩ := c.step_of_encode (i := .glyph x) hready hop nofun nofun
  have hmod : (c.cpu.register x).toNat % 16 = (c.cpu.register x).toNat := by omega
  have hindex : (Memory.glyphAddress (c.cpu.register x)).toNat = 5 * (c.cpu.register x).toNat := by
    rw [Memory.glyphAddress_eq, BitVec.toNat_ofNat, hmod]
    omega
  refine ⟨_, log, hstep, hindex, ?_, ?_⟩
  · show (Memory.glyphAddress (c.cpu.register x)).toNat + 4 ≤ 79
    omega
  · intro hfont
    have hrows := Memory.readRange_glyph hfont (c.cpu.register x)
    rwa [hmod] at hrows

variable (c x)

/-- A step on FX33, and wherever the pc is then, one on F265: V0, V1 and V2 are the hundreds, the
tens and the ones of what VX was, even if X is one of them; the other registers are as they were,
and so is all memory but for three cells from the index on; the index has passed those. From there,
a step on FX29 with any of the three digits points the index at the five rows of that digit in the
font, which lies in the first 80 cells. -/
theorem decimal_survives_memory (hready : c.cpu.awaiting = none)
    (hop : c.fetch = Word.ofNibbles 0xF x 3 3) :
    ∃ first log, c.step = .ok (.executed (.decimal x), first, log) ∧ ∀ pc,
      let next := first.withCpu ({ · with pc })
      next.fetch = Word.ofNibbles 0xF 2 6 5 →
      ∃ second log', next.step = .ok (.executed (.restore 2), second, log') ∧
        (∀ r, r.val ≤ 2 → (second.cpu.register r).toNat ≤ 9) ∧
        100 * (second.cpu.register 0).toNat + 10 * (second.cpu.register 1).toNat +
            (second.cpu.register 2).toNat = (c.cpu.register x).toNat ∧
        (∀ r, 2 < r.val → second.cpu.register r = c.cpu.register r) ∧
        (∀ j, (∀ k < 3, j % 4096 ≠ (c.cpu.index.toNat + k) % 4096) →
          second.memory.cellAt j = c.memory.cellAt j) ∧
        second.cpu.index.toNat = (c.cpu.index.toNat + 3) % 65536 ∧
        ∀ y : Register, y.val ≤ 2 → ∀ pc,
          let last := second.withCpu ({ · with pc })
          let digit := (second.cpu.register y).toNat
          last.fetch = Word.ofNibbles 0xF y 2 9 →
          ∃ third log'', last.step = .ok (.executed (.glyph y), third, log'') ∧
            third.cpu.index.toNat = 5 * digit ∧ third.cpu.index.toNat + 4 ≤ 79 ∧
            (third.memory.readRange Memory.fontStart 80 = Memory.font →
              third.memory.readRange third.cpu.index 5 = Memory.glyph digit) := by
  obtain ⟨first, log, hstep, hdigits, hothers, hcpu⟩ := step_decimal hready hop
  refine ⟨first, log, hstep, ?_⟩
  intro pc next hrestore
  have hnext : next.cpu = { c.cpu with pc } := congrArg (fun cpu : Cpu => { cpu with pc }) hcpu
  have hready' : next.cpu.awaiting = none := by rw [hnext, hready]
  obtain ⟨second, log', hstep', hlow, hhigh, hmemory, hindex, hready''⟩ :=
    step_restore hready' hrestore
  rw [hnext] at hlow hhigh hindex
  have hdigit : ∀ r : Register, (hr : r.val < 3) →
      second.cpu.register r = (decimalDigits (c.cpu.register x)).get ⟨r.val, hr⟩ :=
    fun r hr => (hlow r (Nat.le_of_lt_succ hr)).trans (hdigits r.val hr)
  obtain ⟨hvalue, hhundreds, htens, hones⟩ := decimalDigits_value (c.cpu.register x)
  have hzero : second.cpu.register 0 = c.cpu.register x / 100 := hdigit 0 (by decide)
  have hone : second.cpu.register 1 = c.cpu.register x / 10 % 10 := hdigit 1 (by decide)
  have htwo : second.cpu.register 2 = c.cpu.register x % 10 := hdigit 2 (by decide)
  have hsmall : ∀ r : Register, r.val ≤ 2 → (second.cpu.register r).toNat ≤ 9 := by
    intro r hr
    have hcases : r.val = 0 ∨ r.val = 1 ∨ r.val = 2 := by omega
    rcases hcases with h | h | h
    · rwa [show r = 0 from Fin.ext h, hzero]
    · rwa [show r = 1 from Fin.ext h, hone]
    · rwa [show r = 2 from Fin.ext h, htwo]
  refine ⟨second, log', hstep', hsmall, ?_, hhigh, ?_, hindex, ?_⟩
  · rw [hzero, hone, htwo, hvalue]
  · intro j hj
    rw [hmemory]
    exact hothers j hj
  · intro y hy pc last digit hglyph
    exact step_glyph hready'' hglyph (hsmall y hy)

/-- 254 in V1, by way of the last three cells of memory, and the picture of its second digit. -/
theorem decimal_survives_memory_aliased :
    ∃ c first second third : Computer, ∃ log log' log'',
      c.cpu.awaiting = none ∧ c.fetch = Word.ofNibbles 0xF 1 3 3 ∧
      c.cpu.register 1 = 254 ∧ c.cpu.index = 0xFFFD ∧
      c.step = .ok (.executed (.decimal 1), first, log) ∧
      first.fetch = Word.ofNibbles 0xF 2 6 5 ∧
      first.step = .ok (.executed (.restore 2), second, log') ∧
      100 * (second.cpu.register 0).toNat + 10 * (second.cpu.register 1).toNat +
        (second.cpu.register 2).toNat = 254 ∧
      second.cpu.index.toNat = 0 ∧ second.fetch = Word.ofNibbles 0xF 1 2 9 ∧
      second.step = .ok (.executed (.glyph 1), third, log'') ∧
      third.memory.readRange third.cpu.index 5 = [0xF0, 0x80, 0xF0, 0x10, 0xF0] := by
  let cpu := Cpu.initial (.ofSeed 0)
  let c : Computer :=
    { cpu := { cpu with v := cpu.v.write 1 254, index := 0xFFFD }
      memory := Memory.blank.writeRange 0x200 [0xF1, 0x33, 0xF2, 0x65, 0xF1, 0x29]
      screen := Screen.blank
      keypad := .released }
  have hdecimal : c.fetch = Word.ofNibbles 0xF 1 3 3 := by decide +kernel
  obtain ⟨first, log, hstep, hnext⟩ := c.decimal_survives_memory 1 rfl hdecimal
  obtain rfl := step_execute hstep
  have hrestore : (c.pastOpcode.execute (.decimal 1)).fetch = Word.ofNibbles 0xF 2 6 5 := by
    decide +kernel
  obtain ⟨second, log', hstep', -, hvalue, -, -, hindex, hlast⟩ := hnext 0x202 hrestore
  obtain rfl := step_execute hstep'
  let read := ((c.pastOpcode.execute (.decimal 1)).pastOpcode).execute (.restore 2)
  have hglyph : read.fetch = Word.ofNibbles 0xF 1 2 9 := by decide +kernel
  have hfive : read.cpu.register 1 = 5 := by decide +kernel
  obtain ⟨third, log'', hstep'', -, -, hrows⟩ := hlast 1 (by decide) 0x204 hglyph
  obtain rfl := step_execute hstep''
  have hfont : ((read.pastOpcode).execute (.glyph 1)).memory.readRange Memory.fontStart 80 =
      Memory.font := by
    decide +kernel
  have hpicture : Memory.glyph (read.cpu.register 1).toNat = [0xF0, 0x80, 0xF0, 0x10, 0xF0] := by
    rw [hfive]
    decide
  exact ⟨c, _, _, _, log, log', log'', rfl, hdecimal, rfl, rfl, hstep, hrestore, hstep',
    hvalue, hindex.trans (by decide), hglyph, hstep'', (hrows hfont).trans hpicture⟩

end Computer
end ChipEight
