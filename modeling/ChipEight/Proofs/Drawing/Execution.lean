import ChipEight.Proofs.Decoding
import ChipEight.Proofs.Drawing.Order
import ChipEight.Proofs.Execution

/-!
# ChipEight.Proofs.Drawing.Execution

DXYN, from the opcode to the pixels.

* `Computer.spriteRows` — the bytes that it draws, from the index on and round the end of memory.
* `Computer.drawn`, `step_draw` — all that it changes: the screen, VF and the pc.
* `blitted_again` — a second time it draws the same rows at the same place.
* `drawing_executed` — the pixels and the flag, and what is left when it is executed once more.
-/

namespace ChipEight
namespace Computer

variable (c : Computer)

def spriteRows (n : Nat) : List Byte :=
  (List.range n).map fun r => c.memory.cellAt (c.cpu.index.toNat + r)

def blitted (x y : Register) (n : Nat) : Screen × Bool :=
  c.screen.draw (c.spriteRows n) (c.cpu.register x) (c.cpu.register y)

/-- The computer when DXYN was executed: the screen, VF and the pc are new. -/
def drawn (x y : Register) (n : Nat) : Computer :=
  { c with
    screen := (c.blitted x y n).1
    cpu :=
      { c.cpu with
        pc := c.cpu.pc + 2
        v := c.cpu.v.write 0xF (Cpu.flag (c.blitted x y n).2) } }

theorem register_drawn (x y r : Register) (n : Nat) :
    (c.drawn x y n).cpu.register r =
      if 0xF = r then Cpu.flag (c.blitted x y n).2 else c.cpu.register r :=
  c.cpu.v.read_write 0xF r _

theorem flag_drawn (x y : Register) (n : Nat) :
    (c.drawn x y n).cpu.register 0xF = Cpu.flag (c.blitted x y n).2 := by
  rw [register_drawn, if_pos rfl]

variable {x y : Register} {n : Fin 16}

theorem step_draw (hready : c.cpu.awaiting = none) (hop : c.fetch = Word.ofNibbles 0xD x y n) :
    ∃ log, c.step = .ok (.executed (.draw x y n), c.drawn x y n, log) := by
  have hencode : (Instruction.draw x y n).encode = Word.ofNibbles 0xD x y n :=
    congrArg (Word.ofNibbles 0xD x y) (nibble_val n)
  have hdrawn : c.pastOpcode.execute (.draw x y n) = c.drawn x y n := by
    rw [drawn, blitted, spriteRows, ← Memory.readRange_eq_cellAt]
    rfl
  rw [← hencode] at hop
  rw [← hdrawn]
  exact c.step_of_encode hready hop nofun nofun

/-- The same drawing over again, after the pc went anywhere. -/
theorem blitted_again (hx : x ≠ 0xF) (hy : y ≠ 0xF) (n : Nat) (pc : Word) :
    ((c.drawn x y n).withCpu ({ · with pc })).blitted x y n =
      (c.blitted x y n).1.draw (c.spriteRows n) (c.cpu.register x) (c.cpu.register y) := by
  have hkeeps : ∀ r, r ≠ 0xF → (c.drawn x y n).cpu.register r = c.cpu.register r := by
    intro r hr
    rw [register_drawn, if_neg (Ne.symm hr)]
  rw [← hkeeps x hx, ← hkeeps y hy]
  rfl

/-- A step on DXYN. The N rows that lie from the index on, round the end of memory, flip pixels from
the place that VX and VY named before the step, round the edges of the screen; VF tells whether a
pixel that was lit is dark now, and nothing else is changed but the pc. Unless VX or VY is VF
itself, another step on the same DXYN, wherever in memory, brings every pixel back, and one of the
two raises VF exactly if some row has a set bit. -/
theorem drawing_executed (hready : c.cpu.awaiting = none)
    (hop : c.fetch = Word.ofNibbles 0xD x y n) :
    let hits := Sprite.hits (c.spriteRows n) (c.cpu.register x).toNat (c.cpu.register y).toNat
    ∃ first log, c.step = .ok (.executed (.draw x y n), first, log) ∧
      (∀ a : Pixel, first.screen.picture.lit a.1 a.2 =
        (c.screen.picture.lit a.1 a.2 ^^ decide (hits a % 2 = 1))) ∧
      first.screen.changed = true ∧
      (first.cpu.register 0xF = 0 ∨ first.cpu.register 0xF = 1) ∧
      (first.cpu.register 0xF = 1 ↔
        ∃ a : Pixel, c.screen.picture.lit a.1 a.2 = true ∧
          first.screen.picture.lit a.1 a.2 = false) ∧
      first =
        { c with
          screen := first.screen
          cpu :=
            { c.cpu with
              pc := c.cpu.pc + 2
              v := c.cpu.v.write 0xF (first.cpu.register 0xF) } } ∧
      (x ≠ 0xF → y ≠ 0xF → ∀ pc,
        let again := first.withCpu ({ · with pc })
        again.fetch = Word.ofNibbles 0xD x y n →
          ∃ second log, again.step = .ok (.executed (.draw x y n), second, log) ∧
            second.screen.picture = c.screen.picture ∧
            (first.cpu.register 0xF ||| second.cpu.register 0xF = 1 ↔
              ∃ row ∈ c.spriteRows n, row ≠ 0)) := by
  intro hits
  obtain ⟨log, hstep⟩ := c.step_draw hready hop
  have hflips : Picture.Flips _ c.screen.picture (c.blitted x y n).1.picture (c.blitted x y n).2 :=
    c.screen.draw_flips (c.spriteRows n) (c.cpu.register x) (c.cpu.register y)
  have honce : ∀ a, hits a ≤ 1 := by
    apply Sprite.hits_le_one
    rw [spriteRows, List.length_map, List.length_range]
    omega
  refine ⟨c.drawn x y n, log, hstep, hflips.lit, rfl, ?_, ?_, ?_, ?_⟩
  · rw [flag_drawn]
    exact Cpu.flag_eq_zero_or_one _
  · rw [flag_drawn, Cpu.flag_eq_one_iff]
    exact hflips.erased_iff_of_once honce
  · rw [flag_drawn]
    rfl
  · intro hx hy pc again hfetch
    obtain ⟨log', hagain⟩ := again.step_draw hready hfetch
    obtain ⟨hpicture, hcollision⟩ :=
      c.screen.draw_twice (c.spriteRows n) (c.cpu.register x) (c.cpu.register y)
    have hblitted := c.blitted_again hx hy n pc
    refine ⟨again.drawn x y n, log', hagain, ?_, ?_⟩
    · exact (congrArg (·.1.picture) hblitted).trans hpicture
    · rw [flag_drawn, flag_drawn, hblitted, Cpu.flag_or, Cpu.flag_eq_one_iff, Bool.or_eq_true]
      exact hcollision

/-- Two rows, from the last cell of memory and the first, over the corner of a screen where a pixel
is lit. -/
theorem drawing_executed_corner :
    ∃ c first second : Computer, ∃ log log',
      c.cpu.awaiting = none ∧ c.fetch = Word.ofNibbles 0xD 0 1 2 ∧
      c.spriteRows 2 = [0x81, 0xF0] ∧ c.screen.picture.lit 63 31 = true ∧
      c.step = .ok (.executed (.draw 0 1 2), first, log) ∧
      first.cpu.register 0xF = 1 ∧ first.screen.picture.lit 63 31 = false ∧
      (first.withCpu ({ · with pc := 0x200 })).step =
        .ok (.executed (.draw 0 1 2), second, log') ∧
      second.screen.picture = c.screen.picture := by
  let cpu := Cpu.initial (.ofSeed 0)
  let c : Computer :=
    { cpu := { cpu with v := (cpu.v.write 0 63).write 1 31, index := 0xFFFF }
      memory := (Memory.blank.writeRange 0x200 [0xD0, 0x12]).write 0xFFF 0x81
      screen := (Screen.blank.draw [0xC0] 62 31).1
      keypad := .released }
  have hop : c.fetch = Word.ofNibbles 0xD 0 1 2 := by decide +kernel
  have hrows : c.spriteRows 2 = [0x81, 0xF0] := by decide +kernel
  have hlit : c.screen.picture.lit 63 31 = true := by decide +kernel
  obtain ⟨first, log, hstep, hpixels, -, -, hflag, hfirst, hback⟩ := c.drawing_executed rfl hop
  have hpixel : first.screen.picture.lit 63 31 =
      (true ^^ decide (Sprite.hits [0x81, 0xF0] 63 31 (63, 31) % 2 = 1)) := by
    rw [← hlit, ← hrows]
    exact hpixels (63, 31)
  have hdark : first.screen.picture.lit 63 31 = false := hpixel.trans (by decide)
  have hfetch : (first.withCpu ({ · with pc := 0x200 })).fetch = Word.ofNibbles 0xD 0 1 2 := by
    rw [hfirst]
    exact hop
  obtain ⟨second, log', hagain, hpicture, -⟩ := hback (by decide) (by decide) 0x200 hfetch
  exact ⟨c, first, second, log, log', rfl, hop, hrows, hlit, hstep,
    hflag.mpr ⟨(63, 31), hlit, hdark⟩, hdark, hagain, hpicture⟩

end Computer
end ChipEight
