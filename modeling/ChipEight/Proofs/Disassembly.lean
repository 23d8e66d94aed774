import ChipEight.Proofs.AddressSpace
import ChipEight.Proofs.Listing

/-!
# ChipEight.Proofs.Disassembly

The listing of a program and the steps of the machine read the same opcodes.

* `Listing.meaning_eq_unknown_iff` — a line without a mnemonic is one whose opcode is refused.
* `Memory.wordAt_program` — the word in a line is the one at its address, whichever of the addresses
  that name its cells is taken.
* `Machine.Reachable`     — the machines that calls on a new one lead to.
* `Machine.disassembly_agrees` — the line at the pc, the opcode fetched, the next step and its
  record.
* `Machine.after_zeros`   — a run over zeros, which can take the pc past 0xFFF.
-/

namespace ChipEight

/-! ## Lines and decoding -/

namespace Listing

variable {w : Word}

theorem mnemonic_ne_unknown (i : Instruction) : i.mnemonic ≠ "???" := by
  intro h
  have hnone : Instruction.ofMnemonic? "???" = none := by decide +kernel
  rw [← h, Instruction.ofMnemonic?_mnemonic] at hnone
  cases hnone

theorem meaning_of_ok {i : Instruction} (h : Instruction.decode w = .ok i) :
    meaning w = i.mnemonic := by
  simp only [meaning, h]

theorem meaning_of_error {e : Error} (h : Instruction.decode w = .error e) :
    meaning w = "???" := by
  simp only [meaning, h]

theorem meaning_eq_unknown_iff :
    meaning w = "???" ↔ ∃ family, Instruction.decode w = .error (.invalidOpcode w family) := by
  constructor
  · intro h
    cases hdecode : Instruction.decode w with
    | error e => exact ⟨_, congrArg Except.error (Instruction.decode_error hdecode)⟩
    | ok i =>
      rw [meaning_of_ok hdecode] at h
      exact absurd h (mnemonic_ne_unknown i)
  · rintro ⟨family, h⟩
    exact meaning_of_error h

theorem opcodeColumn_programLine {row : Nat} (h : 0x200 + 2 * row < 4096) (w : Word) :
    String.ofList (((programLine row w).toList.drop 5).take 4) = Hex.padded 4 w.toNat := by
  have hopcode : (Hex.padded 4 w.toNat).toList = Hex.fixed 4 w.toNat :=
    Hex.toList_padded (Nat.succ_pos 3) (Hex.fits_word w)
  have hfront : (Hex.fixed 3 (0x200 + 2 * row) ++ [':', ' ']).length = 5 := by
    rw [List.length_append, Hex.length_fixed]
    rfl
  rw [toList_programLine h, List.append_assoc, List.append_assoc, List.drop_left' hfront,
    List.take_left' (Hex.length_fixed 4 _), ← hopcode, String.ofList_toList]

end Listing

namespace Memory

open Listing

variable (m : Memory)

theorem getD_program {k : Nat} (hk : k < m.romLength) :
    m.program.getD k 0 = m.cellAt (0x200 + k) := by
  rw [program, readRange_eq_cellAt, List.getD_eq_getElem?_getD, List.getElem?_map,
    List.getElem?_range hk]
  rfl

/-- The word in a line of the listing, at any address that names its cells. -/
theorem wordAt_program {a : Word} {j : Nat} (ha : a.toNat % 4096 = 0x200 + 2 * j)
    (hj : 2 * j + 1 < m.romLength) : wordAt m.program j = m.readWord a := by
  have hhigh : m.program.getD (2 * j) 0 = m.read a := by
    rw [m.getD_program (by omega), read_eq_cellAt]
    apply m.cellAt_congr
    omega
  have hlow : m.program.getD (2 * j + 1) 0 = m.read (a + 1) := by
    have hone : (1 : Word).toNat = 1 := rfl
    rw [m.getD_program hj, read_eq_cellAt]
    apply m.cellAt_congr
    rw [BitVec.toNat_add, hone]
    omega
  rw [wordAt, readWord, hhigh, hlow]

theorem read_zeros_of_slice {start length : Nat} (hfits : start + length ≤ 4096)
    {a : Word} (ha : a.toNat % 4096 = start)
    (h : (m.cells.toList.drop start).take length = List.replicate length 0) :
    ∀ k < length, m.read (a + BitVec.ofNat 16 k) = 0 := by
  have hcongruent : Word.Congruent a (BitVec.ofNat 16 start) := by
    rw [Word.Congruent, BitVec.toNat_ofNat]
    omega
  rw [← m.readRange_eq_slice hfits, ← m.readRange_congr hcongruent] at h
  intro k hk
  have hmem : m.read (a + BitVec.ofNat 16 k) ∈ m.readRange a length :=
    List.mem_map_of_mem (List.mem_range.mpr hk)
  exact List.eq_of_mem_replicate (h ▸ hmem)

end Memory

/-! ## The next step -/

namespace Machine

open Listing

def Reachable (m : Machine) : Prop :=
  ∃ config entropy calls, (create config entropy).after calls = m

theorem Reachable.wellFormed {m : Machine} (hm : m.Reachable) : m.WellFormed := by
  obtain ⟨config, entropy, calls, rfl⟩ := hm
  exact after_wellFormed (create_wellFormed config entropy) calls

variable {m : Machine}

/-- A step that looks at its opcode fails as decoding it does. -/
theorem perform_step_error_iff (hready : m.ready = true) (hidle : m.computer.cpu.awaiting = none)
    {e : Error} :
    (m.perform .step).value = .error e ↔ Instruction.decode m.computer.fetch = .error e := by
  cases hdecode : Instruction.decode m.computer.fetch with
  | error e' =>
    rw [m.perform_step_error hready (m.computer.step_invalid hidle hdecode)]
    simp only [Except.error.injEq]
  | ok i =>
    rw [m.perform_step_ok hready (m.computer.step_executed hidle hdecode)]
    simp only [reduceCtorEq]

theorem perform_step_executed (hm : m.WellFormed) (hready : m.ready = true)
    (hidle : m.computer.cpu.awaiting = none) {i : Instruction}
    (h : Instruction.decode m.computer.fetch = .ok i) :
    (m.perform .step).value = .ok (.step (.executed i)) ∧
      (m.perform .step).log.filter (·.isExecuting) = [m.execution i] := by
  have hvalue : (m.perform .step).value = .ok (.step (.executed i)) := by
    rw [m.perform_step_ok hready (m.computer.step_executed hidle h)]
  have hlog : m.log [.step] = (m.perform .step).log := List.append_nil _
  refine ⟨hvalue, ?_⟩
  rw [← hlog, executing_log hm, executions, hvalue]
  rfl

/-- Where the pc is at a word of the program, the line of the listing with its address shows the
opcode that is fetched. If the line has no mnemonic, and only then, the next step refuses that
opcode; otherwise it executes an instruction whose mnemonic is the one in the line, and its record,
the only one that tells of an instruction, repeats the four digits of the line and its mnemonic. The
program is what is in memory at the time, and the pc may be past 0xFFF. -/
theorem disassembly_agrees (hm : m.Reachable) (hready : m.ready = true)
    (hidle : m.computer.cpu.awaiting = none) {j : Nat}
    (hpc : m.computer.cpu.pc.toNat % 4096 = 0x200 + 2 * j)
    (hinside : 2 * j + 1 < m.computer.memory.romLength) :
    ∃ line shown,
      (lines m.programListing)[j]? = some line ∧ programLine? line = some shown ∧
      shown.address = 0x200 + 2 * j ∧
      (m.perform .fetch).value = .ok (.opcode shown.opcode) ∧
      ((∃ family, (m.perform .step).value = .error (.invalidOpcode shown.opcode family)) ↔
        shown.text = "???") ∧
      (shown.text ≠ "???" →
        ∃ i, (m.perform .step).value = .ok (.step (.executed i)) ∧ i.mnemonic = shown.text ∧
          ∃ record,
            (m.perform .step).log.filter (·.isExecuting) = [record] ∧ record.level = .trace ∧
            record.text =
              Hex.padded 3 m.computer.cpu.pc.toNat ++ ": " ++
                String.ofList ((line.drop 5).take 4) ++ " " ++ padRight 16 shown.text ++ " v[" ++
                ", ".intercalate (m.computer.cpu.v.toList.map fun b => Hex.padded 2 b.toNat) ++
                "] i" ++ Hex.padded 4 m.computer.cpu.index.toNat ++ " sp" ++
                toString m.computer.cpu.sp.toNat) := by
  have hfits : m.computer.memory.romLength ≤ Memory.capacity := hm.wellFormed.romLength_le
  have hcount : j < (m.computer.memory.program.length + 1) / 2 := by
    rw [Memory.length_program]
    omega
  have hrow := Memory.row_lt hfits 2 Nat.two_pos hcount
  -- The line is made from bytes of the program, the fetch reads at the pc: they are the same cells.
  have hword : wordAt m.computer.memory.program j = m.computer.fetch :=
    m.computer.memory.wordAt_program hpc hinside
  have hline : (lines m.programListing)[j]? =
      some (programLine j m.computer.fetch).toList := by
    rw [programListing, Memory.lines_programListing hfits, List.getElem?_map,
      List.getElem?_range hcount, Option.map_some, hword]
  have hfetch : (m.perform .fetch).value = .ok (.opcode m.computer.fetch) := by
    rw [m.perform_fetch, if_pos hready]
  refine ⟨_, _, hline, programLine?_programLine hrow _, rfl, hfetch, ?_, ?_⟩
  · simp only [perform_step_error_iff hready hidle, meaning_eq_unknown_iff]
  · intro hknown
    cases hdecode : Instruction.decode m.computer.fetch with
    | error e => exact absurd (meaning_of_error hdecode) hknown
    | ok i =>
      obtain ⟨hstep, hlog⟩ := perform_step_executed hm.wellFormed hready hidle hdecode
      refine ⟨i, hstep, (meaning_of_ok hdecode).symm, m.execution i, hlog, rfl, ?_⟩
      rw [opcodeColumn_programLine hrow, meaning_of_ok hdecode]
      rfl

/-! ## Past 0xFFF -/

/-- A zero word is a routine in machine code, which is passed over. -/
theorem perform_step_zero (hready : m.ready = true) (hidle : m.computer.cpu.awaiting = none)
    (hhost : m.config.stepsPerTick = none) (h : m.computer.fetch = 0) :
    (m.perform .step).machine = { m with computer := m.computer.pastOpcode } := by
  have hdecode : Instruction.decode m.computer.fetch = .ok (.sys 0) := by
    rw [h]
    rfl
  have hcount := countStep_host { m with computer := (m.computer.advance (.sys 0)).1 } hhost
  rw [m.perform_step_ok hready (m.computer.step_executed hidle hdecode)]
  exact congrArg Prod.fst hcount

/-- A run over zeros moves the pc and nothing else. -/
theorem after_zeros (hready : m.ready = true) (hidle : m.computer.cpu.awaiting = none)
    (hhost : m.config.stepsPerTick = none) (count : Nat)
    (h : ∀ k < 2 * count, m.computer.memory.read (m.computer.cpu.pc + BitVec.ofNat 16 k) = 0) :
    m.after (List.replicate count .step) =
      { m with
        computer :=
          { m.computer with
            cpu :=
              { m.computer.cpu with
                pc := m.computer.cpu.pc + BitVec.ofNat 16 (2 * count) } } } := by
  -- Each step leaves a machine of the same kind, two bytes on, with fewer zeros ahead.
  induction count generalizing m with
  | zero =>
    have hpc : m.computer.cpu.pc + BitVec.ofNat 16 (2 * 0) = m.computer.cpu.pc :=
      BitVec.add_zero _
    rw [hpc]
    rfl
  | succ count ih =>
    have hpast : ∀ k, m.computer.cpu.pc + 2 + BitVec.ofNat 16 k =
        m.computer.cpu.pc + BitVec.ofNat 16 (k + 2) := by
      intro k
      rw [BitVec.add_assoc, Nat.add_comm, BitVec.ofNat_add]
      rfl
    have hfetch : m.computer.fetch = 0 := by
      have hhigh : m.computer.memory.read m.computer.cpu.pc = 0 :=
        BitVec.add_zero m.computer.cpu.pc ▸ h 0 (by omega)
      have hlow : m.computer.memory.read (m.computer.cpu.pc + 1) = 0 := h 1 (by omega)
      rw [Computer.fetch, Memory.readWord, hhigh, hlow]
      rfl
    have hrest : ∀ k < 2 * count,
        m.computer.memory.read (m.computer.cpu.pc + 2 + BitVec.ofNat 16 k) = 0 := by
      intro k hk
      rw [hpast]
      exact h (k + 2) (by omega)
    have hlater := @ih { m with computer := m.computer.pastOpcode } hready hidle hhost hrest
    show (m.perform .step).machine.after (List.replicate count .step) = _
    rw [perform_step_zero hready hidle hhost hfetch, hlater]
    simp only [Computer.pastOpcode, Computer.withCpu, hpast]
    rfl

/-- A machine that has written over the first word of its program and then jumped behind the end of
memory, where it finds zeros between the font and the program. -/
theorem exists_jumped :
    ∃ m : Machine,
      m.Reachable ∧ m.config.stepsPerTick = none ∧
      (m.ready = true ∧ m.computer.cpu.awaiting = none ∧ m.computer.cpu.pc = 0x10FE ∧
        m.computer.memory.romLength = 10 ∧ m.computer.memory.readWord 0x200 = 0x1212) ∧
      ∀ k < 258, m.computer.memory.read (0x10FE + BitVec.ofNat 16 k) = 0 := by
  let rom : List Byte := [0x60, 0x12, 0xA2, 0x00, 0xF0, 0x55, 0x60, 0xFF, 0xBF, 0xFF]
  let history : List Call := [.makeReady, .load rom, .step, .step, .step, .step, .step]
  refine ⟨(create { seed := some 0 } (.ofSeed 0)).after history, ⟨_, _, _, rfl⟩, ?_, ?_, ?_⟩
  · rw [after_config]
    rfl
  · decide +kernel
  · have hfits : 0xFE + 258 ≤ 4096 := by decide
    apply Memory.read_zeros_of_slice _ hfits rfl
    decide +kernel

/-- Two passes through this program, the second one past 0xFFF. -/
theorem disassembly_agrees_rewritten :
    ∃ m : Machine,
      m.Reachable ∧ m.ready = true ∧ m.computer.cpu.awaiting = none ∧
      m.computer.cpu.pc = 0x1200 ∧ m.computer.memory.romLength = 10 ∧
      m.computer.fetch = 0x1212 ∧
      ∃ line shown,
        (lines m.programListing)[0]? = some line ∧ programLine? line = some shown ∧
        shown.address = 0x200 ∧ (m.perform .fetch).value = .ok (.opcode shown.opcode) ∧
        ((∃ family, (m.perform .step).value = .error (.invalidOpcode shown.opcode family)) ↔
          shown.text = "???") := by
  obtain ⟨jumped, ⟨config, entropy, history, hreached⟩, hhost,
    ⟨hready, hidle, hpc, hlength, hword⟩, hzeros⟩ := exists_jumped
  have hrun := after_zeros hready hidle hhost 129 (by rwa [hpc])
  have hm : (jumped.after (List.replicate 129 .step)).Reachable :=
    ⟨config, entropy, history ++ List.replicate 129 .step, by rw [after_append, hreached]⟩
  rw [hrun, hpc] at hm
  have hmod : (0x10FE + BitVec.ofNat 16 (2 * 129) : Word).toNat % 4096 = 0x200 + 2 * 0 := rfl
  obtain ⟨line, shown, hline, hshown, haddress, hfetch, hstep, -⟩ :=
    disassembly_agrees hm hready hidle (j := 0) hmod (by
      show 1 < jumped.computer.memory.romLength
      omega)
  have hcongruent : Word.Congruent (0x10FE + BitVec.ofNat 16 (2 * 129)) 0x200 := hmod
  refine ⟨_, hm, hready, hidle, rfl, hlength, ?_, line, shown, hline, hshown, haddress, hfetch,
    hstep⟩
  rw [Computer.fetch, Memory.readWord_congr _ hcongruent, hword]

end Machine
end ChipEight
