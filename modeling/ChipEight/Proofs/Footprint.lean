import ChipEight.Proofs.Machine

/-!
# ChipEight.Proofs.Footprint

Which parts of a computer an instruction has to do with. A part that it has nothing to do with may
be changed before it or after it, and it is the same in the end.

* `Instruction.usesTimers`, `usesKeys`, `usesScreen`, `usesRandom` — what has to do with a part, by
  the opcode.
* `Computer.execute_tick`, `execute_keypad`, `execute_screen` — the parts, moved past an
  instruction.
* `Computer.execute_awaiting` — only one instruction starts a wait.
* `Computer.step_tick`, `step_keypad`, `step_screen` — the parts, moved past a step; it may wait or
  fail.
* `Machine.countStep_map` — what may be moved past a tick, moved past the counting of a step.
* `Machine.step_keeps_keypad`, `step_keeps_screen`, `step_keeps_awaiting` — the parts after a step
  of a machine.
-/

namespace ChipEight
namespace Instruction

/-- FX07, FX15 and FX18. -/
def usesTimers : Instruction → Bool
  | .readDelay _ => true
  | .setDelay _ => true
  | .setSound _ => true
  | _ => false

/-- EX9E and EXA1, which look at a key, and FX0A, which waits for one. -/
def usesKeys : Instruction → Bool
  | .skip (.keyDown _) => true
  | .skip (.keyUp _) => true
  | .awaitKey _ => true
  | _ => false

/-- 00E0 and DXYN. -/
def usesScreen : Instruction → Bool
  | .clear => true
  | .draw _ _ _ => true
  | _ => false

/-- CXNN. -/
def usesRandom : Instruction → Bool
  | .random _ _ => true
  | _ => false

end Instruction

namespace Cpu

variable (c : Cpu)

theorem tick_setResult (x : Register) (result : Byte × Option Bool) :
    c.tick.1.setResult x result = (c.setResult x result).tick.1 ∧
      (c.setResult x result).tick.2 = c.tick.2 := by
  obtain ⟨value, f | f⟩ := result <;> exact ⟨rfl, rfl⟩

theorem tick_skip (condition : Bool) :
    c.tick.1.skip condition = (c.skip condition).tick.1 ∧ (c.skip condition).tick.2 = c.tick.2 := by
  cases condition <;> exact ⟨rfl, rfl⟩

end Cpu

namespace Computer

variable (c : Computer) {i : Instruction}

theorem execute_tick (h : i.usesTimers = false) :
    (c.withCpu (·.tick.1)).execute i = (c.execute i).withCpu (·.tick.1) ∧
      (c.execute i).cpu.tick.2 = c.cpu.tick.2 := by
  cases i with
  | readDelay x => cases h
  | setDelay x => cases h
  | setSound x => cases h
  | skip condition =>
    have hholds : condition.holds (c.withCpu (·.tick.1)) = condition.holds c := by
      cases condition <;> rfl
    obtain ⟨hskip, hbeep⟩ := c.cpu.tick_skip (condition.holds c)
    refine ⟨?_, hbeep⟩
    rw [execute, hholds]
    exact congrArg (fun cpu => { c with cpu }) hskip
  | arith op x y =>
    obtain ⟨hresult, hbeep⟩ :=
      c.cpu.tick_setResult x (op.apply (c.cpu.register x) (c.cpu.register y))
    refine ⟨?_, hbeep⟩
    exact congrArg (fun cpu => { c with cpu }) hresult
  | _ => exact ⟨rfl, rfl⟩

theorem execute_keypad (h : i.usesKeys = false) (keypad : Keypad) :
    { c with keypad }.execute i = { c.execute i with keypad } := by
  cases i with
  | awaitKey x => cases h
  | skip condition =>
    cases condition with
    | keyDown x => cases h
    | keyUp x => cases h
    | _ => rfl
  | _ => rfl

theorem keypad_execute (i : Instruction) : (c.execute i).keypad = c.keypad := by
  cases i <;> rfl

theorem execute_screen (h : i.usesScreen = false) (screen : Screen) :
    { c with screen }.execute i = { c.execute i with screen } ∧
      (c.execute i).screen = c.screen := by
  cases i with
  | clear => cases h
  | draw x y rows => cases h
  | skip condition =>
    cases condition <;> exact ⟨rfl, rfl⟩
  | _ => exact ⟨rfl, rfl⟩

theorem execute_awaiting (h : ∀ x, i ≠ .awaitKey x) :
    (c.execute i).cpu.awaiting = c.cpu.awaiting := by
  cases i with
  | awaitKey x => exact absurd rfl (h x)
  | skip condition =>
    show (c.cpu.skip _).awaiting = c.cpu.awaiting
    cases condition.holds c <;> rfl
  | arith op x y =>
    show (c.cpu.setResult x _).awaiting = c.cpu.awaiting
    obtain ⟨value, f | f⟩ := op.apply (c.cpu.register x) (c.cpu.register y) <;> rfl
  | _ => rfl

/-! ## Steps -/

/-- The remarks on an instruction look at the stack pointer and the pc only. -/
theorem remarks_congr {a b : Cpu} (hsp : a.sp = b.sp) (hpc : a.pc = b.pc) (i : Instruction) :
    i.remarks a = i.remarks b := by
  cases i with
  | ret => simp only [Instruction.remarks, hsp, hpc]
  | call target =>
    have hfull : a.isFull = b.isFull := by rw [Cpu.isFull, Cpu.isFull, hsp]
    simp only [Instruction.remarks, hfull, hpc]
  | _ => rfl

/-- What may be moved past the instruction of a step may be moved past the step. It may be another
change behind the step than before it. -/
theorem step_map {f : Computer → Computer} {g : Step → Computer → Computer}
    (hawaiting : (f c).cpu.awaiting = c.cpu.awaiting) (hfetch : (f c).fetch = c.fetch)
    (hwaiting : g .waiting c = f c)
    (hadvance : ∀ i, c.cpu.awaiting = none → Instruction.decode c.fetch = .ok i →
      (f c).advance i = (g (.executed i) (c.advance i).1, (c.advance i).2)) :
    (f c).step = c.step.map fun (s, c', log) => (s, g s c', log) := by
  cases ha : c.cpu.awaiting with
  | some x =>
    rw [c.step_waiting ha, (f c).step_waiting (hawaiting.trans ha), ← hwaiting]
    rfl
  | none =>
    cases hd : Instruction.decode c.fetch with
    | error e =>
      rw [c.step_invalid ha hd, (f c).step_invalid (hawaiting.trans ha) (hfetch ▸ hd)]
      rfl
    | ok i =>
      rw [c.step_executed ha hd, (f c).step_executed (hawaiting.trans ha) (hfetch ▸ hd),
        hadvance i ha hd]
      rfl

theorem step_tick
    (h : ∀ i, c.cpu.awaiting = none → Instruction.decode c.fetch = .ok i → i.usesTimers = false) :
    (c.withCpu (·.tick.1)).step =
      c.step.map fun (s, c', log) => (s, c'.withCpu (·.tick.1), log) := by
  refine step_map c (f := (·.withCpu (·.tick.1))) (g := fun _ => (·.withCpu (·.tick.1)))
    rfl rfl rfl fun i ha hd => ?_
  have hexecute := c.pastOpcode.execute_tick (h i ha hd)
  have hremarks : i.remarks { c.cpu.tick.1 with pc := c.cpu.pc + 2 } =
      i.remarks { c.cpu with pc := c.cpu.pc + 2 } := remarks_congr rfl rfl i
  simp only [advance]
  exact Prod.ext hexecute.1 (congrArg (_ :: ·) hremarks)

theorem step_beep
    (h : ∀ i, c.cpu.awaiting = none → Instruction.decode c.fetch = .ok i → i.usesTimers = false)
    {s : Step} {c' : Computer} {log : List Record} (hs : c.step = .ok (s, c', log)) :
    c'.cpu.tick.2 = c.cpu.tick.2 := by
  obtain ⟨-, rfl⟩ | ⟨i, ha, hd, -, rfl⟩ := c.step_cases hs
  · rfl
  · exact (c.pastOpcode.execute_tick (h i ha hd)).2

theorem step_keypad
    (h : ∀ i, c.cpu.awaiting = none → Instruction.decode c.fetch = .ok i → i.usesKeys = false)
    (keypad : Keypad) :
    { c with keypad }.step = c.step.map fun (s, c', log) => (s, { c' with keypad }, log) := by
  refine step_map c (f := fun c => { c with keypad }) (g := fun _ c => { c with keypad })
    rfl rfl rfl fun i ha hd => ?_
  have hexecute := c.pastOpcode.execute_keypad (h i ha hd)
  exact Prod.ext (hexecute keypad) rfl

theorem step_screen
    (h : ∀ i, c.cpu.awaiting = none → Instruction.decode c.fetch = .ok i → i.usesScreen = false)
    (screen : Screen) :
    { c with screen }.step = c.step.map fun (s, c', log) => (s, { c' with screen }, log) := by
  refine step_map c (f := fun c => { c with screen }) (g := fun _ c => { c with screen })
    rfl rfl rfl fun i ha hd => ?_
  have hexecute := c.pastOpcode.execute_screen (h i ha hd)
  exact Prod.ext (hexecute screen).1 rfl

end Computer

namespace Machine

variable (m : Machine)

theorem countStep_map {f : Computer → Computer}
    (htick : ∀ c, (f c).withCpu (·.tick.1) = f (c.withCpu (·.tick.1)))
    (hbeep : ∀ c, (f c).cpu.tick.2 = c.cpu.tick.2) :
    { m with computer := f m.computer }.countStep =
      ({ m.countStep.1 with computer := f m.countStep.1.computer }, m.countStep.2) := by
  let moved : Machine := { m with computer := f m.computer }
  cases hn : m.config.stepsPerTick with
  | none => rw [m.countStep_host hn, moved.countStep_host hn]
  | some n =>
    by_cases hle : n ≤ m.sinceTick + 1
    · rw [m.countStep_due hn hle, moved.countStep_due hn hle, tickTimers, tickTimers]
      simp only [moved, hbeep]
      exact congrArg (fun computer => ({ m with sinceTick := 0, computer }, _)) (htick m.computer)
    · rw [m.countStep_early hn hle, moved.countStep_early hn hle]

theorem of_executed {P : Instruction → Prop} (hr : m.ready = true)
    (h : ∀ i, (m.perform .step).value = .ok (.step (.executed i)) → P i) (i : Instruction)
    (ha : m.computer.cpu.awaiting = none) (hd : Instruction.decode m.computer.fetch = .ok i) :
    P i := by
  apply h
  rw [m.perform_step_ok hr (m.computer.step_executed ha hd)]

theorem step_keeps_keypad : (m.perform .step).machine.computer.keypad = m.computer.keypad := by
  obtain ⟨e, he⟩ | ⟨s, computer, log, sinceTick, delay, sound, hs, -, hm⟩ := m.perform_step_cases
  · rw [he]
  · rw [hm]
    obtain ⟨-, rfl⟩ | ⟨i, -, -, -, rfl⟩ := m.computer.step_cases hs
    · rfl
    · exact Computer.keypad_execute _ i

theorem step_keeps_screen
    (h : ∀ i, (m.perform .step).value = .ok (.step (.executed i)) → i.usesScreen = false) :
    (m.perform .step).machine.computer.screen = m.computer.screen := by
  obtain ⟨e, he⟩ | ⟨s, computer, log, sinceTick, delay, sound, hs, hv, hm⟩ := m.perform_step_cases
  · rw [he]
  · rw [hm]
    obtain ⟨-, rfl⟩ | ⟨i, -, -, rfl, rfl⟩ := m.computer.step_cases hs
    · rfl
    · exact (Computer.execute_screen _ (h i hv) m.computer.screen).2

/-- Only FX0A starts a wait. -/
theorem step_keeps_awaiting (ha : m.computer.cpu.awaiting = none)
    (h : ∀ x, (m.perform .step).value ≠ .ok (.step (.executed (.awaitKey x)))) :
    (m.perform .step).machine.computer.cpu.awaiting = none := by
  obtain ⟨e, he⟩ | ⟨s, computer, log, sinceTick, delay, sound, hs, hv, hm⟩ := m.perform_step_cases
  · rw [he]
    exact ha
  · rw [hm]
    obtain ⟨-, rfl⟩ | ⟨i, -, -, rfl, rfl⟩ := m.computer.step_cases hs
    · exact ha
    · have hi : ∀ x, i ≠ .awaitKey x := by
        rintro x rfl
        exact h x hv
      exact (Computer.execute_awaiting _ hi).trans ha

end Machine
end ChipEight
