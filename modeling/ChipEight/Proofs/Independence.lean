import ChipEight.Proofs.Footprint

/-!
# ChipEight.Proofs.Independence

Calls that have nothing to do with each other may be made in either order.

* `Machine.Interchange` — two calls give the same answers, the same machine, the same beeps and the
  same records in either order.
* `countStep_tick`      — a tick may be moved past the counting of a step, also where that ticks.
* `interchange_tick_step`, `interchange_setKey_step`, `interchange_takeFrame_step` — ticks, keys and
  frames against steps.
* `independent_calls_commute` — these and the pairs without a step.
-/

namespace ChipEight

/-- A key for an instruction that waits for one and a tick have no part of a processor in common. -/
theorem Cpu.receiveKey_tick (c : Cpu) (key : Byte) :
    c.tick.1.receiveKey key = ((c.receiveKey key).1.tick.1, (c.receiveKey key).2) ∧
      (c.receiveKey key).1.tick.2 = c.tick.2 := by
  obtain ⟨v, index, pc, sp, stack, delay, sound, awaiting, random⟩ := c
  cases awaiting <;> exact ⟨rfl, rfl⟩

namespace Machine

/-- Two calls that may change places. Each gives the same answer first or second, the machine and
the beeps are the same after both, and so are the records, up to their order. -/
structure Interchange (m : Machine) (a b : Call) : Prop where
  first : ((m.perform b).machine.perform a).value = (m.perform a).value
  second : ((m.perform a).machine.perform b).value = (m.perform b).value
  machine : ((m.perform a).machine.perform b).machine = ((m.perform b).machine.perform a).machine
  beeps : (m.perform a).beeps ++ ((m.perform a).machine.perform b).beeps =
    (m.perform b).beeps ++ ((m.perform b).machine.perform a).beeps
  log : ((m.perform a).log ++ ((m.perform a).machine.perform b).log).Perm
    ((m.perform b).log ++ ((m.perform b).machine.perform a).log)

variable (m : Machine)

/-! ## Ticks and steps -/

/-- Of two ticks in a row only the first can beep, so it does not matter which of them was due. -/
theorem countStep_tick :
    m.tickTimers.1.countStep.1 = m.countStep.1.tickTimers.1 ∧
      m.tickTimers.2.1 ++ m.tickTimers.1.countStep.2.1 =
        m.countStep.2.1 ++ m.countStep.1.tickTimers.2.1 ∧
      m.tickTimers.2.2 ++ m.tickTimers.1.countStep.2.2 =
        m.countStep.2.2 ++ m.countStep.1.tickTimers.2.2 := by
  cases hn : m.config.stepsPerTick with
  | none =>
    rw [m.countStep_host hn, m.tickTimers.1.countStep_host hn]
    exact ⟨rfl, List.append_nil _, List.append_nil _⟩
  | some n =>
    by_cases hle : n ≤ m.sinceTick + 1
    · rw [m.countStep_due hn hle, m.tickTimers.1.countStep_due hn hle]
      exact ⟨rfl, rfl, rfl⟩
    · rw [m.countStep_early hn hle, m.tickTimers.1.countStep_early hn hle]
      exact ⟨rfl, List.append_nil _, List.append_nil _⟩

variable {m}

theorem interchange_tick_step
    (h : ∀ i, (m.perform .step).value = .ok (.step (.executed i)) → i.usesTimers = false) :
    m.Interchange .tick .step := by
  by_cases hr : m.ready = true
  · have hdecoded := m.of_executed hr h
    have htick := m.perform_tick_ok hr
    have hmoved := m.computer.step_tick hdecoded
    cases hs : m.computer.step with
    | error e =>
      rw [hs] at hmoved
      have hstep := m.perform_step_error hr hs
      have hstep' := m.tickTimers.1.perform_step_error hr hmoved
      constructor <;> simp [htick, hstep, hstep']
    | ok r =>
      obtain ⟨s, computer, log⟩ := r
      rw [hs] at hmoved
      let k : Machine := { m with computer }
      have hbeep : m.tickTimers.2 = k.tickTimers.2 :=
        congrArg (fun beep => (beep.toList, beep.toList.map Record.beep))
          (m.computer.step_beep hdecoded hs).symm
      have hstep := m.perform_step_ok hr hs
      have hstep' := m.tickTimers.1.perform_step_ok hr hmoved
      have htick' := k.countStep.1.perform_tick_ok (k.countStep_ready.trans hr)
      obtain ⟨hmachine, hbeeps, hlog⟩ := k.countStep_tick
      constructor
      · simp only [htick, hstep, htick', k]
      · simp only [htick, hstep, hstep']
      · simp only [htick, hstep, hstep', htick', k]
        exact hmachine
      · simp only [htick, hstep, hstep', htick', k, hbeep]
        exact hbeeps
      · simp only [htick, hstep, hstep', htick', k, hbeep]
        rw [List.append_assoc, ← hlog]
        exact List.perm_append_comm_assoc _ _ _
  · have hstep := m.perform_step_notReady hr
    have htick := m.perform_tick_notReady hr
    constructor <;> simp [hstep, htick]

/-! ## Keys, frames and steps -/

/-- A call that makes the same change to the computer before a step and after it, without a beep,
where the change may be moved past the computer's own step and past a tick. -/
theorem interchange_step_of_map {call : Call} {f : Computer → Computer}
    {value : Except Error Answer} {log : List Record}
    (hbefore : m.perform call = { value, machine := { m with computer := f m.computer }, log })
    (hafter : (m.perform .step).machine.perform call =
      { value
        machine :=
          { (m.perform .step).machine with computer := f (m.perform .step).machine.computer }
        log })
    (hstep : m.ready = true →
      (f m.computer).step = m.computer.step.map fun (s, c, log) => (s, f c, log))
    (htick : ∀ c, (f c).withCpu (·.tick.1) = f (c.withCpu (·.tick.1)))
    (hbeep : ∀ c, (f c).cpu.tick.2 = c.cpu.tick.2) : m.Interchange call .step := by
  let moved : Machine := { m with computer := f m.computer }
  by_cases hr : m.ready = true
  · have hmoved := hstep hr
    cases hs : m.computer.step with
    | error e =>
      rw [hs] at hmoved
      have hfirst := m.perform_step_error hr hs
      have hsecond := moved.perform_step_error hr hmoved
      constructor <;> simp [hbefore, hfirst, moved, hsecond]
    | ok r =>
      obtain ⟨s, computer, log'⟩ := r
      rw [hs] at hmoved
      have hfirst := m.perform_step_ok hr hs
      have hsecond := moved.perform_step_ok hr hmoved
      have hcounted := countStep_map { m with computer } htick hbeep
      simp only [moved, hcounted] at hsecond
      constructor
      · rw [hafter, hbefore]
      · simp only [hbefore, hfirst, hsecond]
      · rw [hafter, hbefore]
        simp only [hfirst, hsecond]
      · rw [hafter, hbefore]
        simp only [hfirst, hsecond, List.nil_append, List.append_nil]
      · rw [hafter, hbefore]
        simp only [hfirst, hsecond]
        exact List.perm_append_comm
  · have hfirst := m.perform_step_notReady hr
    have hsecond := moved.perform_step_notReady hr
    constructor <;> simp [hbefore, hfirst, moved, hsecond]

theorem interchange_setKey_step {key : Byte} {down : Bool}
    (h : ∀ i, (m.perform .step).value = .ok (.step (.executed i)) → i.usesKeys = false)
    (hpress : ∀ k, (m.perform (.setKey key down)).value = .ok (.edge (some (.pressed k))) →
      m.computer.cpu.awaiting = none) :
    m.Interchange (.setKey key down) .step := by
  have hkeypad := m.step_keeps_keypad
  cases hset : m.computer.keypad.set key down with
  | error e =>
    have hset' : (m.perform .step).machine.computer.keypad.set key down = .error e := by
      rw [hkeypad, hset]
    refine interchange_step_of_map (f := id) (m.perform_setKey_error hset)
      (perform_setKey_error _ hset') (fun _ => ?_) (fun _ => rfl) fun _ => rfl
    show m.computer.step = _
    cases m.computer.step <;> rfl
  | ok r =>
    obtain ⟨keypad, edge⟩ := r
    have hset' : (m.perform .step).machine.computer.keypad.set key down = .ok (keypad, edge) := by
      rw [hkeypad, hset]
    have hidle : ∀ k, edge = some (.pressed k) → m.computer.cpu.awaiting = none := by
      rintro k rfl
      apply hpress k
      simp only [perform_setKey, hset]
    have hidle' : ∀ k, edge = some (.pressed k) →
        (m.perform .step).machine.computer.cpu.awaiting = none := by
      intro k hk
      refine m.step_keeps_awaiting (hidle k hk) fun x hx => ?_
      cases h _ hx
    exact interchange_step_of_map (f := fun c => { c with keypad })
      (m.perform_setKey_idle hset hidle) (perform_setKey_idle _ hset' hidle')
      (fun hr => m.computer.step_keypad (m.of_executed hr h) keypad) (fun _ => rfl) fun _ => rfl

theorem interchange_takeFrame_step
    (h : ∀ i, (m.perform .step).value = .ok (.step (.executed i)) → i.usesScreen = false) :
    m.Interchange .takeFrame .step := by
  have hscreen := m.step_keeps_screen h
  refine interchange_step_of_map (f := fun c => { c with screen := m.computer.screen.take.1 })
    m.perform_takeFrame ?_ (fun hr => m.computer.step_screen (m.of_executed hr h) _)
    (fun _ => rfl) fun _ => rfl
  rw [← hscreen]
  rfl

/-! ## Ticks, keys and frames -/

theorem interchange_takeFrame_tick : m.Interchange .takeFrame .tick := by
  let framed := (m.perform .takeFrame).machine
  have hframe : m.perform .takeFrame =
      { value := .ok (.frame m.computer.screen.take.2), machine := framed } := rfl
  by_cases hr : m.ready = true
  · have htick := m.perform_tick_ok hr
    have htick' := framed.perform_tick_ok hr
    have hframe' := m.tickTimers.1.perform_takeFrame
    have hbeeps : framed.tickTimers.2 = m.tickTimers.2 := rfl
    constructor <;>
      simp only [hframe, htick, htick', hframe', hbeeps, List.nil_append, List.append_nil] <;>
      rfl
  · have htick := m.perform_tick_notReady hr
    have htick' := framed.perform_tick_notReady hr
    constructor <;> simp [hframe, htick, htick']

theorem interchange_takeFrame_setKey (key : Byte) (down : Bool) :
    m.Interchange .takeFrame (.setKey key down) := by
  let framed := (m.perform .takeFrame).machine
  have hframe : m.perform .takeFrame =
      { value := .ok (.frame m.computer.screen.take.2), machine := framed } := rfl
  cases hset : m.computer.keypad.set key down with
  | error e =>
    have hkey := m.perform_setKey_error hset
    have hkey' := framed.perform_setKey_error hset
    constructor <;> simp [hframe, hkey, hkey']
  | ok r =>
    obtain ⟨keypad, edge⟩ := r
    have hkey := m.perform_setKey_ok hset
    have hkey' := framed.perform_setKey_ok hset
    constructor <;>
      simp only [hframe, hkey, hkey', perform_takeFrame, List.nil_append, List.append_nil] <;>
      rfl

theorem keyEdgeCpu_tick (cpu : Cpu) (key : Byte) (edge : Option KeyEdge) :
    keyEdgeCpu cpu.tick.1 key edge =
        ((keyEdgeCpu cpu key edge).1.tick.1, (keyEdgeCpu cpu key edge).2) ∧
      (keyEdgeCpu cpu key edge).1.tick.2 = cpu.tick.2 := by
  rcases edge with _ | k | k
  · exact ⟨rfl, rfl⟩
  · exact cpu.receiveKey_tick key
  · exact ⟨rfl, rfl⟩

theorem interchange_tick_setKey (key : Byte) (down : Bool) :
    m.Interchange .tick (.setKey key down) := by
  by_cases hr : m.ready = true
  · have htick := m.perform_tick_ok hr
    cases hset : m.computer.keypad.set key down with
    | error e =>
      have hkey := m.perform_setKey_error hset
      have hkey' := m.tickTimers.1.perform_setKey_error hset
      constructor <;> simp [htick, hkey, hkey']
    | ok r =>
      obtain ⟨keypad, edge⟩ := r
      let moved : Machine :=
        { m with
          computer := { m.computer with cpu := (keyEdgeCpu m.computer.cpu key edge).1, keypad } }
      obtain ⟨hcpu, hbeep⟩ := keyEdgeCpu_tick m.computer.cpu key edge
      have hbeeps : moved.tickTimers.2 = m.tickTimers.2 :=
        congrArg (fun beep => (beep.toList, beep.toList.map Record.beep)) hbeep
      have hticked : m.tickTimers.1.computer.cpu = m.computer.cpu.tick.1 := rfl
      have hkey := m.perform_setKey_ok hset
      have hkey' := m.tickTimers.1.perform_setKey_ok hset
      have htick' := moved.perform_tick_ok hr
      rw [hticked, hcpu] at hkey'
      constructor
      · simp only [htick, hkey, htick', moved]
      · simp only [htick, hkey, hkey']
      · simp only [htick, hkey, hkey', htick', moved]
        rfl
      · simp only [htick, hkey, hkey', htick', moved, List.append_nil, List.nil_append]
        exact (congrArg Prod.fst hbeeps).symm
      · simp only [htick, hkey, hkey', htick', moved]
        rw [← congrArg Prod.snd hbeeps]
        exact List.perm_append_comm
  · let moved := (m.perform (.setKey key down)).machine
    have hready : moved.ready = m.ready := m.perform_keeps_ready rfl
    have htick := m.perform_tick_notReady hr
    have htick' := moved.perform_tick_notReady (hready ▸ hr)
    constructor <;> simp [htick, htick', moved]

/-- In every state and with either timing, these pairs of calls may change places: a tick and a step
that has nothing to do with the timers; a key and a step that has nothing to do with keys, where the
key does not end a wait; a frame and a step that has nothing to do with the screen; and any two of a
tick, a key and a frame. The step may also wait, or fail. -/
theorem independent_calls_commute (m : Machine) :
    ((∀ i, (m.perform .step).value = .ok (.step (.executed i)) → i.usesTimers = false) →
      m.Interchange .tick .step) ∧
    (∀ key down,
      (∀ i, (m.perform .step).value = .ok (.step (.executed i)) → i.usesKeys = false) →
      (∀ k, (m.perform (.setKey key down)).value = .ok (.edge (some (.pressed k))) →
        m.computer.cpu.awaiting = none) →
      m.Interchange (.setKey key down) .step) ∧
    ((∀ i, (m.perform .step).value = .ok (.step (.executed i)) → i.usesScreen = false) →
      m.Interchange .takeFrame .step) ∧
    (∀ key down, m.Interchange .tick (.setKey key down)) ∧
    m.Interchange .takeFrame .tick ∧
    ∀ key down, m.Interchange .takeFrame (.setKey key down) :=
  ⟨interchange_tick_step, fun _ _ => interchange_setKey_step, interchange_takeFrame_step,
    interchange_tick_setKey, interchange_takeFrame_tick, interchange_takeFrame_setKey⟩

/-- A beep is pending and the machine's own tick is due: the tick of the host takes the beep if it
comes first, and the step takes it otherwise. -/
theorem independent_calls_commute_due :
    ∃ m : Machine,
      (m.perform .step).value = .ok (.step (.executed (.setByte 1 7))) ∧
      (m.perform .tick).beeps = [5] ∧ (m.perform .step).beeps = [5] ∧
      m.Interchange .tick .step ∧
      m.Interchange (.setKey 7 true) .step ∧
      m.Interchange .takeFrame .step := by
  let m := (create { timing := .perStep 3, seed := some 0 } (.ofSeed 0)).after
    [.makeReady, .load [0x60, 0x05, 0xF0, 0x18, 0x61, 0x07], .step, .step]
  have hstep : (m.perform .step).value = .ok (.step (.executed (.setByte 1 7))) :=
    ok_of_toOption (by decide +kernel)
  have hexecuted : ∀ i, (m.perform .step).value = .ok (.step (.executed i)) → i = .setByte 1 7 := by
    intro i hi
    rw [hstep] at hi
    cases hi
    rfl
  obtain ⟨htick, hkey, hframe, -⟩ := independent_calls_commute m
  refine ⟨m, hstep, by decide +kernel, by decide +kernel, htick ?_, hkey 7 true ?_ ?_, hframe ?_⟩
  · rintro i hi
    rw [hexecuted i hi]
    rfl
  · rintro i hi
    rw [hexecuted i hi]
    rfl
  · intro k _
    decide +kernel
  · rintro i hi
    rw [hexecuted i hi]
    rfl

end Machine
end ChipEight
