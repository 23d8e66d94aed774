import ChipEight.Machine.Call
import ChipEight.Proofs.Execution
import ChipEight.Proofs.Keypad

/-!
# ChipEight.Proofs.Machine

What a call does, in one equation for each, and what every machine that calls can reach looks like.

* `Machine.perform_makeReady`, `perform_load`, `perform_step`, .. — the equations.
* `Machine.countStep_frame` — counting a step moves the counter and the timers only.
* `Machine.WellFormed`      — the bounds that hold of a new machine, that each call keeps
  (`perform_wellFormed`), and that so hold after every history (`after_wellFormed`).
-/

namespace ChipEight

theorem ok_of_toOption {ε α : Type} {r : Except ε α} {a : α} (h : r.toOption = some a) :
    r = .ok a := by
  cases r with
  | error e => cases h
  | ok b =>
    cases h
    rfl

/-- Whether a call puts the machine back to its start, or tries to. -/
def Call.restarts : Call → Bool
  | .makeReady | .reset | .load _ => true
  | _ => false

namespace Machine

variable (m : Machine)

/-! ## The calls -/

theorem perform_makeReady :
    m.perform .makeReady =
      if m.ready then { value := .error .alreadyReady, machine := m }
      else
        { value := .ok .done
          machine := { m.resetComponents with ready := true }
          log := [.ready m.config] } := by
  unfold perform makeReady
  cases m.ready <;> rfl

theorem perform_load (rom : List Byte) :
    m.perform (.load rom) =
      if m.ready then
        if Memory.capacity < rom.length then
          { value := .error (.romTooLarge rom.length Memory.capacity), machine := m }
        else
          { value := .ok (.size rom.length)
            machine :=
              { m.resetComponents with
                computer :=
                  { m.resetComponents.computer with
                    memory :=
                      { Memory.blank.writeRange Memory.start rom with romLength := rom.length } } }
            log := [.loaded rom.length] }
      else { value := .error .notReady, machine := m } := by
  unfold perform load
  cases m.ready with
  | false => rfl
  | true =>
    have hblank : m.resetComponents.computer.memory = Memory.blank := rfl
    simp only [if_true, hblank, Memory.load]
    by_cases h : Memory.capacity < rom.length
    · rw [if_pos h, if_pos h]
      rfl
    · rw [if_neg h, if_neg h]
      rfl

theorem perform_step :
    m.perform .step =
      if m.ready then
        match m.computer.step with
        | .error e => { value := .error e, machine := m }
        | .ok (s, computer, log) =>
          { value := .ok (.step s)
            machine := { m with computer }.countStep.1
            beeps := { m with computer }.countStep.2.1
            log := log ++ { m with computer }.countStep.2.2 }
      else { value := .error .notReady, machine := m } := by
  unfold perform step
  cases m.ready with
  | false => rfl
  | true =>
    cases m.computer.step with
    | error e => rfl
    | ok r => rfl

theorem perform_step_notReady (hr : ¬ m.ready = true) :
    m.perform .step = { value := .error .notReady, machine := m } := by
  rw [perform_step, if_neg hr]

theorem perform_step_error (hr : m.ready = true) {e : Error} (hs : m.computer.step = .error e) :
    m.perform .step = { value := .error e, machine := m } := by
  rw [perform_step, if_pos hr, hs]

theorem perform_step_ok (hr : m.ready = true) {s : Step} {computer : Computer}
    {log : List Record} (hs : m.computer.step = .ok (s, computer, log)) :
    m.perform .step =
      { value := .ok (.step s)
        machine := { m with computer }.countStep.1
        beeps := { m with computer }.countStep.2.1
        log := log ++ { m with computer }.countStep.2.2 } := by
  rw [perform_step, if_pos hr, hs]

theorem perform_tick :
    m.perform .tick =
      if m.ready then
        { value := .ok .done
          machine := m.tickTimers.1
          beeps := m.tickTimers.2.1
          log := m.tickTimers.2.2 }
      else { value := .error .notReady, machine := m } := by
  unfold perform tick
  cases m.ready <;> rfl

theorem perform_tick_notReady (hr : ¬ m.ready = true) :
    m.perform .tick = { value := .error .notReady, machine := m } := by
  rw [perform_tick, if_neg hr]

theorem perform_tick_ok (hr : m.ready = true) :
    m.perform .tick =
      { value := .ok .done
        machine := m.tickTimers.1
        beeps := m.tickTimers.2.1
        log := m.tickTimers.2.2 } := by
  rw [perform_tick, if_pos hr]

/-- The processor after a key moved: a press edge hands it the key. -/
def keyEdgeCpu (cpu : Cpu) (key : Byte) : Option KeyEdge → Cpu × List Record
  | some (.pressed _) => cpu.receiveKey key
  | _ => (cpu, [])

theorem perform_setKey (key : Byte) (down : Bool) :
    m.perform (.setKey key down) =
      match m.computer.keypad.set key down with
      | .error e => { value := .error e, machine := m }
      | .ok (keypad, edge) =>
        { value := .ok (.edge edge)
          machine :=
            { m with
              computer :=
                { m.computer with cpu := (keyEdgeCpu m.computer.cpu key edge).1, keypad } }
          log := edge.toList.map .keyEdge ++ (keyEdgeCpu m.computer.cpu key edge).2 } := by
  show m.settle .edge (m.setKey key down) = _
  unfold setKey
  cases m.computer.keypad.set key down with
  | error e => rfl
  | ok r =>
    obtain ⟨keypad, edge⟩ := r
    cases edge with
    | none => rfl
    | some edge => cases edge <;> rfl

theorem perform_setKey_error {key : Byte} {down : Bool} {e : Error}
    (hset : m.computer.keypad.set key down = .error e) :
    m.perform (.setKey key down) = { value := .error e, machine := m } := by
  simp only [perform_setKey, hset]

theorem perform_setKey_ok {key : Byte} {down : Bool} {keypad : Keypad} {edge : Option KeyEdge}
    (hset : m.computer.keypad.set key down = .ok (keypad, edge)) :
    m.perform (.setKey key down) =
      { value := .ok (.edge edge)
        machine :=
          { m with
            computer :=
              { m.computer with cpu := (keyEdgeCpu m.computer.cpu key edge).1, keypad } }
        log := edge.toList.map .keyEdge ++ (keyEdgeCpu m.computer.cpu key edge).2 } := by
  simp only [perform_setKey, hset]

/-- A key that no instruction waits for moves on the keypad and nowhere else. -/
theorem perform_setKey_idle {key : Byte} {down : Bool} {keypad : Keypad} {edge : Option KeyEdge}
    (hset : m.computer.keypad.set key down = .ok (keypad, edge))
    (hidle : ∀ k, edge = some (.pressed k) → m.computer.cpu.awaiting = none) :
    m.perform (.setKey key down) =
      { value := .ok (.edge edge)
        machine := { m with computer := { m.computer with keypad } }
        log := edge.toList.map .keyEdge } := by
  have hcpu : keyEdgeCpu m.computer.cpu key edge = (m.computer.cpu, []) := by
    cases edge with
    | none => rfl
    | some edge =>
      cases edge with
      | released k => rfl
      | pressed k =>
        have ha := hidle k rfl
        simp only [keyEdgeCpu, Cpu.receiveKey, ha]
  simp only [m.perform_setKey_ok hset, hcpu, List.append_nil]

theorem perform_takeFrame :
    m.perform .takeFrame =
      { value := .ok (.frame m.computer.screen.take.2)
        machine :=
          { m with computer := { m.computer with screen := m.computer.screen.take.1 } } } :=
  rfl

theorem perform_fetch :
    m.perform .fetch =
      if m.ready then { value := .ok (.opcode m.computer.fetch), machine := m }
      else { value := .error .notReady, machine := m } := by
  unfold perform fetch
  cases m.ready <;> rfl

/-! ## Counting steps -/

theorem countStep_host (h : m.config.stepsPerTick = none) : m.countStep = (m, [], []) := by
  rw [countStep, h]

theorem countStep_due {n : Nat} (h : m.config.stepsPerTick = some n) (hn : n ≤ m.sinceTick + 1) :
    m.countStep = { m with sinceTick := 0 }.tickTimers := by
  rw [countStep, h]
  exact if_pos hn

theorem countStep_early {n : Nat} (h : m.config.stepsPerTick = some n)
    (hn : ¬ n ≤ m.sinceTick + 1) :
    m.countStep = ({ m with sinceTick := m.sinceTick + 1 }, [], []) := by
  rw [countStep, h]
  exact if_neg hn

/-! ## Frames -/

/-- Counting a step moves the counter and the timers, and nothing else. -/
theorem countStep_frame :
    ∃ sinceTick delay sound,
      m.countStep.1 =
        { m with
          sinceTick
          computer := { m.computer with cpu := { m.computer.cpu with delay, sound } } } := by
  cases h : m.config.stepsPerTick with
  | none =>
    rw [m.countStep_host h]
    exact ⟨m.sinceTick, m.computer.cpu.delay, m.computer.cpu.sound, rfl⟩
  | some n =>
    by_cases hn : n ≤ m.sinceTick + 1
    · rw [m.countStep_due h hn]
      exact ⟨0, _, _, rfl⟩
    · rw [m.countStep_early h hn]
      exact ⟨m.sinceTick + 1, m.computer.cpu.delay, m.computer.cpu.sound, rfl⟩

theorem countStep_ready : m.countStep.1.ready = m.ready := by
  obtain ⟨sinceTick, delay, sound, hcount⟩ := m.countStep_frame
  rw [hcount]

/-- A key changes the registers and ends a wait, and nothing else. -/
theorem receiveKey_frame (cpu : Cpu) (key : Byte) :
    ∃ v awaiting, (cpu.receiveKey key).1 = { cpu with v, awaiting } := by
  unfold Cpu.receiveKey
  cases h : cpu.awaiting with
  | none => exact ⟨cpu.v, cpu.awaiting, rfl⟩
  | some x => exact ⟨(cpu.setRegister x key).v, none, rfl⟩

theorem keyEdgeCpu_frame (cpu : Cpu) (key : Byte) (edge : Option KeyEdge) :
    ∃ v awaiting, (keyEdgeCpu cpu key edge).1 = { cpu with v, awaiting } := by
  cases edge with
  | none => exact ⟨cpu.v, cpu.awaiting, rfl⟩
  | some edge =>
    cases edge with
    | released k => exact ⟨cpu.v, cpu.awaiting, rfl⟩
    | pressed k => exact receiveKey_frame cpu key

/-- A step fails and leaves the machine alone, or it is the computer's step, counted. -/
theorem perform_step_cases :
    (∃ e, m.perform .step = { value := .error e, machine := m }) ∨
      ∃ s computer log sinceTick delay sound,
        m.computer.step = .ok (s, computer, log) ∧
        (m.perform .step).value = .ok (.step s) ∧
        (m.perform .step).machine =
          { m with
            sinceTick
            computer := { computer with cpu := { computer.cpu with delay, sound } } } := by
  rw [perform_step]
  by_cases hr : m.ready = true
  · rw [if_pos hr]
    cases hs : m.computer.step with
    | error e => exact .inl ⟨e, rfl⟩
    | ok r =>
      obtain ⟨s, computer, log⟩ := r
      obtain ⟨sinceTick, delay, sound, hcount⟩ := countStep_frame { m with computer }
      exact .inr ⟨s, computer, log, sinceTick, delay, sound, rfl, rfl, hcount⟩
  · rw [if_neg hr]
    exact .inl ⟨.notReady, rfl⟩

theorem step_value_cases :
    (∃ e, (m.perform .step).value = .error e) ∨ ∃ s, (m.perform .step).value = .ok (.step s) := by
  rcases m.perform_step_cases with ⟨e, he⟩ | ⟨s, -, -, -, -, -, -, hv, -⟩
  · exact .inl ⟨e, congrArg (·.value) he⟩
  · exact .inr ⟨s, hv⟩

/-- A step that answers with an instruction has executed it. -/
theorem perform_executed {i : Instruction}
    (h : (m.perform .step).value = .ok (.step (.executed i))) :
    ∃ sinceTick delay sound,
      (m.perform .step).machine =
        { m with
          sinceTick
          computer :=
            { (m.computer.advance i).1 with
              cpu := { (m.computer.advance i).1.cpu with delay, sound } } } := by
  obtain ⟨e, he⟩ | ⟨s, computer, log, sinceTick, delay, sound, hs, hv, hm⟩ := m.perform_step_cases
  · rw [he] at h
    cases h
  · rw [hv] at h
    cases h
    obtain ⟨hw, -⟩ | ⟨i', -, -, hi, rfl⟩ := m.computer.step_cases hs
    · cases hw
    · cases hi
      exact ⟨sinceTick, delay, sound, hm⟩

/-- What a machine executes is what it fetched, and it was not waiting. -/
theorem fetched_of_executed {i : Instruction}
    (hv : (m.perform .step).value = .ok (.step (.executed i))) :
    m.computer.cpu.awaiting = none ∧ Instruction.decode m.computer.fetch = .ok i := by
  obtain ⟨e, he⟩ | ⟨s, computer, log, -, -, -, hs, hv', -⟩ := m.perform_step_cases
  · rw [he] at hv
    cases hv
  · rw [hv] at hv'
    cases hv'
    obtain ⟨hw, -⟩ | ⟨i', ha, hd, hi, -⟩ := m.computer.step_cases hs
    · cases hw
    · cases hi
      exact ⟨ha, hd⟩

/-- What neither steps nor ticks nor starts over asks for no beep and changes V, the wait, the mark
on the screen and the keys only. -/
theorem perform_quiet_frame {call : Call} (hc : call.restarts = false) (hs : call ≠ .step)
    (ht : call ≠ .tick) :
    (m.perform call).beeps = [] ∧
      ∃ v awaiting changed keypad,
        (m.perform call).machine =
          { m with
            computer :=
              { m.computer with
                cpu := { m.computer.cpu with v, awaiting }
                screen := { m.computer.screen with changed }
                keypad } } := by
  cases call with
  | step => exact absurd rfl hs
  | tick => exact absurd rfl ht
  | setKey key down =>
    rw [perform_setKey]
    cases m.computer.keypad.set key down with
    | error e => exact ⟨rfl, _, _, _, _, rfl⟩
    | ok r =>
      obtain ⟨keypad, edge⟩ := r
      obtain ⟨v, awaiting, hcpu⟩ := keyEdgeCpu_frame m.computer.cpu key edge
      refine ⟨rfl, v, awaiting, m.computer.screen.changed, keypad, ?_⟩
      simp only [hcpu]
  | takeFrame => exact ⟨rfl, _, _, _, _, rfl⟩
  | fetch =>
    rw [perform_fetch]
    by_cases hr : m.ready = true
    · rw [if_pos hr]
      exact ⟨rfl, _, _, _, _, rfl⟩
    · rw [if_neg hr]
      exact ⟨rfl, _, _, _, _, rfl⟩
  | programListing => exact ⟨rfl, _, _, _, _, rfl⟩
  | _ => cases hc

/-- Of the processor, what neither steps nor starts over changes V, the timers and the wait only. -/
theorem perform_other_frame {call : Call} (hc : call.restarts = false) (hs : call ≠ .step) :
    ∃ v awaiting delay sound screen keypad,
      (m.perform call).machine =
        { m with
          computer :=
            { m.computer with
              cpu := { m.computer.cpu with v, awaiting, delay, sound }
              screen
              keypad } } := by
  by_cases ht : call = .tick
  · subst ht
    rw [perform_tick]
    by_cases hr : m.ready = true
    · rw [if_pos hr]
      exact ⟨_, _, _, _, _, _, rfl⟩
    · rw [if_neg hr]
      exact ⟨_, _, _, _, _, _, rfl⟩
  · obtain ⟨-, v, awaiting, changed, keypad, hm⟩ := m.perform_quiet_frame hc hs ht
    exact ⟨v, awaiting, _, _, _, keypad, hm⟩

theorem perform_keeps_ready {call : Call} (hc : call.restarts = false) :
    (m.perform call).machine.ready = m.ready := by
  by_cases hs : call = .step
  · subst hs
    obtain ⟨e, he⟩ | ⟨s, computer, log, sinceTick, delay, sound, -, -, hm⟩ := m.perform_step_cases
    · rw [he]
    · rw [hm]
  · obtain ⟨v, awaiting, delay, sound, screen, keypad, hm⟩ := m.perform_other_frame hc hs
    rw [hm]

/-- A call that starts over is refused, or it succeeds, and asks for no beep: every component is as
at the start, with some memory. -/
theorem perform_restart_cases {call : Call} (hc : call.restarts = true) :
    (∃ e, m.perform call = { value := .error e, machine := m }) ∨
      ∃ answer ready memory log,
        m.perform call =
          { value := .ok answer
            machine :=
              { m.resetComponents with
                ready, computer := { m.resetComponents.computer with memory } }
            log } := by
  cases call with
  | makeReady =>
    rw [perform_makeReady]
    split
    · exact .inl ⟨_, rfl⟩
    · exact .inr ⟨.done, true, Memory.blank, _, rfl⟩
  | reset => exact .inr ⟨.done, false, Memory.blank, _, rfl⟩
  | load rom =>
    rw [perform_load]
    split
    · split
      · exact .inl ⟨_, rfl⟩
      · exact .inr ⟨.size rom.length, m.ready, _, _, rfl⟩
    · exact .inl ⟨_, rfl⟩
  | _ => cases hc

/-- A call that starts over is refused, or every component is as at the start, with some memory. -/
theorem perform_restart_frame {call : Call} (hc : call.restarts = true) :
    (m.perform call).machine = m ∨
      ∃ ready memory,
        (m.perform call).machine =
          { m.resetComponents with
            ready, computer := { m.resetComponents.computer with memory } } := by
  obtain ⟨e, he⟩ | ⟨answer, ready, memory, log, hm⟩ := m.perform_restart_cases hc
  · exact .inl (congrArg (·.machine) he)
  · exact .inr ⟨ready, memory, congrArg (·.machine) hm⟩

/-- No call changes how the machine is set up. -/
theorem perform_config (call : Call) : (m.perform call).machine.config = m.config := by
  cases hc : call.restarts with
  | true =>
    obtain hm | ⟨ready, memory, hm⟩ := m.perform_restart_frame hc
    · rw [hm]
    · rw [hm]
      rfl
  | false =>
    by_cases hs : call = .step
    · subst hs
      obtain ⟨e, he⟩ | ⟨s, computer, log, sinceTick, delay, sound, -, -, hm⟩ := m.perform_step_cases
      · rw [he]
      · rw [hm]
    · obtain ⟨v, awaiting, delay, sound, screen, keypad, hm⟩ := m.perform_other_frame hc hs
      rw [hm]

/-- What a call that succeeds leaves is the machine of its reply. -/
theorem settle_machine {α : Type} (answer : α → Answer) {reply : Except Error (Reply α)}
    {r : Reply α} (h : reply = .ok r) : (m.settle answer reply).machine = r.machine := by
  rw [h]
  rfl

theorem settle_value_ne {α : Type} {answer : α → Answer} {a : Answer} (h : ∀ x, answer x ≠ a)
    (r : Except Error (Reply α)) : (m.settle answer r).value ≠ .ok a := by
  intro hv
  cases r with
  | error e => cases hv
  | ok r => exact h r.value (Except.ok.inj hv)

/-- Only a step answers with what a step did. -/
theorem perform_other_value {call : Call} (hs : call ≠ .step) (s : Step) :
    (m.perform call).value ≠ .ok (.step s) := by
  cases call with
  | step => exact absurd rfl hs
  | _ =>
    apply settle_value_ne
    intro x hx
    cases hx

theorem call_of_step {call : Call} {s : Step} (h : (m.perform call).value = .ok (.step s)) :
    call = .step :=
  Decidable.byContradiction fun hs => m.perform_other_value hs s h

/-- Only a key that is moved answers with an edge. -/
theorem call_of_edge {call : Call} {edge : Option KeyEdge}
    (h : (m.perform call).value = .ok (.edge edge)) : ∃ key down, call = .setKey key down := by
  cases call with
  | setKey key down => exact ⟨key, down, rfl⟩
  | _ =>
    refine absurd h (settle_value_ne _ ?_ _)
    intro x hx
    cases hx

/-! ## Histories -/

theorem after_append (calls rest : List Call) :
    m.after (calls ++ rest) = (m.after calls).after rest :=
  List.foldl_append

theorem performAll_append (calls rest : List Call) :
    m.performAll (calls ++ rest) = m.performAll calls ++ (m.after calls).performAll rest := by
  induction calls generalizing m with
  | nil => rfl
  | cons call calls ih => exact congrArg (m.perform call :: ·) (ih _)

theorem after_config (calls : List Call) : (m.after calls).config = m.config := by
  induction calls generalizing m with
  | nil => rfl
  | cons call rest ih => exact (ih _).trans (m.perform_config call)

theorem after_makeReady {m : Machine} (hr : m.ready = false) :
    (m.after [.makeReady]).ready = true := by
  show (m.perform .makeReady).machine.ready = true
  rw [m.perform_makeReady, hr]
  rfl

/-! ## Bounds -/

/-- The stack holds at most 16 addresses, the ROM fits behind the start, and a tick is due after
fewer steps than the timing asks for. Where the host ticks, no steps are counted. -/
structure WellFormed (m : Machine) : Prop where
  sp_le : m.computer.cpu.sp.toNat ≤ 16
  romLength_le : m.computer.memory.romLength ≤ Memory.capacity
  sinceTick_lt : m.sinceTick < m.config.stepsPerTick.getD 1

theorem stepsPerTick_pos (config : Config) : 0 < config.stepsPerTick.getD 1 := by
  unfold Config.stepsPerTick
  cases config.timing with
  | host => exact Nat.one_pos
  | perStep n => exact Nat.lt_of_lt_of_le Nat.one_pos (Nat.le_max_right n.toNat 1)

theorem blank_romLength : Memory.blank.romLength = 0 := Memory.writeRange_romLength _ _ _

theorem create_wellFormed (config : Config) (entropy : Random.Key) :
    (create config entropy).WellFormed where
  sp_le := Nat.zero_le 16
  romLength_le := by
    show Memory.blank.romLength ≤ Memory.capacity
    rw [blank_romLength]
    exact Nat.zero_le _
  sinceTick_lt := stepsPerTick_pos config

theorem resetComponents_wellFormed : m.resetComponents.WellFormed where
  sp_le := Nat.zero_le 16
  romLength_le := by
    show Memory.blank.romLength ≤ Memory.capacity
    rw [blank_romLength]
    exact Nat.zero_le _
  sinceTick_lt := stepsPerTick_pos m.config

variable {m}

/-- The counter goes back to zero before it can reach the steps between two ticks. -/
theorem countStep_wellFormed (h : m.WellFormed) : m.countStep.1.WellFormed := by
  have hlt := h.sinceTick_lt
  cases hn : m.config.stepsPerTick with
  | none =>
    rw [m.countStep_host hn]
    exact h
  | some n =>
    by_cases hle : n ≤ m.sinceTick + 1
    · rw [m.countStep_due hn hle]
      exact ⟨h.sp_le, h.romLength_le, stepsPerTick_pos m.config⟩
    · rw [m.countStep_early hn hle]
      refine ⟨h.sp_le, h.romLength_le, ?_⟩
      show m.sinceTick + 1 < m.config.stepsPerTick.getD 1
      rw [hn, Option.getD_some]
      omega

/-- A computer after a step, put back into its machine. -/
theorem WellFormed.stepped (h : m.WellFormed) {s : Step} {computer : Computer}
    {log : List Record} (hs : m.computer.step = .ok (s, computer, log)) :
    WellFormed { m with computer } where
  sp_le := m.computer.step_sp_le h.sp_le hs
  romLength_le := by
    show computer.memory.romLength ≤ Memory.capacity
    rw [m.computer.step_romLength hs]
    exact h.romLength_le
  sinceTick_lt := h.sinceTick_lt

theorem perform_wellFormed (h : m.WellFormed) (call : Call) :
    (m.perform call).machine.WellFormed := by
  cases call with
  | makeReady =>
    rw [perform_makeReady]
    cases m.ready with
    | true => exact h
    | false =>
      have hreset := m.resetComponents_wellFormed
      exact ⟨hreset.sp_le, hreset.romLength_le, hreset.sinceTick_lt⟩
  | reset =>
    have hreset := m.resetComponents_wellFormed
    exact ⟨hreset.sp_le, hreset.romLength_le, hreset.sinceTick_lt⟩
  | load rom =>
    rw [perform_load]
    cases m.ready with
    | false => exact h
    | true =>
      by_cases hrom : Memory.capacity < rom.length
      · rw [if_pos rfl, if_pos hrom]
        exact h
      · rw [if_pos rfl, if_neg hrom]
        have hreset := m.resetComponents_wellFormed
        exact ⟨hreset.sp_le, Nat.le_of_not_lt hrom, hreset.sinceTick_lt⟩
  | step =>
    rw [perform_step]
    by_cases hr : m.ready
    · rw [if_pos hr]
      cases hs : m.computer.step with
      | error e => exact h
      | ok r =>
        obtain ⟨s, computer, log⟩ := r
        exact countStep_wellFormed (h.stepped hs)
    · rw [if_neg hr]
      exact h
  | tick =>
    rw [perform_tick]
    cases m.ready with
    | false => exact h
    | true => exact ⟨h.sp_le, h.romLength_le, h.sinceTick_lt⟩
  | setKey key down =>
    rw [perform_setKey]
    cases m.computer.keypad.set key down with
    | error e => exact h
    | ok r =>
      obtain ⟨keypad, edge⟩ := r
      obtain ⟨v, awaiting, hcpu⟩ := keyEdgeCpu_frame m.computer.cpu key edge
      simp only [hcpu]
      exact ⟨h.sp_le, h.romLength_le, h.sinceTick_lt⟩
  | takeFrame => exact ⟨h.sp_le, h.romLength_le, h.sinceTick_lt⟩
  | fetch =>
    rw [perform_fetch]
    cases m.ready <;> exact h
  | programListing => exact h

theorem after_wellFormed (h : m.WellFormed) (calls : List Call) : (m.after calls).WellFormed := by
  induction calls generalizing m with
  | nil => exact h
  | cons call rest ih => exact ih (perform_wellFormed h call)

end Machine
end ChipEight
