import ChipEight.Proofs.Failure
import ChipEight.Proofs.Pacing
import ChipEight.Tone

/-!
# ChipEight.Proofs.Timers

Both timers and all beeps, read off what a history did: the values that it stored, its ticks, and
where it started over.

* `TimerEvent`, `Machine.timerEvents` — these events, a tick of the machine itself behind the step
  that it belongs to.
* `pendingSound`, `beeps` — the beep that is due, and the beeps by their ticks.
* `heard`               — the same beeps by their FX18 (`beeps_eq_heard`): one that a tick comes
  upon before another FX18 or a restart does.
* `storedDelay`, `ticksSinceStored` — where the delay timer counts down from, and for how long.
* `Machine.Timed`       — a machine whose timers are where these events put them. Each call keeps it
  so, and asks for the beeps of its events (`Timed.perform`), and with it every history.
* `timers_by_history`   — from a new machine.
-/

namespace ChipEight

inductive TimerEvent where
  /-- Every component goes back to its start. -/
  | restart
  /-- FX15 stores a value. -/
  | setDelay (value : Byte)
  /-- FX18 stores a value. -/
  | setSound (value : Byte)
  | tick
  deriving DecidableEq

namespace TimerEvent

def delay? : TimerEvent → Option Byte
  | .setDelay value => some value
  | _ => none

def sound? : TimerEvent → Option Byte
  | .setSound value => some value
  | _ => none

def isRestart : TimerEvent → Bool
  | .restart => true
  | _ => false

/-- Whether a value that FX18 stored before is gone: a tick made a beep of it, or a restart dropped
it. -/
def endsSound : TimerEvent → Bool
  | .tick | .restart => true
  | _ => false

/-- Whether the delay timer counts down from another value now. -/
def startsDelay : TimerEvent → Bool
  | .setDelay _ | .restart => true
  | _ => false

end TimerEvent

/-! ## The timers by their events

A past is a list of events, the latest first. -/

/-- The value of the last FX18 since the last tick or restart; 0 without one. -/
def pendingSound (past : List TimerEvent) : Byte :=
  ((past.takeWhile (!·.endsSound)).findSome? (·.sound?)).getD 0

/-- The value of the last FX15 since the last restart; 0 without one. -/
def storedDelay (past : List TimerEvent) : Byte :=
  ((past.takeWhile (!·.isRestart)).findSome? (·.delay?)).getD 0

/-- The ticks since the last FX15 or restart. -/
def ticksSinceStored (past : List TimerEvent) : Nat :=
  (past.takeWhile (!·.startsDelay)).count .tick

def beepOf (value : Byte) : List Byte := if value = 0 then [] else [value]

/-- What an event asks for: a tick asks for the beep that is pending. -/
def beepAt (past : List TimerEvent) : TimerEvent → List Byte
  | .tick => beepOf (pendingSound past)
  | _ => []

/-- The beeps of a list of events behind a past, in their order. -/
def beepsFrom (past : List TimerEvent) : List TimerEvent → List Byte
  | [] => []
  | event :: rest => beepAt past event ++ beepsFrom (event :: past) rest

/-- The beeps of a list of events from the start, one for each tick that finds one pending. -/
def beeps (events : List TimerEvent) : List Byte := beepsFrom [] events

/-- Whether a tick comes before the next FX18 and the next restart. -/
def reachesTick : List TimerEvent → Bool
  | .tick :: _ => true
  | .setDelay _ :: rest => reachesTick rest
  | _ => false

/-- The beeps of the values that FX18 stores and a tick comes upon. -/
def heard : List TimerEvent → List Byte
  | [] => []
  | .setSound value :: rest => (if reachesTick rest then beepOf value else []) ++ heard rest
  | _ :: rest => heard rest

section Past

variable (past : List TimerEvent) (value : Byte)

@[simp] theorem pendingSound_restart : pendingSound (.restart :: past) = 0 := rfl

@[simp] theorem pendingSound_tick : pendingSound (.tick :: past) = 0 := rfl

@[simp] theorem pendingSound_setSound : pendingSound (.setSound value :: past) = value := rfl

@[simp] theorem pendingSound_setDelay :
    pendingSound (.setDelay value :: past) = pendingSound past := rfl

@[simp] theorem storedDelay_restart : storedDelay (.restart :: past) = 0 := rfl

@[simp] theorem storedDelay_tick : storedDelay (.tick :: past) = storedDelay past := rfl

@[simp] theorem storedDelay_setDelay : storedDelay (.setDelay value :: past) = value := rfl

@[simp] theorem storedDelay_setSound :
    storedDelay (.setSound value :: past) = storedDelay past := rfl

@[simp] theorem ticksSinceStored_tick :
    ticksSinceStored (.tick :: past) = ticksSinceStored past + 1 := List.count_cons_self

@[simp] theorem ticksSinceStored_setDelay : ticksSinceStored (.setDelay value :: past) = 0 := rfl

@[simp] theorem ticksSinceStored_setSound :
    ticksSinceStored (.setSound value :: past) = ticksSinceStored past := rfl

end Past

theorem beepsFrom_append (past events rest : List TimerEvent) :
    beepsFrom past (events ++ rest) =
      beepsFrom past events ++ beepsFrom (events.reverse ++ past) rest := by
  induction events generalizing past with
  | nil => rfl
  | cons event events ih => simp [beepsFrom, ih]

/-- What is pending beeps if a tick comes upon it; the other beeps are of FX18 still to come. -/
theorem beepsFrom_eq (past events : List TimerEvent) :
    beepsFrom past events =
      (if reachesTick events then beepOf (pendingSound past) else []) ++ heard events := by
  induction events generalizing past with
  | nil => rfl
  | cons event rest ih =>
    cases event with
    | restart => simp [beepsFrom, beepAt, reachesTick, heard, ih, beepOf]
    -- FX15 leaves both sides as they are, what is pending included.
    | setDelay value => exact ih (.setDelay value :: past)
    | setSound value => simp [beepsFrom, beepAt, reachesTick, heard, ih]
    | tick => simp [beepsFrom, beepAt, reachesTick, heard, ih, beepOf]

/-- Each beep is that of one FX18, so none beeps twice. -/
theorem beeps_eq_heard (events : List TimerEvent) : beeps events = heard events := by
  have hbeeps := beepsFrom_eq [] events
  rw [show pendingSound [] = 0 from rfl, show beepOf 0 = [] from rfl, ite_self] at hbeeps
  exact hbeeps

example : beeps [.setSound 5, .setSound 3, .tick, .tick, .setSound 7, .restart, .tick] = [3] := by
  decide

theorem beepOf_ne_zero {value b : Byte} (h : b ∈ beepOf value) : b ≠ 0 := by
  unfold beepOf at h
  split at h
  case isTrue => cases h
  case isFalse hvalue =>
    cases List.mem_singleton.mp h
    exact hvalue

theorem beepOf_sublist (value : Byte) : (beepOf value).Sublist [value] := by
  unfold beepOf
  split
  · exact List.nil_sublist _
  · exact .refl _

theorem heard_ne_zero {events : List TimerEvent} {b : Byte} (h : b ∈ heard events) : b ≠ 0 := by
  induction events with
  | nil => cases h
  | cons event rest ih =>
    cases event with
    | setSound value =>
      rcases List.mem_append.mp h with hfirst | hrest
      · split at hfirst
        · exact beepOf_ne_zero hfirst
        · cases hfirst
      · exact ih hrest
    | _ => exact ih h

/-- The beeps are values that FX18 stored, in their order. -/
theorem heard_sublist (events : List TimerEvent) :
    (heard events).Sublist (events.filterMap (·.sound?)) := by
  induction events with
  | nil => exact .slnil
  | cons event rest ih =>
    cases event with
    | setSound value =>
      have hfirst : (if reachesTick rest then beepOf value else []).Sublist [value] := by
        split
        · exact beepOf_sublist value
        · exact List.nil_sublist _
      exact hfirst.append ih
    | _ => exact ih

theorem Tone.recording_requests (requests earlier : List Byte) :
    requests.foldl (fun tone ticks => tone.request ticks) (Tone.recording earlier) =
      .recording (earlier ++ requests) := by
  induction requests generalizing earlier with
  | nil => simp
  | cons ticks rest ih =>
    rw [List.foldl_cons, Tone.request, ih, List.append_assoc]
    rfl

/-! ## The timers of a processor -/

structure Timers (past : List TimerEvent) (cpu : Cpu) : Prop where
  sound : cpu.sound = pendingSound past
  delay : cpu.delay.toNat = (storedDelay past).toNat - ticksSinceStored past

namespace Timers

variable {past : List TimerEvent} {cpu : Cpu}

theorem congr (h : Timers past cpu) {cpu' : Cpu} (hsound : cpu'.sound = cpu.sound)
    (hdelay : cpu'.delay = cpu.delay) : Timers past cpu' where
  sound := hsound.trans h.sound
  delay := hdelay ▸ h.delay

theorem restart (past : List TimerEvent) (random : Random) :
    Timers (.restart :: past) (Cpu.initial random) where
  sound := rfl
  delay := by simp [Cpu.initial]

theorem setDelay (h : Timers past cpu) (value : Byte) :
    Timers (.setDelay value :: past) { cpu with delay := value } where
  sound := h.sound
  delay := by simp

theorem setSound (h : Timers past cpu) (value : Byte) :
    Timers (.setSound value :: past) { cpu with sound := value } where
  sound := rfl
  delay := h.delay

theorem tick (h : Timers past cpu) :
    Timers (.tick :: past) cpu.tick.1 ∧ cpu.tick.2.toList = beepAt past .tick := by
  refine ⟨⟨rfl, ?_⟩, ?_⟩
  · rw [cpu.tick_delay, h.delay, storedDelay_tick, ticksSinceStored_tick]
    exact Nat.sub_sub _ _ 1
  · simp only [Cpu.tick, h.sound, beepAt, beepOf]
    split <;> rfl

end Timers

/-- What an instruction stores in a timer, by the registers that it finds. -/
def Instruction.stores (cpu : Cpu) : Instruction → List TimerEvent
  | .setDelay x => [.setDelay (cpu.register x)]
  | .setSound x => [.setSound (cpu.register x)]
  | _ => []

def Step.stores (cpu : Cpu) : Step → List TimerEvent
  | .executed i => i.stores cpu
  | .waiting => []

theorem beepsFrom_stores (past : List TimerEvent) (cpu : Cpu) (s : Step) :
    beepsFrom past (s.stores cpu) = [] := by
  cases s with
  | waiting => rfl
  | executed i => cases i <;> rfl

namespace Computer

variable (c : Computer) {past : List TimerEvent}

theorem execute_timers (h : Timers past c.cpu) (i : Instruction) :
    Timers ((i.stores c.cpu).reverse ++ past) (c.execute i).cpu := by
  cases i with
  | setDelay x => exact h.setDelay (c.cpu.register x)
  | setSound x => exact h.setSound (c.cpu.register x)
  | skip condition =>
    show Timers past (c.cpu.skip (condition.holds c))
    cases condition.holds c with
    | false => exact h
    | true => exact h.congr rfl rfl
  | arith op x y =>
    show Timers past (c.cpu.setResult x (op.apply (c.cpu.register x) (c.cpu.register y)))
    obtain ⟨value, f | f⟩ := op.apply (c.cpu.register x) (c.cpu.register y)
    · exact h.congr rfl rfl
    · exact h.congr rfl rfl
  | _ => exact h.congr rfl rfl

theorem step_timers (h : Timers past c.cpu) {s : Step} {c' : Computer} {log : List Record}
    (hs : c.step = .ok (s, c', log)) : Timers ((s.stores c.cpu).reverse ++ past) c'.cpu := by
  rcases c.step_cases hs with ⟨rfl, rfl⟩ | ⟨i, -, -, rfl, rfl⟩
  · exact h
  · have hnext : Timers past c.pastOpcode.cpu := h.congr rfl rfl
    exact execute_timers c.pastOpcode hnext i

end Computer

/-! ## Calls and histories -/

/-- What a call does to the timers by its outcome, but for the ticks that a machine makes itself. -/
def Call.timerEvents (cpu : Cpu) (call : Call) : Except Error Answer → List TimerEvent
  | .error _ => []
  | .ok (.step s) => s.stores cpu
  | .ok _ => if call.restarts then [.restart] else if call = .tick then [.tick] else []

namespace Machine

/-- The tick that a machine makes itself behind a step, where its timing asks for one. -/
def ownTick (m : Machine) (steps : Nat) (value : Except Error Answer) : List TimerEvent :=
  if m.config.stepsPerTick.any (tickDue · steps value) then [.tick] else []

/-- What a call does to the timers; `steps` were made since the machine last started over. -/
def callEvents (m : Machine) (steps : Nat) (call : Call) : List TimerEvent :=
  let value := (m.perform call).value
  call.timerEvents m.computer.cpu value ++ m.ownTick steps value

def timerEvents (m : Machine) (steps : Nat) : List Call → List TimerEvent
  | [] => []
  | call :: rest =>
    let reply := m.perform call
    m.callEvents steps call ++ reply.machine.timerEvents (stepsAfter steps call reply.value) rest

/-- A machine with its timers where a past puts them. Where it ticks itself, its counter is where
the steps stand between two ticks. -/
structure Timed (past : List TimerEvent) (steps : Nat) (m : Machine) : Prop where
  timers : Timers past m.computer.cpu
  sinceTick : ∀ n, m.config.stepsPerTick = some n → m.sinceTick = steps % n

/-- A reply that asks for the beeps of some events, and leaves the timers where these put them. -/
structure Follows (past events : List TimerEvent) (steps : Nat)
    (r : Reply (Except Error Answer)) : Prop where
  timed : r.machine.Timed (events.reverse ++ past) steps
  beeps : r.beeps = beepsFrom past events

variable {m : Machine} {past : List TimerEvent} {steps : Nat}

theorem callEvents_other (m : Machine) (steps : Nat) {call : Call} (hs : call ≠ .step)
    {answer : Answer} (hv : (m.perform call).value = .ok answer) :
    m.callEvents steps call =
        (if call.restarts then [.restart] else if call = .tick then [.tick] else []) ∧
      stepsAfter steps call (.ok answer) = if call.restarts then 0 else steps := by
  rw [callEvents, hv]
  cases answer with
  | step s => exact absurd hv (m.perform_other_value hs s)
  | _ => simp [Call.timerEvents, ownTick, tickDue, stepsAfter]

theorem restart_silent (m : Machine) {call : Call} (hc : call.restarts = true) :
    (m.perform call).beeps = [] := by
  rcases m.perform_restart_cases hc with ⟨e, he⟩ | ⟨answer, ready, memory, log, hm⟩
  · rw [he]
  · rw [hm]

namespace Timed

theorem tickTimers (h : m.Timed past steps) :
    m.tickTimers.1.Timed (.tick :: past) steps ∧ m.tickTimers.2.1 = beepAt past .tick :=
  ⟨⟨h.timers.tick.1, h.sinceTick⟩, h.timers.tick.2⟩

theorem countStep (h : m.Timed past steps) (s : Step) :
    m.countStep.1.Timed ((m.ownTick steps (.ok (.step s))).reverse ++ past) (steps + 1) ∧
      m.countStep.2.1 = beepsFrom past (m.ownTick steps (.ok (.step s))) := by
  cases hn : m.config.stepsPerTick with
  | none =>
    simp only [ownTick, hn, Option.any_none, m.countStep_host hn]
    refine ⟨⟨h.timers, ?_⟩, rfl⟩
    intro n hsome
    rw [hn] at hsome
    cases hsome
  | some n =>
    have hcounted : Timed past (steps + 1) { m with sinceTick := (steps + 1) % n } := by
      refine ⟨h.timers, ?_⟩
      intro n' hn'
      cases hn.symm.trans hn'
      rfl
    rw [m.countStep_after hn (h.sinceTick n hn)]
    by_cases hdue : (steps + 1) % n = 0
    · obtain ⟨hnext, hbeep⟩ := hcounted.tickTimers
      simp only [ownTick, hn, Option.any_some, tickDue, hdue] at hnext hbeep ⊢
      exact ⟨hnext, hbeep.trans (List.append_nil _).symm⟩
    · simp only [ownTick, hn, Option.any_some, tickDue, hdue]
      exact ⟨hcounted, rfl⟩

theorem refused (h : m.Timed past steps) {call : Call} {e : Error}
    (he : (m.perform call).value = .error e) :
    Follows past (m.callEvents steps call) (stepsAfter steps call (m.perform call).value)
      (m.perform call) := by
  have hevents : m.callEvents steps call = [] := by
    simp [callEvents, he, Call.timerEvents, ownTick, tickDue]
  rw [hevents, perform_refused (refuses_of_value he)]
  exact ⟨h, rfl⟩

theorem perform_step (h : m.Timed past steps) :
    Follows past (m.callEvents steps .step) (stepsAfter steps .step (m.perform .step).value)
      (m.perform .step) := by
  by_cases hr : m.ready = true
  · cases hs : m.computer.step with
    | error e => exact h.refused (congrArg (·.value) (m.perform_step_error hr hs))
    | ok r =>
      obtain ⟨s, computer, log⟩ := r
      have hstepped : Timed ((s.stores m.computer.cpu).reverse ++ past) steps { m with computer } :=
        ⟨m.computer.step_timers h.timers hs, h.sinceTick⟩
      obtain ⟨hnext, hbeeps⟩ := hstepped.countStep s
      have hevents : m.callEvents steps .step =
          s.stores m.computer.cpu ++ ownTick { m with computer } steps (.ok (.step s)) := by
        rw [callEvents, m.perform_step_ok hr hs]
        rfl
      rw [hevents, m.perform_step_ok hr hs]
      refine ⟨?_, ?_⟩
      · rw [List.reverse_append, List.append_assoc]
        exact hnext
      · rw [beepsFrom_append, beepsFrom_stores, List.nil_append]
        exact hbeeps
  · exact h.refused (congrArg (·.value) (m.perform_step_notReady hr))

theorem perform_other (h : m.Timed past steps) {call : Call} (hs : call ≠ .step) :
    Follows past (m.callEvents steps call) (stepsAfter steps call (m.perform call).value)
      (m.perform call) := by
  cases hv : (m.perform call).value with
  | error e => exact hv ▸ h.refused hv
  | ok answer =>
    obtain ⟨hevents, hsteps⟩ := m.callEvents_other steps hs hv
    rw [hevents, hsteps]
    cases hc : call.restarts with
    | true =>
      rcases m.perform_restart_cases hc with ⟨e, he⟩ | ⟨_, ready, memory, log, hm⟩
      · rw [he] at hv
        cases hv
      · rw [hm]
        exact ⟨⟨.restart past _, fun n _ => (Nat.zero_mod n).symm⟩, rfl⟩
    | false =>
      by_cases ht : call = .tick
      · subst ht
        by_cases hr : m.ready = true
        · obtain ⟨hnext, hbeep⟩ := h.tickTimers
          rw [m.perform_tick_ok hr]
          exact ⟨hnext, hbeep.trans (List.append_nil _).symm⟩
        · rw [m.perform_tick_notReady hr] at hv
          cases hv
      · obtain ⟨hbeeps, v, awaiting, changed, keypad, hm⟩ := m.perform_quiet_frame hc hs ht
        simp only [ht, Bool.false_eq_true, if_false]
        refine ⟨?_, hbeeps⟩
        rw [hm]
        exact ⟨h.timers.congr rfl rfl, h.sinceTick⟩

theorem perform (h : m.Timed past steps) (call : Call) :
    Follows past (m.callEvents steps call) (stepsAfter steps call (m.perform call).value)
      (m.perform call) := by
  by_cases hs : call = .step
  · subst hs
    exact h.perform_step
  · exact h.perform_other hs

theorem performAll (h : m.Timed past steps) (calls : List Call) :
    (∃ steps', (m.after calls).Timed ((m.timerEvents steps calls).reverse ++ past) steps') ∧
      (m.performAll calls).flatMap (·.beeps) = beepsFrom past (m.timerEvents steps calls) := by
  -- The past goes along: the events of the first call are in front of it for the rest.
  induction calls generalizing m past steps with
  | nil => exact ⟨⟨steps, h⟩, rfl⟩
  | cons call rest ih =>
    obtain ⟨hnext, hbeeps⟩ := h.perform call
    obtain ⟨⟨steps', hafter⟩, hrest⟩ := ih hnext
    rw [timerEvents, beepsFrom_append, List.reverse_append, List.append_assoc, Machine.performAll,
      List.flatMap_cons, hbeeps, hrest]
    exact ⟨⟨steps', hafter⟩, rfl⟩

end Timed

theorem create_timed (config : Config) (entropy : Random.Key) :
    (create config entropy).Timed [] 0 :=
  ⟨⟨rfl, rfl⟩, fun n _ => (Nat.zero_mod n).symm⟩

/-- A new machine with a tone that records, and any history. Each tick records the value of the last
FX18 since the tick before it and since the machine last started over, unless that is 0, behind all
that was recorded before. These are the values other than 0 of those FX18 that a tick comes upon
before another FX18 and before a restart, in their order. Starting over records nothing and drops
what is pending.
The delay timer has gone down from the value of the last FX15 since the machine last started over,
by one for each tick since then, and stays at 0. -/
theorem timers_by_history (config : Config) (entropy : Random.Key) (earlier : List Byte)
    (calls : List Call) :
    let start := create config entropy
    let events := start.timerEvents 0 calls
    let requests := (start.performAll calls).flatMap (·.beeps)
    let cpu := (start.after calls).computer.cpu
    requests.foldl (fun tone ticks => tone.request ticks) (Tone.recording earlier) =
        .recording (earlier ++ beeps events) ∧
      beeps events = heard events ∧
      (∀ b ∈ beeps events, b ≠ 0) ∧
      (beeps events).Sublist (events.filterMap (·.sound?)) ∧
      (∀ call, call.restarts = true →
        (start.performAll (calls ++ [call])).flatMap (·.beeps) = requests) ∧
      cpu.sound = pendingSound events.reverse ∧
      cpu.delay.toNat = (storedDelay events.reverse).toNat - ticksSinceStored events.reverse := by
  intro start events requests cpu
  obtain ⟨⟨steps, hafter⟩, hrequests⟩ := (create_timed config entropy).performAll calls
  rw [List.append_nil] at hafter
  have hheard := beeps_eq_heard events
  have hbeeps : requests = beeps events := hrequests
  refine ⟨?_, hheard, ?_, ?_, ?_, hafter.timers.sound, hafter.timers.delay⟩
  · rw [Tone.recording_requests, hbeeps]
  · intro b hb
    exact heard_ne_zero (hheard ▸ hb)
  · rw [hheard]
    exact heard_sublist events
  · intro call hc
    have hsilent := (start.after calls).restart_silent hc
    simp [performAll_append, Machine.performAll, hsilent, requests]

end Machine
end ChipEight
