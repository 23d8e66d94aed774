import ChipEight.Proofs.Machine

/-!
# ChipEight.Proofs.Pacing

A machine that ticks its own timers does what a host could do for it, by ticking after every `n`-th
step.

* `stepsAfter`, `tickDue`     — the steps that count, and the ones after which a tick is due.
* `Machine.countStep_after`   — the counter, and whether the machine ticks, by these steps.
* `Machine.paced`, `pacedAll` — the calls of such a host, in place of one call and of a history.
* `Machine.InPace`            — a machine that ticks itself and one that its host ticks, in step.
* `InPace.perform`, `InPace.performAll` — each call and every history keeps them so, with the same
  answers and beeps.
* `perStep_paced_by_host`     — from two new machines.
-/

namespace ChipEight

/-- The steps since the machine last started over, after one more call: a step counts, and so does
waiting, but nothing that fails does. -/
def stepsAfter (steps : Nat) (call : Call) : Except Error Answer → Nat
  | .error _ => steps
  | .ok (.step _) => steps + 1
  | .ok _ => if call.restarts then 0 else steps

/-- Whether a call was a step, and with it the steps come to a multiple of `n`. -/
def tickDue (n steps : Nat) : Except Error Answer → Bool
  | .ok (.step _) => (steps + 1) % n = 0
  | _ => false

namespace Machine

/-- Where the counter stands between two ticks, one step more moves it there again: back to 0, with
a tick, just where the steps come to a multiple of `n`. -/
theorem countStep_after (m : Machine) {n steps : Nat} (hn : m.config.stepsPerTick = some n)
    (hsince : m.sinceTick = steps % n) :
    m.countStep =
      if (steps + 1) % n = 0 then { m with sinceTick := (steps + 1) % n }.tickTimers
      else ({ m with sinceTick := (steps + 1) % n }, [], []) := by
  have hpos := stepsPerTick_pos m.config
  rw [hn] at hpos
  have hlt : steps % n < n := Nat.mod_lt steps hpos
  rw [← Nat.mod_add_mod, ← hsince]
  by_cases hle : n ≤ m.sinceTick + 1
  · have hself : m.sinceTick + 1 = n := by omega
    rw [m.countStep_due hn hle, hself, Nat.mod_self, if_pos rfl]
  · have hsmall : (m.sinceTick + 1) % n = m.sinceTick + 1 := Nat.mod_eq_of_lt (by omega)
    rw [m.countStep_early hn hle, hsmall, if_neg (by omega)]

/-- The calls that a host makes in place of one: a tick comes right after every `n`-th step. -/
def paced (m : Machine) (n steps : Nat) (call : Call) : List Call :=
  if tickDue n steps (m.perform call).value then [call, .tick] else [call]

def pacedAll (m : Machine) (n steps : Nat) : List Call → List (List Call)
  | [] => []
  | call :: rest =>
    let block := m.paced n steps call
    block :: (m.after block).pacedAll n (stepsAfter steps call (m.perform call).value) rest

/-- The replies to blocks of calls, one after the other. -/
def performEach (m : Machine) : List (List Call) → List (List (Reply (Except Error Answer)))
  | [] => []
  | block :: rest => m.performAll block :: (m.after block).performEach rest

theorem performEach_flatten (m : Machine) (blocks : List (List Call)) :
    (m.performEach blocks).flatten = m.performAll blocks.flatten := by
  induction blocks generalizing m with
  | nil => rfl
  | cons block rest ih =>
    rw [performEach, List.flatten_cons, List.flatten_cons, performAll_append, ih]

/-- A machine that ticks itself every `n` steps and one that its host ticks. The counter of the one
is where the steps stand between two ticks of the other; the rest of them is the same. -/
structure InPace (n steps : Nat) (p q : Machine) : Prop where
  own : p.config.stepsPerTick = some n
  host : q.config.stepsPerTick = none
  ready : p.ready = q.ready
  computer : p.computer = q.computer
  sinceTick : p.sinceTick = steps % n

variable {n steps : Nat} {p q : Machine}

theorem paced_other (m : Machine) (n steps : Nat) {call : Call} (hs : call ≠ .step) :
    m.paced n steps call = [call] := by
  unfold paced tickDue
  split
  case h_1 s hv => exact absurd hv (m.perform_other_value hs s)
  case h_2 => rfl

theorem head?_performAll_paced (m : Machine) (n steps : Nat) (call : Call) :
    (m.performAll (m.paced n steps call)).head? = some (m.perform call) := by
  unfold paced
  split <;> rfl

namespace InPace

theorem resetComponents (h : InPace n steps p q) :
    InPace n 0 p.resetComponents q.resetComponents where
  own := h.own
  host := h.host
  ready := h.ready
  computer := by
    unfold Machine.resetComponents
    rw [h.computer]
  sinceTick := (Nat.zero_mod n).symm

theorem tickTimers (h : InPace n steps p q) :
    InPace n steps p.tickTimers.1 q.tickTimers.1 ∧ p.tickTimers.2.1 = q.tickTimers.2.1 := by
  unfold Machine.tickTimers
  rw [h.computer]
  exact ⟨{ h with computer := rfl }, rfl⟩

theorem perform_other (h : InPace n steps p q) {call : Call} (hs : call ≠ .step) :
    (p.perform call).value = (q.perform call).value ∧
      (p.perform call).beeps = (q.perform call).beeps ∧
      InPace n (stepsAfter steps call (q.perform call).value) (p.perform call).machine
        (q.perform call).machine := by
  have hreset := h.resetComponents
  cases call with
  | step => exact absurd rfl hs
  | makeReady =>
    rw [perform_makeReady, perform_makeReady, h.ready]
    cases hr : q.ready with
    | true => exact ⟨rfl, rfl, h⟩
    | false => exact ⟨rfl, rfl, { hreset with ready := rfl }⟩
  | reset => exact ⟨rfl, rfl, { hreset with ready := rfl }⟩
  | load rom =>
    rw [perform_load, perform_load, h.ready]
    cases hr : q.ready with
    | true =>
      rw [if_pos rfl, if_pos rfl, hreset.computer]
      by_cases hrom : Memory.capacity < rom.length
      · rw [if_pos hrom, if_pos hrom]
        exact ⟨rfl, rfl, h⟩
      · rw [if_neg hrom, if_neg hrom]
        exact ⟨rfl, rfl, { hreset with computer := rfl }⟩
    | false => exact ⟨rfl, rfl, h⟩
  | tick =>
    rw [perform_tick, perform_tick, h.ready]
    cases hr : q.ready with
    | true => exact ⟨rfl, h.tickTimers.2, h.tickTimers.1⟩
    | false => exact ⟨rfl, rfl, h⟩
  | setKey key down =>
    rw [perform_setKey, perform_setKey, h.computer]
    cases q.computer.keypad.set key down with
    | error e => exact ⟨rfl, rfl, h⟩
    | ok r =>
      obtain ⟨keypad, edge⟩ := r
      exact ⟨rfl, rfl, { h with computer := rfl }⟩
  | takeFrame =>
    rw [perform_takeFrame, perform_takeFrame, h.computer]
    exact ⟨rfl, rfl, { h with computer := rfl }⟩
  | fetch =>
    rw [perform_fetch, perform_fetch, h.computer, h.ready]
    cases hr : q.ready with
    | true => exact ⟨rfl, rfl, h⟩
    | false => exact ⟨rfl, rfl, h⟩
  | programListing =>
    have hlisting : p.programListing = q.programListing :=
      congrArg (·.memory.programListing) h.computer
    exact ⟨congrArg (fun text => Except.ok (Answer.listing text)) hlisting, rfl, h⟩

theorem countStep_due (h : InPace n steps p q) (hdue : (steps + 1) % n = 0) :
    InPace n (steps + 1) p.countStep.1 q.tickTimers.1 ∧
      p.countStep.2.1 = q.tickTimers.2.1 := by
  have hcounted : InPace n (steps + 1) { p with sinceTick := (steps + 1) % n } q :=
    { h with sinceTick := rfl }
  rw [p.countStep_after h.own h.sinceTick, if_pos hdue]
  exact hcounted.tickTimers

theorem countStep_early (h : InPace n steps p q) (hearly : (steps + 1) % n ≠ 0) :
    InPace n (steps + 1) p.countStep.1 q ∧ p.countStep.2.1 = [] := by
  rw [p.countStep_after h.own h.sinceTick, if_neg hearly]
  exact ⟨{ h with sinceTick := rfl }, rfl⟩

/-- Both refuse to step, or both can. -/
theorem step_cases (h : InPace n steps p q) :
    (∃ e, p.perform .step = { value := .error e, machine := p } ∧
      q.perform .step = { value := .error e, machine := q }) ∨
    q.ready = true ∧ ∃ s computer log, q.computer.step = .ok (s, computer, log) := by
  by_cases hr : q.ready = true
  · have hp := h.ready.trans hr
    cases hs : q.computer.step with
    | error e =>
      exact .inl ⟨e, p.perform_step_error hp (h.computer ▸ hs), q.perform_step_error hr hs⟩
    | ok r => exact .inr ⟨hr, r.1, r.2.1, r.2.2, rfl⟩
  · have hp : ¬ p.ready = true := h.ready ▸ hr
    exact .inl ⟨.notReady, p.perform_step_notReady hp, q.perform_step_notReady hr⟩

theorem perform_step (h : InPace n steps p q) :
    (p.perform .step).value = (q.perform .step).value ∧
      (p.perform .step).beeps = (q.performAll (q.paced n steps .step)).flatMap (·.beeps) ∧
      InPace n (stepsAfter steps .step (q.perform .step).value) (p.perform .step).machine
        (q.after (q.paced n steps .step)) := by
  rcases h.step_cases with ⟨e, hp, hq⟩ | ⟨hr, s, computer, log, hs⟩
  · have hblock : q.paced n steps .step = [.step] := by
      simp only [paced, tickDue, hq, Bool.false_eq_true, if_false]
    rw [hblock, hp, performAll, performAll, after, List.foldl_cons, List.foldl_nil, hq]
    exact ⟨rfl, rfl, h⟩
  · have hstepped : InPace n steps { p with computer } { q with computer } :=
      { h with computer := rfl }
    have hp := p.perform_step_ok (h.ready.trans hr) (h.computer ▸ hs)
    have hq := q.perform_step_ok hr hs
    rw [countStep_host { q with computer } h.host] at hq
    have htick := perform_tick_ok { q with computer } hr
    by_cases hdue : (steps + 1) % n = 0
    · obtain ⟨hnext, hbeeps⟩ := hstepped.countStep_due hdue
      have hblock : q.paced n steps .step = [.step, .tick] := by
        simp only [paced, tickDue, hq, hdue, decide_true, if_true]
      rw [hblock]
      simp only [hp, hq, performAll, after, htick, List.foldl_cons, List.foldl_nil, true_and]
      refine ⟨?_, hnext⟩
      simp [hbeeps]
    · obtain ⟨hnext, hbeeps⟩ := hstepped.countStep_early hdue
      have hblock : q.paced n steps .step = [.step] := by
        simp only [paced, tickDue, hq, hdue, decide_false, Bool.false_eq_true, if_false]
      rw [hblock]
      simp only [hp, hq, performAll, after, List.foldl_cons, List.foldl_nil, true_and]
      refine ⟨?_, hnext⟩
      simp [hbeeps]

theorem perform (h : InPace n steps p q) (call : Call) :
    (p.perform call).value = (q.perform call).value ∧
      (p.perform call).beeps = (q.performAll (q.paced n steps call)).flatMap (·.beeps) ∧
      InPace n (stepsAfter steps call (q.perform call).value) (p.perform call).machine
        (q.after (q.paced n steps call)) := by
  by_cases hs : call = .step
  · subst hs
    exact h.perform_step
  · obtain ⟨hvalue, hbeeps, hnext⟩ := h.perform_other hs
    rw [paced_other q n steps hs]
    refine ⟨hvalue, ?_, hnext⟩
    simp [performAll, hbeeps]

theorem performAll (h : InPace n steps p q) (calls : List Call) :
    let blocks := q.pacedAll n steps calls
    (p.performAll calls).map (fun r => (some r.value, r.beeps)) =
        (q.performEach blocks).map (fun rs => (rs.head?.map (·.value), rs.flatMap (·.beeps))) ∧
      ∃ steps', InPace n steps' (p.after calls) (q.after blocks.flatten) := by
  induction calls generalizing steps p q with
  | nil => exact ⟨rfl, steps, h⟩
  | cons call rest ih =>
    obtain ⟨hvalue, hbeeps, hnext⟩ := h.perform call
    obtain ⟨hreplies, steps', hafter⟩ := ih hnext
    intro blocks
    refine ⟨?_, steps', ?_⟩
    · simp only [blocks, pacedAll, Machine.performAll, performEach, List.map_cons, hreplies,
        head?_performAll_paced, hvalue, hbeeps, Option.map_some]
    · simp only [blocks, pacedAll, List.flatten_cons, after_append]
      exact hafter

end InPace

/-- A machine with its own timing of `n` steps, where 0 counts as 1, and one of the same seed that
its host ticks right after every `n`-th step, answer every history alike, ask for the same beeps at
each call, and have the same state after it, up to the configuration and the counter. -/
theorem perStep_paced_by_host (n : UInt32) (seed : Option UInt64) (entropy : Random.Key)
    (calls : List Call) :
    let p := create { timing := .perStep n, seed } entropy
    let q := create { timing := .host, seed } entropy
    let blocks := q.pacedAll (max n.toNat 1) 0 calls
    (q.performEach blocks).flatten = q.performAll blocks.flatten ∧
    (p.performAll calls).map (fun r => (some r.value, r.beeps)) =
      (q.performEach blocks).map (fun rs => (rs.head?.map (·.value), rs.flatMap (·.beeps))) ∧
    (p.after calls).ready = (q.after blocks.flatten).ready ∧
    (p.after calls).computer = (q.after blocks.flatten).computer := by
  intro p q blocks
  have hstart : InPace (max n.toNat 1) 0 p q :=
    ⟨rfl, rfl, rfl, rfl, (Nat.zero_mod _).symm⟩
  obtain ⟨hreplies, steps, hafter⟩ := hstart.performAll calls
  exact ⟨q.performEach_flatten blocks, hreplies, hafter.ready, hafter.computer⟩

end Machine
end ChipEight
