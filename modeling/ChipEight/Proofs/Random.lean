import ChipEight.Proofs.Footprint

/-!
# ChipEight.Proofs.Random

The random stream of a machine. Only CXNN takes from it, a byte each time, and nothing rewinds it.

* `Random.upcoming` — the bytes still to come.
* `random_after`    — the stream after a history: so many bytes on as it executed CXNN.
* `randomDraws_upcoming` — each CXNN of a history leaves the next byte, under its mask.
* `seeded_stream_law` — both, for a machine with a seed.
* `Machine.Twins`   — machines that are the same up to their streams, which go on alike.
* `Twins.perform`, `Twins.performAll` — each call and every history keeps them so, with the same
  replies.
-/

namespace ChipEight
namespace Random

/-- The bytes still to come. -/
def upcoming (r : Random) (k : Nat) : Byte := byte r.key (r.drawn + k)

/-- The stream behind a byte, where one is taken. -/
def past (r : Random) (draws : Bool) : Random := if draws then r.next.2 else r

theorem next_fst (r : Random) : r.next.1 = r.upcoming 0 := rfl

theorem upcoming_next (r : Random) (k : Nat) : r.next.2.upcoming k = r.upcoming (k + 1) := by
  show byte r.key (r.drawn + 1 + k) = byte r.key (r.drawn + (k + 1))
  rw [Nat.add_assoc, Nat.add_comm 1 k]

theorem upcoming_past {r s : Random} (h : ∀ k, r.upcoming k = s.upcoming k) (draws : Bool)
    (k : Nat) : (r.past draws).upcoming k = (s.past draws).upcoming k := by
  cases draws with
  | false => exact h k
  | true =>
    show r.next.2.upcoming k = s.next.2.upcoming k
    rw [upcoming_next, upcoming_next, h]

end Random

/-- Whether a step took a random byte. -/
def Step.draws : Step → Bool
  | .executed i => i.usesRandom
  | .waiting => false

/-- Whether a call took a random byte, by its outcome. -/
def draws : Except Error Answer → Bool
  | .ok (.step s) => s.draws
  | _ => false

/-- The register and the mask of the CXNN that a call executed, by its outcome. -/
def randomOperands : Except Error Answer → Option (Register × Byte)
  | .ok (.step (.executed (.random x mask))) => some (x, mask)
  | _ => none

theorem value_of_randomOperands {value : Except Error Answer} {x : Register} {mask : Byte}
    (h : randomOperands value = some (x, mask)) :
    value = .ok (.step (.executed (.random x mask))) := by
  unfold randomOperands at h
  split at h
  case h_1 =>
    cases h
    rfl
  case h_2 => cases h

theorem draws_eq (value : Except Error Answer) : draws value = (randomOperands value).isSome := by
  unfold draws randomOperands
  split
  case h_1 s =>
    cases s with
    | waiting => rfl
    | executed i => cases i <;> rfl
  case h_2 hother =>
    split
    case h_1 x mask => exact absurd rfl (hother _)
    case h_2 => rfl

namespace Computer

variable (c : Computer) {random : Random}

def withRandom (random : Random) : Computer := c.withCpu ({ · with random })

theorem execute_random (i : Instruction) :
    (c.execute i).cpu.random = c.cpu.random.past i.usesRandom := by
  cases i with
  | skip condition =>
    show (c.cpu.skip _).random = c.cpu.random
    cases condition.holds c <;> rfl
  | arith op x y =>
    show (c.cpu.setResult x _).random = c.cpu.random
    obtain ⟨value, f | f⟩ := op.apply (c.cpu.register x) (c.cpu.register y) <;> rfl
  | _ => rfl

theorem step_random {s : Step} {c' : Computer} {log : List Record}
    (hs : c.step = .ok (s, c', log)) : c'.cpu.random = c.cpu.random.past s.draws := by
  obtain ⟨rfl, rfl⟩ | ⟨i, -, -, rfl, rfl⟩ := c.step_cases hs
  · rfl
  · exact execute_random _ i

theorem execute_withRandom (h : ∀ k, c.cpu.random.upcoming k = random.upcoming k)
    (i : Instruction) :
    (c.withRandom random).execute i = (c.execute i).withRandom (random.past i.usesRandom) := by
  cases i with
  | random x mask =>
    have hbyte : random.next.1 = c.cpu.random.next.1 := by
      rw [Random.next_fst, Random.next_fst, h]
    simp only [execute, withRandom, withCpu, hbyte]
    rfl
  | skip condition =>
    have hholds : condition.holds (c.withRandom random) = condition.holds c := by
      cases condition <;> rfl
    rw [execute, hholds, execute]
    cases condition.holds c <;> rfl
  | arith op x y =>
    have hresult : ∀ result : Byte × Option Bool, { c.cpu with random }.setResult x result =
        { c.cpu.setResult x result with random } := by
      rintro ⟨value, f | f⟩ <;> rfl
    exact congrArg (fun cpu => { c with cpu }) (hresult _)
  | _ => rfl

/-- A step on another stream that goes on alike. -/
theorem step_withRandom (h : ∀ k, c.cpu.random.upcoming k = random.upcoming k) :
    (c.withRandom random).step =
      c.step.map fun (s, c', log) => (s, c'.withRandom (random.past s.draws), log) := by
  refine step_map c (f := (·.withRandom random))
    (g := fun s => (·.withRandom (random.past s.draws))) rfl rfl rfl fun i _ _ => ?_
  have hexecute := c.pastOpcode.execute_withRandom h i
  have hremarks : i.remarks { c.cpu with random, pc := c.cpu.pc + 2 } =
      i.remarks { c.cpu with pc := c.cpu.pc + 2 } := remarks_congr rfl rfl i
  exact Prod.ext hexecute (congrArg (_ :: ·) hremarks)

end Computer

namespace Machine

variable (m : Machine) {random : Random}

/-! ## Where a history leaves the stream -/

theorem draws_other {call : Call} (hs : call ≠ .step) : draws (m.perform call).value = false := by
  unfold draws
  split
  case h_1 s hv => exact absurd hv (m.perform_other_value hs s)
  case h_2 => rfl

theorem perform_other_random {call : Call} (hs : call ≠ .step) :
    (m.perform call).machine.computer.cpu.random = m.computer.cpu.random := by
  cases hc : call.restarts with
  | true =>
    obtain hm | ⟨ready, memory, hm⟩ := m.perform_restart_frame hc
    · rw [hm]
    · rw [hm]
      rfl
  | false =>
    obtain ⟨v, awaiting, delay, sound, screen, keypad, hm⟩ := m.perform_other_frame hc hs
    rw [hm]

theorem perform_random (call : Call) :
    (m.perform call).machine.computer.cpu.random =
      m.computer.cpu.random.past (draws (m.perform call).value) := by
  by_cases hs : call = .step
  · subst hs
    obtain ⟨e, he⟩ | ⟨s, computer, log, sinceTick, delay, sound, hs, hv, hm⟩ := m.perform_step_cases
    · rw [he]
      rfl
    · have hstream := m.computer.step_random hs
      rw [hm, hv]
      exact hstream
  · rw [m.draws_other hs, m.perform_other_random hs]
    rfl

/-- How many calls of a history executed CXNN. -/
def randomBytes (calls : List Call) : Nat := (m.performAll calls).countP (draws ·.value)

theorem random_after (calls : List Call) :
    (m.after calls).computer.cpu.random =
      { m.computer.cpu.random with
        drawn := m.computer.cpu.random.drawn + m.randomBytes calls } := by
  induction calls generalizing m with
  | nil => rfl
  | cons call rest ih =>
    have hfirst := m.perform_random call
    rw [after, List.foldl_cons, ← after, ih, hfirst, randomBytes, randomBytes, performAll,
      List.countP_cons]
    cases draws (m.perform call).value with
    | false => rfl
    | true =>
      have hcount : ∀ d n : Nat, d + 1 + n = d + (n + 1) := by omega
      exact congrArg (Random.mk m.computer.cpu.random.key) (hcount _ _)

/-! ## What a history takes from the stream -/

/-- The mask of each CXNN that a history executed, with what the call left in its register. -/
def randomDraws (calls : List Call) : List (Byte × Byte) :=
  (m.performAll calls).filterMap fun r =>
    (randomOperands r.value).map fun (x, mask) => (mask, r.machine.computer.cpu.register x)

theorem length_randomDraws (calls : List Call) :
    (m.randomDraws calls).length = m.randomBytes calls := by
  unfold randomDraws randomBytes
  rw [List.length_filterMap_eq_countP]
  simp only [Option.isSome_map, draws_eq]

/-- CXNN leaves the next byte of the stream in its register, under its mask. -/
theorem register_of_random {call : Call} {x : Register} {mask : Byte}
    (h : randomOperands (m.perform call).value = some (x, mask)) :
    (m.perform call).machine.computer.cpu.register x =
      m.computer.cpu.random.upcoming 0 &&& mask := by
  have hv := value_of_randomOperands h
  cases m.call_of_step hv
  obtain ⟨sinceTick, delay, sound, hm⟩ := m.perform_executed hv
  rw [hm]
  exact (Bank.read_write _ _ _ _).trans (if_pos rfl)

theorem randomDraws_upcoming {calls : List Call} {k : Nat} {mask value : Byte}
    (h : (m.randomDraws calls)[k]? = some (mask, value)) :
    value = m.computer.cpu.random.upcoming k &&& mask := by
  induction calls generalizing m k with
  | nil => cases h
  | cons call rest ih =>
    have hstream := m.perform_random call
    rw [draws_eq] at hstream
    rw [randomDraws, performAll, List.filterMap_cons] at h
    cases hop : randomOperands (m.perform call).value with
    | none =>
      rw [hop] at h hstream
      rw [ih _ h, hstream]
      rfl
    | some operands =>
      obtain ⟨x, nn⟩ := operands
      rw [hop] at h hstream
      cases k with
      | zero =>
        cases h
        exact m.register_of_random hop
      | succ k =>
        rw [ih _ h, hstream]
        exact congrArg (· &&& mask) (Random.upcoming_next _ k)

/-- A machine with a seed: the CXNN executed `k`-th since it was made leaves byte `k` of the seed's
stream in its register, under its mask, and the stream stands behind as many bytes as CXNN were
executed. A call that executes none leaves it where it is. -/
theorem seeded_stream_law (timing : Timing) (s : UInt64) (entropy : Random.Key)
    (calls : List Call) :
    let start := create { timing, seed := some s } entropy
    (∀ k mask value, (start.randomDraws calls)[k]? = some (mask, value) →
      value = Random.byte (.ofSeed s) k &&& mask) ∧
    (start.after calls).computer.cpu.random = ⟨.ofSeed s, (start.randomDraws calls).length⟩ ∧
    ∀ call, randomOperands ((start.after calls).perform call).value = none →
      ((start.after calls).perform call).machine.computer.cpu.random =
        (start.after calls).computer.cpu.random := by
  intro start
  refine ⟨?_, ?_, ?_⟩
  · intro k mask value h
    rw [start.randomDraws_upcoming h]
    exact congrArg (Random.byte (.ofSeed s) · &&& mask) (Nat.zero_add k)
  · rw [start.random_after calls, start.length_randomDraws]
    exact congrArg (Random.mk (.ofSeed s)) (Nat.zero_add _)
  · intro call hcall
    rw [perform_random, draws_eq, hcall]
    rfl

/-! ## Streams that go on alike -/

def withRandom (random : Random) : Machine :=
  { m with computer := m.computer.withRandom random }

theorem countStep_withRandom (random : Random) :
    (m.withRandom random).countStep = (m.countStep.1.withRandom random, m.countStep.2) :=
  m.countStep_map (f := (·.withRandom random)) (fun _ => rfl) fun _ => rfl

theorem keyEdgeCpu_withRandom (random : Random) (cpu : Cpu) (key : Byte) (edge : Option KeyEdge) :
    keyEdgeCpu { cpu with random } key edge =
      ({ (keyEdgeCpu cpu key edge).1 with random }, (keyEdgeCpu cpu key edge).2) := by
  obtain ⟨v, index, pc, sp, stack, delay, sound, awaiting, _⟩ := cpu
  rcases edge with _ | k | k
  · rfl
  · cases awaiting <;> rfl
  · rfl

theorem perform_step_withRandom (h : ∀ k, m.computer.cpu.random.upcoming k = random.upcoming k) :
    (m.withRandom random).perform .step =
      { m.perform .step with
        machine :=
          (m.perform .step).machine.withRandom (random.past (draws (m.perform .step).value)) } := by
  let moved := m.withRandom random
  by_cases hr : m.ready = true
  · have hmoved := m.computer.step_withRandom h
    cases hstep : m.computer.step with
    | error e =>
      rw [hstep] at hmoved
      rw [m.perform_step_error hr hstep, moved.perform_step_error hr hmoved]
      rfl
    | ok r =>
      obtain ⟨s, computer, log⟩ := r
      rw [hstep] at hmoved
      have hcount := countStep_withRandom { m with computer } (random.past s.draws)
      rw [m.perform_step_ok hr hstep, moved.perform_step_ok hr hmoved]
      exact congrArg
        (fun r => Reply.mk (Except.ok (Answer.step s)) r.1 r.2.1 (log ++ r.2.2)) hcount
  · rw [m.perform_step_notReady hr, moved.perform_step_notReady hr]
    rfl

theorem perform_other_withRandom {call : Call} (hs : call ≠ .step) :
    (m.withRandom random).perform call =
      { m.perform call with machine := (m.perform call).machine.withRandom random } := by
  let moved := m.withRandom random
  have hready : moved.ready = m.ready := rfl
  cases call with
  | step => exact absurd rfl hs
  | makeReady =>
    rw [m.perform_makeReady, moved.perform_makeReady, hready]
    cases m.ready <;> rfl
  | reset => rfl
  | load rom =>
    rw [m.perform_load, moved.perform_load, hready]
    cases m.ready with
    | false => rfl
    | true =>
      by_cases hrom : Memory.capacity < rom.length
      · rw [if_pos rfl, if_pos rfl, if_pos hrom, if_pos hrom]
      · rw [if_pos rfl, if_pos rfl, if_neg hrom, if_neg hrom]
        rfl
  | tick =>
    rw [m.perform_tick, moved.perform_tick, hready]
    cases m.ready <;> rfl
  | setKey key down =>
    cases hset : m.computer.keypad.set key down with
    | error e =>
      rw [m.perform_setKey_error hset, moved.perform_setKey_error hset]
    | ok r =>
      obtain ⟨keypad, edge⟩ := r
      have hcpu := keyEdgeCpu_withRandom random m.computer.cpu key edge
      rw [m.perform_setKey_ok hset, moved.perform_setKey_ok hset]
      exact congrArg
        (fun r => Reply.mk (Except.ok (Answer.edge edge))
          { m with computer := { m.computer with cpu := r.1, keypad } } []
          (edge.toList.map .keyEdge ++ r.2)) hcpu
  | takeFrame => rfl
  | fetch =>
    rw [m.perform_fetch, moved.perform_fetch, hready]
    cases m.ready <;> rfl
  | programListing => rfl

/-- Another stream that goes on alike shows in no reply, and in the machine only as that stream. -/
theorem perform_withRandom (h : ∀ k, m.computer.cpu.random.upcoming k = random.upcoming k)
    (call : Call) :
    (m.withRandom random).perform call =
      { m.perform call with
        machine :=
          (m.perform call).machine.withRandom (random.past (draws (m.perform call).value)) } := by
  by_cases hs : call = .step
  · subst hs
    exact m.perform_step_withRandom h
  · rw [m.draws_other hs]
    exact m.perform_other_withRandom hs

/-- The other machine is this one with another stream, which goes on alike. -/
def Twins (a b : Machine) : Prop :=
  ∃ random, b = a.withRandom random ∧ ∀ k, a.computer.cpu.random.upcoming k = random.upcoming k

variable {a b : Machine}

theorem Twins.perform (h : a.Twins b) (call : Call) :
    (a.perform call).value = (b.perform call).value ∧
      (a.perform call).beeps = (b.perform call).beeps ∧
      (a.perform call).log = (b.perform call).log ∧
      (a.perform call).machine.Twins (b.perform call).machine := by
  obtain ⟨random, rfl, hupcoming⟩ := h
  rw [a.perform_withRandom hupcoming call]
  refine ⟨rfl, rfl, rfl, random.past (draws (a.perform call).value), rfl, ?_⟩
  rw [a.perform_random call]
  exact Random.upcoming_past hupcoming _

theorem Twins.performAll (h : a.Twins b) (calls : List Call) :
    (a.performAll calls).map (fun r => (r.value, r.beeps, r.log)) =
        (b.performAll calls).map (fun r => (r.value, r.beeps, r.log)) ∧
      (a.after calls).Twins (b.after calls) := by
  induction calls generalizing a b with
  | nil => exact ⟨rfl, h⟩
  | cons call rest ih =>
    obtain ⟨hvalue, hbeeps, hlog, hnext⟩ := h.perform call
    obtain ⟨hreplies, hafter⟩ := ih hnext
    refine ⟨?_, hafter⟩
    rw [Machine.performAll, Machine.performAll, List.map_cons, List.map_cons, hvalue, hbeeps, hlog,
      hreplies]

end Machine
end ChipEight
