import ChipEight.Proofs.Bare.Machine

/-!
# ChipEight.Proofs.Failure

When calls fail, and what a failure leaves behind.

* `Machine.Refuses` — the conditions under which a call must fail, each with its error.
* `Machine.Halted`  — a machine whose next opcode means nothing.
* `Machine.Idles`   — one machine is another up to timers, keys and the mark on the screen.
* `error_iff_refuses`  — a call fails just when it must.
* `Halted.after_idles` — a halted machine does no more than idle until it is started over.
* `bare_error_iff`     — in place, a failure leaves the machine as it was.
* `failures_exact`     — the three together, for every machine that calls can reach.
-/

namespace ChipEight
namespace Machine

/-- The failures that are due. `reset`, `takeFrame` and `programListing` have none. -/
inductive Refuses (m : Machine) : Call → Error → Prop where
  | makeReady (hr : m.ready = true) : Refuses m .makeReady .alreadyReady
  | load (rom : List Byte) (hr : m.ready = false) : Refuses m (.load rom) .notReady
  | tooLarge (rom : List Byte) (hr : m.ready = true) (hrom : 3584 < rom.length) :
      Refuses m (.load rom) (.romTooLarge rom.length 3584)
  | step (hr : m.ready = false) : Refuses m .step .notReady
  | invalid (hr : m.ready = true) (ha : m.computer.cpu.awaiting = none)
      (hw : ∀ t ∈ Template.all, ¬ t.Fits m.computer.fetch) :
      Refuses m .step
        (.invalidOpcode m.computer.fetch (.ofGroup m.computer.fetch.group))
  | tick (hr : m.ready = false) : Refuses m .tick .notReady
  | setKey (key : Byte) (down : Bool) (hk : 16 ≤ key.toNat) :
      Refuses m (.setKey key down) (.invalidKey key)
  | fetch (hr : m.ready = false) : Refuses m .fetch .notReady

variable {m : Machine}

/-- A refusal is an error and nothing else: no beep, no record, and the machine as it was. -/
theorem perform_refused {call : Call} {e : Error} (h : m.Refuses call e) :
    m.perform call = { value := .error e, machine := m } := by
  cases h with
  | makeReady hr => rw [perform_makeReady, if_pos hr]
  | load rom hr =>
    rw [perform_load, hr]
    rfl
  | tooLarge rom hr hrom =>
    have hcapacity : Memory.capacity < rom.length := hrom
    rw [perform_load, if_pos hr, if_pos hcapacity]
    rfl
  | step hr =>
    rw [perform_step, hr]
    rfl
  | invalid hr ha hw =>
    have hd := Instruction.decode_error_iff.mpr ⟨hw, rfl⟩
    rw [perform_step, if_pos hr, m.computer.step_invalid ha hd]
  | tick hr =>
    rw [perform_tick, hr]
    rfl
  | setKey key down hk =>
    rw [perform_setKey, Keypad.set, dif_neg (Nat.not_lt.mpr hk)]
  | fetch hr =>
    rw [perform_fetch, hr]
    rfl

/-- A call for machines that are ready fails on one that is not, or as it fails when it is. -/
theorem ready_error {r : Reply (Except Error Answer)} {e : Error}
    (h : (if m.ready then r else { value := .error .notReady, machine := m }).value = .error e) :
    (m.ready = true ∧ r.value = .error e) ∨ (m.ready = false ∧ e = .notReady) := by
  by_cases hr : m.ready = true
  · rw [if_pos hr] at h
    exact .inl ⟨hr, h⟩
  · rw [if_neg hr] at h
    cases h
    exact .inr ⟨Bool.eq_false_iff.mpr hr, rfl⟩

theorem refuses_of_value {call : Call} {e : Error} (h : (m.perform call).value = .error e) :
    m.Refuses call e := by
  cases call with
  | makeReady =>
    rw [perform_makeReady] at h
    by_cases hr : m.ready = true
    · rw [if_pos hr] at h
      cases h
      exact .makeReady hr
    · rw [if_neg hr] at h
      cases h
  | reset => cases h
  | load rom =>
    rw [perform_load] at h
    obtain ⟨hr, h⟩ | ⟨hr, rfl⟩ := ready_error h
    · by_cases hrom : Memory.capacity < rom.length
      · rw [if_pos hrom] at h
        cases h
        exact .tooLarge rom hr hrom
      · rw [if_neg hrom] at h
        cases h
    · exact .load rom hr
  | step =>
    rw [perform_step] at h
    obtain ⟨hr, h⟩ | ⟨hr, rfl⟩ := ready_error h
    · cases hs : m.computer.step with
      | ok r =>
        rw [hs] at h
        cases h
      | error e' =>
        rw [hs] at h
        cases h
        obtain ⟨ha, hd⟩ := m.computer.step_error_iff.mp hs
        obtain ⟨hw, rfl⟩ := Instruction.decode_error_iff.mp hd
        exact .invalid hr ha hw
    · exact .step hr
  | tick =>
    rw [perform_tick] at h
    obtain ⟨-, h⟩ | ⟨hr, rfl⟩ := ready_error h
    · cases h
    · exact .tick hr
  | setKey key down =>
    rw [perform_setKey, Keypad.set] at h
    by_cases hk : key.toNat < 16
    · rw [dif_pos hk] at h
      cases h
    · rw [dif_neg hk] at h
      cases h
      exact .setKey key down (Nat.le_of_not_lt hk)
  | takeFrame => cases h
  | fetch =>
    rw [perform_fetch] at h
    obtain ⟨-, h⟩ | ⟨hr, rfl⟩ := ready_error h
    · cases h
    · exact .fetch hr
  | programListing => cases h

theorem error_iff_refuses {call : Call} {e : Error} :
    (m.perform call).value = .error e ↔ m.Refuses call e :=
  ⟨refuses_of_value, fun h => congrArg Reply.value (perform_refused h)⟩

/-! ## Halted machines -/

/-- The word that the pc names means nothing, and the next step would look at it. -/
structure Halted (m : Machine) : Prop where
  ready : m.ready = true
  awaiting : m.computer.cpu.awaiting = none
  meaningless : ∀ t ∈ Template.all, ¬ t.Fits m.computer.fetch

/-- The other machine is this one, with the timers, the keys and the mark on the screen moved. -/
def Idles (m m' : Machine) : Prop :=
  ∃ delay sound changed keypad,
    m' =
      { m with
        computer :=
          { m.computer with
            cpu := { m.computer.cpu with delay, sound }
            screen := { m.computer.screen with changed }
            keypad } }

theorem Idles.refl (m : Machine) : m.Idles m :=
  ⟨m.computer.cpu.delay, m.computer.cpu.sound, m.computer.screen.changed, m.computer.keypad, rfl⟩

theorem Idles.trans {a b c : Machine} (hab : a.Idles b) (hbc : b.Idles c) : a.Idles c := by
  obtain ⟨delay, sound, changed, keypad, rfl⟩ := hab
  obtain ⟨delay', sound', changed', keypad', rfl⟩ := hbc
  exact ⟨delay', sound', changed', keypad', rfl⟩

theorem Idles.fetch {a b : Machine} (h : a.Idles b) : b.computer.fetch = a.computer.fetch := by
  obtain ⟨delay, sound, changed, keypad, rfl⟩ := h
  rfl

theorem Halted.of_idles {a b : Machine} (h : a.Halted) (hab : a.Idles b) : b.Halted := by
  have hfetch := hab.fetch
  obtain ⟨delay, sound, changed, keypad, rfl⟩ := hab
  refine ⟨h.ready, h.awaiting, ?_⟩
  rw [hfetch]
  exact h.meaningless

theorem halted_of_invalid {w : Word} {family : Family}
    (h : (m.perform .step).value = .error (.invalidOpcode w family)) :
    m.Halted ∧ m.computer.fetch = w := by
  cases refuses_of_value h with
  | invalid hr ha hw => exact ⟨⟨hr, ha, hw⟩, rfl⟩

theorem Halted.refuses (h : m.Halted) :
    m.Refuses .step (.invalidOpcode m.computer.fetch (.ofGroup m.computer.fetch.group)) :=
  .invalid h.ready h.awaiting h.meaningless

/-- A call that neither steps nor starts over does no more than idle, unless it ends a wait. -/
theorem perform_idles {call : Call} (hc : call.restarts = false) (hs : call ≠ .step)
    (hidle : ∀ k, (m.perform call).value = .ok (.edge (some (.pressed k))) →
      m.computer.cpu.awaiting = none) : m.Idles (m.perform call).machine := by
  cases call with
  | makeReady => cases hc
  | reset => cases hc
  | load rom => cases hc
  | step => exact absurd rfl hs
  | tick =>
    rw [perform_tick]
    split
    · exact ⟨_, _, m.computer.screen.changed, m.computer.keypad, rfl⟩
    · exact .refl m
  | setKey key down =>
    cases hset : m.computer.keypad.set key down with
    | error e =>
      rw [m.perform_setKey_error hset]
      exact .refl m
    | ok r =>
      obtain ⟨keypad, edge⟩ := r
      have hedge : ∀ k, edge = some (.pressed k) → m.computer.cpu.awaiting = none := by
        rintro k rfl
        apply hidle k
        rw [m.perform_setKey_ok hset]
      rw [m.perform_setKey_idle hset hedge]
      exact ⟨_, _, m.computer.screen.changed, keypad, rfl⟩
  | takeFrame => exact ⟨_, _, false, m.computer.keypad, rfl⟩
  | fetch =>
    rw [perform_fetch]
    split <;>
      exact .refl m
  | programListing => exact .refl m

/-- No call but one that starts over gets a halted machine to do more than idle. A key finds no
instruction that waits for it. -/
theorem Halted.perform_idles (h : m.Halted) {call : Call} (hc : call.restarts = false) :
    m.Idles (m.perform call).machine := by
  by_cases hs : call = .step
  · subst hs
    rw [perform_refused h.refuses]
    exact .refl m
  · exact Machine.perform_idles hc hs fun _ _ => h.awaiting

theorem Halted.after_idles (h : m.Halted) {calls : List Call}
    (hc : ∀ call ∈ calls, call.restarts = false) : m.Idles (m.after calls) := by
  induction calls generalizing m with
  | nil => exact .refl m
  | cons call rest ih =>
    have hfirst := h.perform_idles (hc call List.mem_cons_self)
    have hrest := ih (h.of_idles hfirst) fun call hcall => hc call (List.mem_cons_of_mem _ hcall)
    exact hfirst.trans hrest

/-! ## Failures in place -/

/-- In place, a call that fails has left every part of the machine, the tone included, alone. -/
theorem bare_error_iff {T : Type} (request : Byte → T → T) (tone : T) (h : m.WellFormed)
    {call : Call} {e : Error} {b : Bare.Machine T} :
    (Bare.Machine.of m tone).perform request call = .ok (.error e, b) ↔
      m.Refuses call e ∧ b = .of m tone := by
  rw [Bare.Machine.perform_ok request tone h call]
  constructor
  · intro hperform
    have hreply := Except.ok.inj hperform
    have hvalue : (m.perform call).value = .error e := by
      have hmap := congrArg Prod.fst hreply
      cases hv : (m.perform call).value with
      | error e' =>
        rw [Bare.Machine.ofReply, hv] at hmap
        cases hmap
        rfl
      | ok answer =>
        rw [Bare.Machine.ofReply, hv] at hmap
        cases hmap
    have hrefuses := refuses_of_value hvalue
    rw [perform_refused hrefuses] at hreply
    exact ⟨hrefuses, (congrArg Prod.snd hreply).symm⟩
  · rintro ⟨hrefuses, rfl⟩
    rw [perform_refused hrefuses]
    rfl

/-- Calls fail just when they must. In place, a failure comes with the machine as it was. A machine
that met an opcode that means nothing gives that error at every later step, until it is started
over, and idles. -/
theorem failures_exact {T : Type} (request : Byte → T → T) (tone : T) (config : Config)
    (entropy : Random.Key) (history : List Call) :
    let m := (create config entropy).after history
    (∀ call e, (m.perform call).value = .error e ↔ m.Refuses call e) ∧
    (∀ answers b, Bare.Machine.run request config entropy tone history = .ok (answers, b) →
      ∀ call e b', b.perform request call = .ok (.error e, b') ↔ m.Refuses call e ∧ b' = b) ∧
    ∀ w family, (m.perform .step).value = .error (.invalidOpcode w family) →
      ∀ calls, (∀ call ∈ calls, call.restarts = false) →
        ((m.after calls).perform .step).value = .error (.invalidOpcode w family) ∧
        ((m.after calls).perform .fetch).value = .ok (.opcode w) ∧
        m.Idles (m.after calls) := by
  intro m
  have hwell : m.WellFormed := after_wellFormed (create_wellFormed config entropy) history
  refine ⟨fun call e => error_iff_refuses, ?_, ?_⟩
  · intro answers b hrun call e b'
    rw [Bare.Machine.run_ok] at hrun
    cases hrun
    exact bare_error_iff request _ hwell
  · intro w family herror calls hcalls
    obtain ⟨hhalted, hw⟩ := halted_of_invalid herror
    have hidles := hhalted.after_idles hcalls
    have hlater := hhalted.of_idles hidles
    refine ⟨?_, ?_, hidles⟩
    · rw [perform_refused hlater.refuses, hidles.fetch, ← herror,
        perform_refused hhalted.refuses]
    · rw [perform_fetch, if_pos hlater.ready, hidles.fetch, hw]

end Machine
end ChipEight
