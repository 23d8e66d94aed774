import ChipEight.Proofs.Failure
import ChipEight.Proofs.Footprint

/-!
# ChipEight.Proofs.KeyWait

FX0A, from the step that executes it to the key that ends its wait, and behind it.

* `Machine.Uninterrupted` — a history in which nothing starts over.
* `Machine.Rests`         — one machine is another up to timers, counted steps, keys and the mark on
  the screen.
* `Poised.after_rests`    — a machine that waits rests until a key is pressed.
* `isDown_after`          — a key is where the history moved it last.
* `Poised.press`          — the press that ends the wait.
* `key_wait_protocol`     — the whole of it.
-/

namespace ChipEight

/-- Whether a call gave a press edge, by its outcome. -/
def presses : Except Error Answer → Bool
  | .ok (.edge (some (.pressed _))) => true
  | _ => false

theorem eq_of_presses {value : Except Error Answer} (h : presses value = true) :
    ∃ digit, value = .ok (.edge (some (.pressed digit))) := by
  unfold presses at h
  split at h
  case h_1 digit => exact ⟨digit, rfl⟩
  case h_2 => cases h

/-- Whether a call executed FX0A, by its outcome. -/
def awaits : Except Error Answer → Bool
  | .ok (.step (.executed (.awaitKey _))) => true
  | _ => false

/-- Where a call leaves a key, if it is not refused. -/
def Call.level (key : Byte) (down : Bool) : Call → Bool
  | .setKey k down' => if k = key then down' else down
  | _ => down

def Call.levels (key : Byte) (down : Bool) (calls : List Call) : Bool :=
  calls.foldl (fun down call => call.level key down) down

namespace Machine

/-- No call of a history starts the machine over: those that would are refused. -/
def Uninterrupted (m : Machine) : List Call → Prop
  | [] => True
  | call :: rest =>
    (call.restarts = true → (m.perform call).value.toOption = none) ∧
      (m.perform call).machine.Uninterrupted rest

instance decidableUninterrupted : (m : Machine) → (calls : List Call) →
    Decidable (m.Uninterrupted calls)
  | _, [] => .isTrue trivial
  | m, call :: rest =>
    have := decidableUninterrupted (m.perform call).machine rest
    inferInstanceAs (Decidable (_ ∧ _))

/-- The other machine is this one, with the timers, the counted steps, the keys and the mark on the
screen moved. -/
def Rests (m m' : Machine) : Prop := ∃ sinceTick, Idles { m with sinceTick } m'

/-- The machine past its next opcode, with these registers, waiting for a key or not. -/
def passed (m : Machine) (v : Bank Byte) (awaiting : Option Register) : Machine :=
  { m with computer := m.computer.withCpu fun cpu => { cpu with v, pc := cpu.pc + 2, awaiting } }

/-- A machine that can step, and waits for a key, to store it in a register, or for none. -/
structure Poised (awaiting : Option Register) (m : Machine) : Prop where
  ready : m.ready = true
  awaiting : m.computer.cpu.awaiting = awaiting

variable {m : Machine} {x : Register}

theorem Idles.rests {m' : Machine} (h : m.Idles m') : m.Rests m' := ⟨m.sinceTick, h⟩

theorem Rests.refl (m : Machine) : m.Rests m := (Idles.refl m).rests

theorem Rests.trans {a b c : Machine} (hab : a.Rests b) (hbc : b.Rests c) : a.Rests c := by
  obtain ⟨_, delay, sound, changed, keypad, rfl⟩ := hab
  obtain ⟨sinceTick, delay', sound', changed', keypad', rfl⟩ := hbc
  exact ⟨sinceTick, delay', sound', changed', keypad', rfl⟩

theorem Rests.fetch {a b : Machine} (h : a.Rests b) : b.computer.fetch = a.computer.fetch := by
  obtain ⟨sinceTick, hidles⟩ := h
  exact hidles.fetch

theorem perform_failed {call : Call} (h : (m.perform call).value.toOption = none) :
    (m.perform call).machine = m := by
  cases hv : (m.perform call).value with
  | error e => rw [perform_refused (refuses_of_value hv)]
  | ok answer =>
    rw [hv] at h
    cases h

theorem Poised.of_rests {awaiting : Option Register} {m' : Machine} (h : m.Poised awaiting)
    (hrests : m.Rests m') : m'.Poised awaiting := by
  obtain ⟨sinceTick, delay, sound, changed, keypad, rfl⟩ := hrests
  exact ⟨h.ready, h.awaiting⟩

/-! ## While it waits -/

theorem Poised.step_value (h : m.Poised (some x)) :
    (m.perform .step).value = .ok (.step .waiting) := by
  rw [m.perform_step_ok h.ready (m.computer.step_waiting h.awaiting)]

/-- Between steps a machine that nobody starts over idles, unless a key ends a wait. -/
theorem idles_between_steps {call : Call}
    (hc : call.restarts = true → (m.perform call).value.toOption = none) (hs : call ≠ .step)
    (hidle : ∀ k, (m.perform call).value = .ok (.edge (some (.pressed k))) →
      m.computer.cpu.awaiting = none) : m.Idles (m.perform call).machine := by
  cases hr : call.restarts with
  | true =>
    rw [perform_failed (hc hr)]
    exact .refl m
  | false => exact perform_idles hr hs hidle

theorem Poised.perform_rests (h : m.Poised (some x)) {call : Call}
    (hc : call.restarts = true → (m.perform call).value.toOption = none)
    (hpress : presses (m.perform call).value = false) : m.Rests (m.perform call).machine := by
  by_cases hs : call = .step
  · subst hs
    obtain ⟨e, he⟩ | ⟨s, computer, log, sinceTick, delay, sound, hs, -, hm⟩ := m.perform_step_cases
    · rw [he]
      exact .refl m
    · rw [m.computer.step_waiting h.awaiting] at hs
      cases hs
      rw [hm]
      exact ⟨sinceTick, delay, sound, m.computer.screen.changed, m.computer.keypad, rfl⟩
  · refine (idles_between_steps hc hs ?_).rests
    intro k hk
    rw [hk] at hpress
    cases hpress

theorem Poised.after_rests (h : m.Poised (some x)) {calls : List Call} (hc : m.Uninterrupted calls)
    (hpress : ∀ r ∈ m.performAll calls, presses r.value = false) : m.Rests (m.after calls) := by
  induction calls generalizing m with
  | nil => exact .refl m
  | cons call rest ih =>
    have hfirst := h.perform_rests hc.1 (hpress _ List.mem_cons_self)
    have hrest := ih (h.of_rests hfirst) hc.2 fun r hr => hpress r (List.mem_cons_of_mem _ hr)
    exact hfirst.trans hrest

/-! ## Keys -/

theorem perform_pressed_iff {key : Byte} {down : Bool} {digit : Key} :
    (m.perform (.setKey key down)).value = .ok (.edge (some (.pressed digit))) ↔
      digit.val = key.toNat ∧ down = true ∧ m.computer.keypad.isDown key = false := by
  rw [← Keypad.pressed_iff]
  cases hset : m.computer.keypad.set key down with
  | error e =>
    rw [m.perform_setKey_error hset]
    constructor
    · intro hv
      cases hv
    · rintro ⟨keypad, hk⟩
      cases hk
  | ok r =>
    obtain ⟨keypad, edge⟩ := r
    rw [m.perform_setKey_ok hset]
    constructor
    · intro hv
      cases hv
      exact ⟨keypad, rfl⟩
    · rintro ⟨keypad', hk⟩
      cases hk
      rfl

theorem perform_isDown {key : Byte} (hkey : key.toNat < 16) {call : Call}
    (hc : call.restarts = true → (m.perform call).value.toOption = none) :
    (m.perform call).machine.computer.keypad.isDown key =
      call.level key (m.computer.keypad.isDown key) := by
  cases call with
  | makeReady =>
    rw [perform_failed (hc rfl)]
    rfl
  | reset => cases hc rfl
  | load rom =>
    rw [perform_failed (hc rfl)]
    rfl
  | step =>
    rw [m.step_keeps_keypad]
    rfl
  | setKey k down =>
    cases hset : m.computer.keypad.set k down with
    | error e =>
      have hother : k ≠ key := by
        rintro rfl
        rw [Keypad.set, dif_pos hkey] at hset
        cases hset
      rw [m.perform_setKey_error hset, Call.level, if_neg hother]
    | ok r =>
      obtain ⟨keypad, edge⟩ := r
      rw [m.perform_setKey_ok hset, Keypad.isDown_set hset, Call.level]
      simp only [eq_comm]
  | tick =>
    rw [perform_tick]
    split <;> rfl
  | takeFrame => rfl
  | fetch =>
    rw [perform_fetch]
    split <;> rfl
  | programListing => rfl

theorem isDown_after {key : Byte} (hkey : key.toNat < 16) {calls : List Call}
    (hc : m.Uninterrupted calls) :
    (m.after calls).computer.keypad.isDown key =
      Call.levels key (m.computer.keypad.isDown key) calls := by
  induction calls generalizing m with
  | nil => rfl
  | cons call rest ih =>
    have hrest := ih hc.2
    rw [perform_isDown hkey hc.1] at hrest
    exact hrest

/-! ## The press, and behind it -/

theorem Poised.press (h : m.Poised (some x)) {key : Byte} {down : Bool} {digit : Key}
    (hv : (m.perform (.setKey key down)).value = .ok (.edge (some (.pressed digit)))) :
    ∃ keypad,
      (m.perform (.setKey key down)).machine =
        { m with
          computer :=
            { m.computer with
              cpu := { m.computer.cpu with v := m.computer.cpu.v.write x key, awaiting := none }
              keypad } } := by
  obtain ⟨keypad, hset⟩ := Keypad.pressed_iff.mpr (perform_pressed_iff.mp hv)
  refine ⟨keypad, ?_⟩
  have hcpu : (m.computer.cpu.receiveKey key).1 =
      { m.computer.cpu with v := m.computer.cpu.v.write x key, awaiting := none } := by
    rw [Cpu.receiveKey, h.awaiting]
    rfl
  rw [m.perform_setKey_ok hset, keyEdgeCpu, hcpu]

theorem setKey_running (ha : m.computer.cpu.awaiting = none) (key : Byte) (down : Bool) :
    ∃ keypad,
      (m.perform (.setKey key down)).machine =
        { m with computer := { m.computer with keypad } } := by
  cases hset : m.computer.keypad.set key down with
  | error e =>
    rw [m.perform_setKey_error hset]
    exact ⟨m.computer.keypad, rfl⟩
  | ok r =>
    obtain ⟨keypad, edge⟩ := r
    rw [m.perform_setKey_idle hset fun _ _ => ha]
    exact ⟨keypad, rfl⟩

theorem perform_running (ha : m.computer.cpu.awaiting = none) {call : Call}
    (hc : call.restarts = true → (m.perform call).value.toOption = none)
    (hawaits : awaits (m.perform call).value = false) :
    (m.perform call).machine.computer.cpu.awaiting = none := by
  by_cases hs : call = .step
  · subst hs
    refine m.step_keeps_awaiting ha fun x hx => ?_
    rw [hx] at hawaits
    cases hawaits
  · obtain ⟨delay, sound, changed, keypad, hm⟩ := idles_between_steps hc hs fun _ _ => ha
    rw [hm]
    exact ha

theorem after_running (ha : m.computer.cpu.awaiting = none) {calls : List Call}
    (hc : m.Uninterrupted calls) (hawaits : ∀ r ∈ m.performAll calls, awaits r.value = false) :
    (m.after calls).computer.cpu.awaiting = none := by
  induction calls generalizing m with
  | nil => exact ha
  | cons call rest ih =>
    have hfirst := perform_running ha hc.1 (hawaits _ List.mem_cons_self)
    exact ih hfirst hc.2 fun r hr => hawaits r (List.mem_cons_of_mem _ hr)

theorem Poised.idles_until_step (h : m.Poised none) {calls : List Call}
    (hc : m.Uninterrupted calls) (hs : .step ∉ calls) : m.Idles (m.after calls) := by
  induction calls generalizing m with
  | nil => exact .refl m
  | cons call rest ih =>
    have hcall : call ≠ .step := (List.ne_of_not_mem_cons hs).symm
    have hfirst := idles_between_steps hc.1 hcall fun _ _ => h.awaiting
    have hrest := ih (h.of_rests hfirst.rests) hc.2 (List.not_mem_of_not_mem_cons hs)
    exact hfirst.trans hrest

/-- The next step decodes this opcode and executes it, or refuses it. -/
def Executes (m : Machine) (opcode : Word) : Prop :=
  (m.perform .step).value = (Instruction.decode opcode).map (fun i => .step (.executed i)) ∧
    ∀ i, Instruction.decode opcode = .ok i →
      (m.perform .step).machine = { m with computer := (m.computer.advance i).1 }.countStep.1

theorem Poised.executes_fetch (h : m.Poised none) : m.Executes m.computer.fetch := by
  unfold Executes
  cases hd : Instruction.decode m.computer.fetch with
  | error e =>
    rw [m.perform_step_error h.ready (m.computer.step_invalid h.awaiting hd)]
    exact ⟨rfl, nofun⟩
  | ok i =>
    rw [m.perform_step_ok h.ready (m.computer.step_executed h.awaiting hd)]
    refine ⟨rfl, ?_⟩
    intro j hj
    cases hj
    rfl

/-! ## The protocol -/

theorem awaitKey_rests (h : (m.perform .step).value = .ok (.step (.executed (.awaitKey x)))) :
    m.ready = true ∧
      (m.passed m.computer.cpu.v (some x)).Rests (m.perform .step).machine := by
  have hr : m.ready = true := by
    refine Decidable.byContradiction fun hr => ?_
    rw [m.perform_step_notReady hr] at h
    cases h
  have hrests : (m.passed m.computer.cpu.v (some x)).Rests (m.perform .step).machine := by
    obtain ⟨sinceTick, delay, sound, hm⟩ := m.perform_executed h
    rw [hm]
    exact ⟨sinceTick, delay, sound, m.computer.screen.changed, m.computer.keypad, rfl⟩
  exact ⟨hr, hrests⟩

/-- After FX0A, and whatever calls follow that press no key and do not start over, a step waits, the
pc is past FX0A, and the registers, the index, the stack, the memory, the pixels and the random
stream are as they were. A key gives a press edge if it goes down and was up, as its last move left
it: keys that are held, go down again, go up or do not exist do not. The press edge that comes puts
its key into VX, and changes no more. From then on the next step executes the opcode behind FX0A,
and keys move on the keypad only until FX0A is executed again. -/
theorem key_wait_protocol
    (hstep : (m.perform .step).value = .ok (.step (.executed (.awaitKey x)))) {calls : List Call}
    (hcalls : (m.perform .step).machine.Uninterrupted calls)
    (hpress : ∀ r ∈ (m.perform .step).machine.performAll calls, presses r.value = false) :
    let v := m.computer.cpu.v
    let w := (m.perform .step).machine.after calls
    (w.perform .step).value = .ok (.step .waiting) ∧
    (m.passed v (some x)).Rests w ∧
    (∀ key down digit,
      (w.perform (.setKey key down)).value = .ok (.edge (some (.pressed digit))) ↔
        digit.val = key.toNat ∧ down = true ∧
          Call.levels key (m.computer.keypad.isDown key) calls = false) ∧
    ∀ key down digit,
      (w.perform (.setKey key down)).value = .ok (.edge (some (.pressed digit))) →
      let p := (w.perform (.setKey key down)).machine
      (m.passed (v.write x key) none).Rests p ∧
      ∀ later, p.Uninterrupted later →
        (.step ∉ later →
          (m.passed (v.write x key) none).Rests (p.after later) ∧
            (p.after later).Executes (m.computer.memory.readWord (m.computer.cpu.pc + 2))) ∧
        ((∀ r ∈ p.performAll later, awaits r.value = false) →
          ∀ key down,
            ∃ keypad,
              ((p.after later).perform (.setKey key down)).machine =
                { p.after later with computer := { (p.after later).computer with keypad } }) := by
  intro v w
  obtain ⟨hready, hpassed⟩ := awaitKey_rests hstep
  have hpoised : (m.passed v (some x)).Poised (some x) := ⟨hready, rfl⟩
  have hstarted := hpoised.of_rests hpassed
  have hrested := hstarted.after_rests hcalls hpress
  have hwaiting : w.Poised (some x) := hstarted.of_rests hrested
  have hrests : (m.passed v (some x)).Rests w := hpassed.trans hrested
  refine ⟨hwaiting.step_value, hrests, ?_, ?_⟩
  · intro key down digit
    rw [perform_pressed_iff]
    refine and_congr_right fun hdigit => and_congr_right fun _ => ?_
    have hlevel := isDown_after (hdigit ▸ digit.isLt) hcalls
    rw [m.step_keeps_keypad] at hlevel
    rw [hlevel]
  · intro key down digit hv p
    have hresumed : (m.passed (v.write x key) none).Rests p := by
      obtain ⟨keypad, hp⟩ := hwaiting.press hv
      obtain ⟨sinceTick, delay, sound, changed, _, hw⟩ := hrests
      simp only [p, hp, hw]
      exact ⟨sinceTick, delay, sound, changed, keypad, rfl⟩
    have hrunning : p.Poised none := by
      have hstart : (m.passed (v.write x key) none).Poised none := ⟨hready, rfl⟩
      exact hstart.of_rests hresumed
    refine ⟨hresumed, fun later hlater => ⟨fun hs => ?_, fun hawaits key down => ?_⟩⟩
    · have hidles := hrunning.idles_until_step hlater hs
      have hrests' := hresumed.trans hidles.rests
      have hexecutes := (hrunning.of_rests hidles.rests).executes_fetch
      rw [hrests'.fetch] at hexecutes
      exact ⟨hrests', hexecutes⟩
    · have ha := after_running hrunning.awaiting hlater hawaits
      exact setKey_running ha key down

/-- A key that is held when FX0A comes goes down again, then up, and one that does not exist goes
down: the machine still waits. When the held key goes down once more, it is stored, and the opcode
behind FX0A is executed. -/
theorem key_wait_protocol_held :
    ∃ m : Machine,
      m.computer.keypad.isDown 5 = true ∧
      (m.perform .step).value = .ok (.step (.executed (.awaitKey 3))) ∧
      let calls : List Call :=
        [.step, .setKey 5 true, .tick, .setKey 5 false, .setKey 0x10 true, .makeReady, .takeFrame]
      (m.perform .step).machine.Uninterrupted calls ∧
      (∀ r ∈ (m.perform .step).machine.performAll calls, presses r.value = false) ∧
      let w := (m.perform .step).machine.after calls
      (w.perform .step).value = .ok (.step .waiting) ∧
      (w.perform (.setKey 5 true)).value = .ok (.edge (some (.pressed 5))) ∧
      (w.perform (.setKey 5 true)).machine.computer.cpu.register 3 = 5 ∧
      (((w.perform (.setKey 5 true)).machine.after [.tick]).perform .step).value =
        .ok (.step (.executed (.setByte 4 1))) := by
  let m := (create { seed := some 0 } (.ofSeed 0)).after
    [.makeReady, .load [0xF3, 0x0A, 0x64, 0x01], .setKey 5 true]
  let calls : List Call :=
    [.step, .setKey 5 true, .tick, .setKey 5 false, .setKey 0x10 true, .makeReady, .takeFrame]
  have hdown : m.computer.keypad.isDown 5 = true := by decide +kernel
  have hstep : (m.perform .step).value = .ok (.step (.executed (.awaitKey 3))) :=
    ok_of_toOption (by decide +kernel)
  have hcalls : (m.perform .step).machine.Uninterrupted calls := by decide +kernel
  have hpress : ∀ r ∈ (m.perform .step).machine.performAll calls, presses r.value = false := by
    decide +kernel
  have hlevel : Call.levels 5 (m.computer.keypad.isDown 5) calls = false := by decide +kernel
  have hopcode : Instruction.decode (m.computer.memory.readWord (m.computer.cpu.pc + 2)) =
      .ok (.setByte 4 1) := ok_of_toOption (by decide +kernel)
  obtain ⟨hwaiting, -, hedge, hresume⟩ := key_wait_protocol hstep hcalls hpress
  have hpressed := (hedge 5 true 5).mpr ⟨rfl, rfl, hlevel⟩
  obtain ⟨⟨_, _, _, _, _, hp⟩, hlater⟩ := hresume 5 true 5 hpressed
  have hticked := hlater [.tick] ⟨nofun, trivial⟩
  obtain ⟨-, hexecutes⟩ := hticked.1 (by decide)
  refine ⟨m, hdown, hstep, hcalls, hpress, hwaiting, hpressed, ?_, ?_⟩
  · rw [hp]
    rfl
  · rw [hexecutes.1, hopcode]
    rfl

end Machine
end ChipEight
