import ChipEight.Proofs.Failure
import ChipEight.Proofs.FreshStart
import ChipEight.Proofs.Host.Session

/-!
# ChipEight.Proofs.Host.Driving

The host drives its machine as its events say, and in no other way.

* `Session.afterPolls`, `pollsOf` — a session after some polls, and the polls of a whole run.
* `Machine.Succeeds`    — no call of a history fails.
* `exists_last`         — every run has a poll that ends it: it quits, or its step fails.
* `afterPolls_completed` — the polls before it are calls on the machine, and all of them succeed.
* `host_drives_machine` — a run from its start to its end.
-/

namespace ChipEight

namespace Machine

/-- No call of a history fails. -/
def Succeeds (m : Machine) (calls : List Call) : Prop :=
  ∀ r ∈ m.performAll calls, ∃ answer, r.value = .ok answer

variable {m : Machine}

theorem succeeds_append {calls rest : List Call} :
    m.Succeeds (calls ++ rest) ↔ m.Succeeds calls ∧ (m.after calls).Succeeds rest := by
  simp only [Succeeds, performAll_append, List.mem_append, or_imp, forall_and]

theorem succeeds_cons {call : Call} {rest : List Call} :
    m.Succeeds (call :: rest) ↔
      (∃ answer, (m.perform call).value = .ok answer) ∧
        (m.perform call).machine.Succeeds rest := by
  simp only [Succeeds, performAll, List.forall_mem_cons]

theorem succeeds_nil : m.Succeeds [] := fun _ hr => absurd hr List.not_mem_nil

theorem create_loaded (config : Config) (entropy : Random.Key) {rom : List Byte}
    (hrom : rom.length ≤ 3584) :
    (create config entropy).Succeeds [.makeReady, .load rom] ∧
      ((create config entropy).after [.makeReady, .load rom]).Loaded rom := by
  have hready := after_makeReady (m := create config entropy) rfl
  have hload := ((create config entropy).after [.makeReady]).perform_load_ok hready hrom
  have hvalue : ∃ answer,
      (((create config entropy).after [.makeReady]).perform (.load rom)).value = .ok answer :=
    ⟨_, congrArg (·.value) hload⟩
  exact ⟨succeeds_cons.mpr ⟨⟨_, rfl⟩, succeeds_cons.mpr ⟨hvalue, succeeds_nil⟩⟩,
    load_loaded _ hready hrom⟩

theorem step_error_of_ready {m : Machine} (hr : m.ready = true) {e : Error}
    (he : (m.perform .step).value = .error e) :
    ∃ family, e = .invalidOpcode m.computer.fetch family := by
  cases refuses_of_value he with
  | step hnot =>
    rw [hr] at hnot
    cases hnot
  | invalid => exact ⟨_, rfl⟩

theorem ready_after {m : Machine} (hr : m.ready = true) {calls : List Call}
    (hc : ∀ call ∈ calls, call.restarts = false) : (m.after calls).ready = true := by
  induction calls generalizing m with
  | nil => exact hr
  | cons call rest ih =>
    have hfirst := (m.perform_keeps_ready (hc call List.mem_cons_self)).trans hr
    exact ih hfirst fun c hcall => hc c (List.mem_cons_of_mem _ hcall)

end Machine

namespace Host

theorem setKey_succeeds (m : Machine) (key : Key) (down : Bool) :
    ∃ answer, (m.perform (.setKey (BitVec.ofNat 8 key.val) down)).value = .ok answer := by
  cases hv : (m.perform (.setKey (BitVec.ofNat 8 key.val) down)).value with
  | ok answer => exact ⟨answer, rfl⟩
  | error e =>
    have hkey := key.isLt
    cases Machine.refuses_of_value hv with
    | setKey _ _ hk =>
      rw [BitVec.toNat_ofNat] at hk
      omega

namespace Poll

variable {m : Machine} {p : Poll}

theorem keyCalls_succeed (m : Machine) (p : Poll) : m.Succeeds p.keyCalls := by
  have hkeys := @mem_keyCalls p
  generalize p.keyCalls = calls at hkeys
  induction calls generalizing m with
  | nil => exact Machine.succeeds_nil
  | cons call rest ih =>
    obtain ⟨key, down, rfl⟩ := hkeys List.mem_cons_self
    exact Machine.succeeds_cons.mpr
      ⟨setKey_succeeds m key down, ih _ fun hcall => hkeys (List.mem_cons_of_mem _ hcall)⟩

/-- A poll comes to its end just if its step succeeds. -/
theorem calls_succeed_iff :
    m.Succeeds p.calls ↔ ∃ s, ((m.after p.keyCalls).perform .step).value = .ok (.step s) := by
  rw [calls, Machine.succeeds_append, Machine.succeeds_cons, Machine.succeeds_cons]
  constructor
  · rintro ⟨-, ⟨answer, hv⟩, -⟩
    rcases (m.after p.keyCalls).step_value_cases with ⟨e, he⟩ | hs
    · rw [he] at hv
      cases hv
    · exact hs
  · rintro ⟨s, hv⟩
    exact ⟨p.keyCalls_succeed m, ⟨_, hv⟩, ⟨_, rfl⟩, Machine.succeeds_nil⟩

theorem count_step_calls (p : Poll) : p.calls.count .step = 1 := by
  have hkeys : .step ∉ p.keyCalls := by
    intro hstep
    obtain ⟨key, down, hcall⟩ := mem_keyCalls hstep
    cases hcall
  rw [calls, List.count_append, List.count_eq_zero.mpr hkeys]
  rfl

theorem count_step (polls : List Poll) : (polls.flatMap (·.calls)).count .step = polls.length := by
  induction polls with
  | nil => rfl
  | cons p rest ih =>
    rw [List.flatMap_cons, List.count_append, p.count_step_calls, ih, List.length_cons,
      Nat.add_comm]

theorem calls_restart {call : Call} (h : call ∈ p.calls) : call.restarts = false := by
  rcases List.mem_append.mp h with hkey | hrest
  · obtain ⟨key, down, rfl⟩ := mem_keyCalls hkey
    rfl
  · simp only [List.mem_cons, List.not_mem_nil, or_false] at hrest
    rcases hrest with rfl | rfl <;> rfl

end Poll

/-! ## The polls of a run -/

/-- Every run has a last poll: one that quits, or one whose step fails. Those before it come to
their end, and those behind it are never made. -/
theorem exists_last {polls : List Poll} (hquit : polls.any (·.quits) = true) (m : Machine) :
    ∃ done last unmade,
      polls = done ++ last :: unmade ∧
      (∀ p ∈ done, p.quits = false) ∧
      m.Succeeds (done.flatMap (·.calls)) ∧
      (last.quits = false →
        ∃ e, ((m.after (done.flatMap (·.calls) ++ last.keyCalls)).perform .step).value =
          .error e) := by
  induction polls generalizing m with
  | nil => cases hquit
  | cons p rest ih =>
    cases hq : p.quits with
    | true => exact ⟨[], p, rest, rfl, nofun, Machine.succeeds_nil, by rw [hq]; nofun⟩
    | false =>
      rcases (m.after p.keyCalls).step_value_cases with herror | hs
      · exact ⟨[], p, rest, rfl, nofun, Machine.succeeds_nil, fun _ => herror⟩
      · rw [List.any_cons, hq, Bool.false_or] at hquit
        obtain ⟨done, last, unmade, hrest, hdone, hsucceeds, hlast⟩ := ih hquit (m.after p.calls)
        refine ⟨p :: done, last, unmade, congrArg (p :: ·) hrest, ?_, ?_, ?_⟩
        · exact List.forall_mem_cons.mpr ⟨hq, hdone⟩
        · rw [List.flatMap_cons, Machine.succeeds_append]
          exact ⟨Poll.calls_succeed_iff.mpr hs, hsucceeds⟩
        · rw [List.flatMap_cons, List.append_assoc, Machine.after_append]
          exact hlast

namespace Session

def afterPolls (s : Session) (polls : List Poll) : Session := polls.foldl poll s

/-- The polls of a run that nothing ends sooner: when the script is over the user quits. -/
def pollsOf (script : List Poll) : List Poll := script ++ [{ events := [.quit] }]

variable {s : Session}

theorem run_eq (s : Session) (script : List Poll) :
    s.run script = s.afterPolls (pollsOf script) := by
  rw [run, afterPolls, pollsOf, List.foldl_append]
  rfl

theorem afterPolls_append (s : Session) (polls more : List Poll) :
    s.afterPolls (polls ++ more) = (s.afterPolls polls).afterPolls more :=
  List.foldl_append

theorem afterPolls_over (h : s.status ≠ .running) (polls : List Poll) : s.afterPolls polls = s := by
  induction polls with
  | nil => rfl
  | cons p rest ih =>
    rw [afterPolls, List.foldl_cons, poll_over h]
    exact ih

/-- Polls that come to their end are calls on the machine. -/
theorem afterPolls_completed (h : s.status = .running) (hdesk : s.desk.Draws) {polls : List Poll}
    (hq : ∀ p ∈ polls, p.quits = false) (hs : s.machine.Succeeds (polls.flatMap (·.calls))) :
    ∃ beeper acts log,
      s.afterPolls polls =
        { s with
          polls := s.polls + polls.length
          machine := s.machine.after (polls.flatMap (·.calls))
          beeper
          acts
          log } := by
  induction polls generalizing s with
  | nil => exact ⟨s.beeper, s.acts, s.log, rfl⟩
  | cons p rest ih =>
    rw [List.flatMap_cons, Machine.succeeds_append, Poll.calls_succeed_iff] at hs
    obtain ⟨⟨value, hv⟩, hrest⟩ := hs
    obtain ⟨beeper, acts, log, hpoll, -⟩ :=
      poll_completed h hdesk (hq p List.mem_cons_self) hv
    have hnext := ih (s := { s with
      polls := s.polls + 1, machine := s.machine.after p.calls, beeper, acts, log }) h hdesk
      (fun p hp => hq p (List.mem_cons_of_mem _ hp)) hrest
    obtain ⟨beeper', acts', log', hafter⟩ := hnext
    refine ⟨beeper', acts', log', ?_⟩
    rw [afterPolls, List.foldl_cons, hpoll]
    refine hafter.trans ?_
    rw [List.length_cons, List.flatMap_cons, Machine.after_append, Nat.add_right_comm,
      Nat.add_assoc]

theorem afterPolls_take (h : s.status = .running) (hdesk : s.desk.Draws) {done : List Poll}
    (hq : ∀ p ∈ done, p.quits = false) (hs : s.machine.Succeeds (done.flatMap (·.calls))) {k : Nat}
    (hk : k ≤ done.length) :
    ∃ beeper acts log,
      s.afterPolls (done.take k) =
        { s with
          polls := s.polls + k
          machine := s.machine.after ((done.take k).flatMap (·.calls))
          beeper
          acts
          log } := by
  have hsplit : done.flatMap (·.calls) =
      (done.take k).flatMap (·.calls) ++ (done.drop k).flatMap (·.calls) := by
    rw [← List.flatMap_append, List.take_append_drop]
  rw [hsplit, Machine.succeeds_append] at hs
  have hafter := afterPolls_completed h hdesk (fun p hp => hq p (List.mem_of_mem_take hp)) hs.1
  rw [List.length_take_of_le hk] at hafter
  exact hafter

theorem tick_perStep (h : s.machine.config.stepsPerTick.isSome = true) : s.tick = s := by
  obtain ⟨n, hn⟩ := Option.isSome_iff_exists.mp h
  unfold tick andThen
  cases s.status with
  | running => simp only [hn]
  | _ => rfl

theorem afterPolls_follows (s : Session) (polls : List Poll) : s.Follows (s.afterPolls polls) := by
  induction polls generalizing s with
  | nil => exact .refl s
  | cons p rest ih => exact (s.poll_follows p).trans (ih (s.poll p))

theorem tick_afterPolls {settings : Settings} (hper : settings.perStepTimers.isSome = true)
    (desk : Desk) (entropy : Random.Key) (rom : Except String (List Byte)) (build : Build)
    (polls : List Poll) :
    let s := (start settings desk entropy rom build).afterPolls polls
    s.tick = s := by
  obtain ⟨n, hn⟩ := Option.isSome_iff_exists.mp hper
  have hstart := start_follows settings desk entropy rom build
  apply tick_perStep
  rw [(hstart.trans (afterPolls_follows _ polls)).config]
  show settings.config.stepsPerTick.isSome = true
  rw [Settings.config, hn]
  rfl

/-! ## Runs -/

section Starting

variable (settings : Settings) {desk : Desk} (hdesk : desk.Draws) (entropy : Random.Key)
  {rom : List Byte} {build : Build} (hsize : build.refuses settings.scale.toNat = false)
include hdesk hsize

theorem start_loaded (hrom : rom.length ≤ 3584) :
    ∃ beeper acts log,
      start settings desk entropy (.ok rom) build =
          { desk
            machine := (Machine.create settings.config entropy).after [.makeReady, .load rom]
            beeper
            acts
            log } ∧
        frames acts = [] := by
  obtain ⟨beeper, acts, log, hstart, hframes⟩ := start_eq settings hdesk entropy hsize rom
  obtain ⟨log', hload⟩ := loadProgram_fits
    (s := { desk, machine := .create settings.config entropy, beeper, acts, log }) rfl
    settings.rom hrom
  exact ⟨beeper, acts, log', hstart.trans hload, hframes⟩

theorem start_refused (hrom : 3584 < rom.length) :
    ∃ beeper acts log,
      start settings desk entropy (.ok rom) build =
          { desk
            machine := (Machine.create settings.config entropy).after [.makeReady]
            beeper
            acts
            log
            status := .failed (.machine (.romTooLarge rom.length 3584)) } ∧
        frames acts = [] := by
  obtain ⟨beeper, acts, log, hstart, hframes⟩ := start_eq settings hdesk entropy hsize rom
  obtain ⟨log', hload⟩ := loadProgram_tooLarge
    (s := { desk, machine := .create settings.config entropy, beeper, acts, log }) rfl
    settings.rom hrom
  exact ⟨beeper, acts, log', hstart.trans hload, hframes⟩

end Starting

theorem run_panics (settings : Settings) {desk : Desk} (hdesk : desk.Draws) (entropy : Random.Key)
    (rom : List Byte) {build : Build} (hsize : build.refuses settings.scale.toNat = true)
    (script : List Poll) :
    (start settings desk entropy (.ok rom) build).run script =
      { desk, machine := .create settings.config entropy, status := .panicked } := by
  let panicked : Session := { created settings desk entropy with status := .panicked }
  have hover : panicked.status ≠ .running := nofun
  rw [run_eq, start_panics settings hdesk entropy hsize]
  exact afterPolls_over hover _

theorem poll_last (h : s.status = .running) {last : Poll}
    (hlast : last.quits = false →
      ∃ e, ((s.machine.after last.keyCalls).perform .step).value = .error e) :
    let reached := s.machine.after last.keyCalls
    (s.poll last).machine = reached ∧
      (s.poll last).polls = s.polls + 1 ∧
      frames (s.poll last).acts = frames s.acts ∧
      (s.poll last).status ≠ .running ∧
      (last.quits = true → (s.poll last).status = .quit) ∧
      ∀ e, last.quits = false → (reached.perform .step).value = .error e →
        (s.poll last).status = .failed (.halted reached.computer.cpu.pc e) := by
  intro reached
  cases hq : last.quits with
  | true =>
    obtain ⟨beeper, acts, log, hpoll, hframes⟩ := poll_quit h hq
    rw [hpoll]
    exact ⟨rfl, rfl, hframes, nofun, fun _ => rfl, nofun⟩
  | false =>
    obtain ⟨e, he⟩ := hlast hq
    obtain ⟨beeper, acts, log, hpoll, hframes⟩ := poll_halted h hq he
    rw [hpoll]
    refine ⟨rfl, rfl, hframes, nofun, nofun, fun e' _ he' => ?_⟩
    rw [he] at he'
    cases he'
    rfl

theorem run_last (h : s.status = .running) (hdesk : s.desk.Draws) {script done unmade : List Poll}
    {last : Poll} (hpolls : pollsOf script = done ++ last :: unmade)
    (hdone : ∀ p ∈ done, p.quits = false) (hs : s.machine.Succeeds (done.flatMap (·.calls)))
    (hlast : last.quits = false →
      ∃ e, ((s.machine.after (done.flatMap (·.calls) ++ last.keyCalls)).perform .step).value =
        .error e) :
    let reached := s.machine.after (done.flatMap (·.calls) ++ last.keyCalls)
    let run := s.run script
    run.machine = reached ∧
      run.polls = s.polls + done.length + 1 ∧
      frames run.acts = frames (s.afterPolls done).acts ∧
      (last.quits = true → run.status = .quit) ∧
      ∀ e, last.quits = false → (reached.perform .step).value = .error e →
        run.status = .failed (.halted reached.computer.cpu.pc e) := by
  intro reached run
  obtain ⟨beeper, acts, log, hafter⟩ := afterPolls_completed h hdesk hdone hs
  have hstatus : (s.afterPolls done).status = .running := by rw [hafter, h]
  have hpolled : (s.afterPolls done).polls = s.polls + done.length := by rw [hafter]
  have hmachine : (s.afterPolls done).machine.after last.keyCalls = reached := by
    rw [hafter, ← Machine.after_append]
  rw [← hpolled]
  rw [show s.machine.after (done.flatMap (·.calls) ++ last.keyCalls) = reached from rfl,
    ← hmachine] at hlast
  obtain ⟨hreached, hcount, hframes, hover, hends⟩ := poll_last hstatus hlast
  have hrun : run = (s.afterPolls done).poll last := by
    rw [← afterPolls_over hover unmade]
    simp only [run, run_eq, hpolls, afterPolls_append]
    rfl
  rw [hrun]
  rw [hmachine] at hreached hends
  exact ⟨hreached, hcount, hframes, hends⟩

end Session

/-- The host of a machine with its own timing, on a desk where nothing but the sound may fail and
where a row of a texture takes a line of pixels. A build that panics on the width of the window
makes no poll at all. Otherwise a program that fits is started, and then each poll moves the keys of
its events, in their order, makes one step and asks for one frame; what other events there are does
nothing, and neither does the clock. No call of a poll that comes to its end fails. The poll that
ends the run moves the keys of its events up to the one that quits, and shows nothing. If it quits
the run succeeds; if it does not, its step fails, and so does the run, with the error that names the
opcode and with the pc where that opcode lies. -/
theorem host_drives_machine (settings : Settings) (hper : settings.perStepTimers.isSome = true)
    {desk : Desk} (hdesk : desk.Draws) (entropy : Random.Key) {rom : List Byte}
    (hrom : rom.length ≤ 3584) (build : Build) (script : List Poll) :
    let created := Machine.create settings.config entropy
    let m := created.after [.makeReady, .load rom]
    let start := Session.start settings desk entropy (.ok rom) build
    let run := start.run script
    let oversized := build = .panics ∧ UInt32.size ≤ Picture.width * settings.scale.toNat
    (∀ (s : Session) event, event.call? = none → event.quits = false → s.handle event = s) ∧
    (oversized → run = { desk, machine := created, status := .panicked }) ∧
    (¬ oversized → ∃ done last unmade,
      script ++ [{ events := [.quit] }] = done ++ last :: unmade ∧
      (∀ p ∈ done, p.quits = false) ∧
      (∀ k ≤ done.length,
        let s := start.afterPolls (done.take k)
        s.status = .running ∧ s.polls = k ∧
          s.machine = m.after ((done.take k).flatMap (·.calls)) ∧ s.tick = s) ∧
      created.Succeeds ([.makeReady, .load rom] ++ done.flatMap (·.calls)) ∧
      (done.flatMap (·.calls)).count .step = done.length ∧
      let reached := m.after (done.flatMap (·.calls) ++ last.keyCalls)
      run.machine = reached ∧
      run.polls = done.length + 1 ∧
      frames run.acts = frames (start.afterPolls done).acts ∧
      (last.quits = true → run.status = .quit) ∧
      (last.quits = false →
        ∃ family,
          let e := Error.invalidOpcode reached.computer.fetch family
          (reached.perform .step).value = .error e ∧
            run.status = .failed (.halted reached.computer.cpu.pc e))) := by
  intro created m start run oversized
  refine ⟨fun s event => s.handle_other, fun hlarge => ?_, fun hsmall => ?_⟩
  case refine_1 =>
    exact Session.run_panics settings hdesk entropy rom (Build.refuses_iff.mpr hlarge) script
  have hsize : build.refuses settings.scale.toNat = false :=
    Bool.eq_false_iff.mpr fun hrefuses => hsmall (Build.refuses_iff.mp hrefuses)
  obtain ⟨hloaded, hnew⟩ := Machine.create_loaded settings.config entropy hrom
  have hquit : (Session.pollsOf script).any (·.quits) = true := by
    rw [Session.pollsOf, List.any_append]
    exact Bool.or_true _
  -- The machine alone tells which poll is the last; the session then follows it that far.
  obtain ⟨done, last, unmade, hpolls, hdone, hsucceeds, hlast⟩ := exists_last hquit m
  obtain ⟨beeper, acts, log, hstart, -⟩ := Session.start_loaded settings hdesk entropy hsize hrom
  have hcompleted : ∀ k ≤ done.length, ∃ beeper acts log,
      start.afterPolls (done.take k) =
        { desk, machine := m.after ((done.take k).flatMap (·.calls)), beeper, polls := k, acts,
          log } := by
    intro k hk
    have hafter := Session.afterPolls_take (s := { desk, machine := m, beeper, acts, log }) rfl
      hdesk hdone hsucceeds hk
    simp only [Nat.zero_add] at hafter
    simp only [start, hstart]
    exact hafter
  refine ⟨done, last, unmade, hpolls, hdone, ?_, ?_, ?_, ?_⟩
  · intro k hk s
    obtain ⟨beeper', acts', log', hs⟩ := hcompleted k hk
    have htick : s.tick = s := Session.tick_afterPolls hper desk entropy (.ok rom) build _
    refine ⟨?_, ?_, ?_, htick⟩ <;> simp only [s, hs]
  · exact Machine.succeeds_append.mpr ⟨hloaded, hsucceeds⟩
  · exact Poll.count_step done
  · intro reached
    have hcalls : ∀ call ∈ done.flatMap (·.calls) ++ last.keyCalls, call.restarts = false := by
      intro call hcall
      rcases List.mem_append.mp hcall with hcall | hcall
      · obtain ⟨p, -, hp⟩ := List.mem_flatMap.mp hcall
        exact Poll.calls_restart hp
      · exact Poll.calls_restart (List.mem_append_left _ hcall)
    have hready : reached.ready = true := Machine.ready_after hnew.ready hcalls
    obtain ⟨hmachine, hcount, hframes, hquits, hhalts⟩ := Session.run_last
      (s := { desk, machine := m, beeper, acts, log }) rfl hdesk hpolls hdone hsucceeds hlast
    simp only [Nat.zero_add] at hcount
    simp only [run, start, hstart]
    refine ⟨hmachine, hcount, hframes, hquits, fun hq => ?_⟩
    obtain ⟨e, he⟩ := hlast hq
    obtain ⟨family, rfl⟩ := Machine.step_error_of_ready hready he
    exact ⟨family, he, hhalts _ hq he⟩

/-- A key goes down and up again in one poll while FX0A waits for it, and a poll is quit between two
keys. -/
theorem host_drives_machine_escape :
    ∃ (settings : Settings) (desk : Desk) (rom : List Byte) (script : List Poll),
      settings.perStepTimers.isSome = true ∧ desk.Draws ∧ rom.length ≤ 3584 ∧
      let run := (Session.start settings desk (.ofSeed 0) (.ok rom) .panics).run script
      run.polls = 3 ∧ run.status = .quit ∧
        run.machine.computer.cpu.register 3 = 5 ∧ run.machine.computer.cpu.register 4 = 1 ∧
        run.machine.computer.keypad.isDown 4 = true := by
  let settings : Settings :=
    { rom := "rom.ch8", ips := 500, scale := 10, seed := some 7, perStepTimers := some 1 }
  let desk : Desk := { missing := some Part.audio }
  let rom : List Byte := [0xF3, 0x0A, 0x64, 0x01]
  let script : List Poll :=
    [{ events := [.keyDown (some "Space"), .other] },
      { plays := [3], events := [.keyDown (some "W"), .keyUp (some "W"), .keyDown none] },
      { events := [.keyDown (some "Q"), .keyDown (some "Escape"), .keyUp (some "Q")] },
      {}]
  let run := (Session.start settings desk (.ofSeed 0) (.ok rom) .panics).run script
  have hdesk : desk.Draws := by
    refine ⟨by decide, fun part polls hpart => ?_⟩
    cases of_decide_eq_true hpart
    rfl
  have hrom : rom.length ≤ 3584 := by decide
  have hsmall :
      ¬ (Build.panics = .panics ∧ UInt32.size ≤ Picture.width * settings.scale.toNat) := by decide
  obtain ⟨-, -, hruns⟩ := host_drives_machine settings rfl hdesk (.ofSeed 0) hrom .panics script
  obtain ⟨done, last, unmade, hpolls, hdone, -, -, -, hmachine, hcount, -, hquits, -⟩ :=
    hruns hsmall
  have hthree : run.polls = 3 := by decide +kernel
  have hlength : done.length = 2 := Nat.succ.inj (hcount.symm.trans hthree)
  refine ⟨settings, desk, rom, script, rfl, hdesk, hrom, hthree, ?_⟩
  match done, hlength with
  | [p, q], _ =>
    cases hpolls
    rw [hmachine]
    refine ⟨hquits rfl, ?_⟩
    decide +kernel

end Host
end ChipEight
