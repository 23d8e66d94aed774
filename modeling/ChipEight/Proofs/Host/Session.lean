import ChipEight.Host.Session
import ChipEight.Proofs.Machine

/-!
# ChipEight.Proofs.Host.Session

A session, poll by poll, by the calls that it makes on its machine.

* `Event.call?`, `Event.quits` — what an event asks of the machine, and whether it ends the run.
* `Poll.keyCalls`, `Poll.calls` — the calls of a poll before its step, and those of a whole poll.
* `Desk.Draws`                 — a desk on which everything works, but for the sound perhaps.
* `frames`                     — the textures that came to the screen.
* `Build.refuses_iff`, `span_exact` — the builds and scales with which there is no window, and that
  in such a build the other windows have the size that they should.
* `handleAll_eq`               — the events of a poll, up to the first that ends the run.
* `poll_over`, `poll_quit`, `poll_halted`, `poll_completed` — the ways that a poll can go;
  `poll_stops` has what the first three have in common.
* `Follows`                    — a session does nothing to its machine but by calls, and the desk
  stays: `poll_follows`, `start_follows`.
* `start_eq`, `start_panics`   — the start, in a build that opens the window and in one that panics.
* `loadProgram_fits`, `loadProgram_tooLarge` — a ROM that fits, and one that does not.
-/

namespace ChipEight

namespace Host

/-! ## Events and polls -/

namespace Event

/-- What an event asks of the machine: a key of the keypad moves. -/
def call? : Event → Option Call
  | .keyDown (some name) =>
    (keypadKey? name).map fun key => .setKey (BitVec.ofNat 8 key.val) true
  | .keyUp (some name) =>
    (keypadKey? name).map fun key => .setKey (BitVec.ofNat 8 key.val) false
  | _ => none

/-- Whether an event ends the run: a request to quit, or Escape. -/
def quits : Event → Bool
  | .quit => true
  | .keyDown name => name = some "Escape"
  | _ => false

/-- What events ask of the machine, up to the first that ends the run. -/
def calls (events : List Event) : List Call :=
  (events.takeWhile (!·.quits)).filterMap (·.call?)

end Event

namespace Poll

def quits (p : Poll) : Bool := p.events.any (·.quits)

def keyCalls (p : Poll) : List Call := Event.calls p.events

/-- The calls of a poll that comes to its end. -/
def calls (p : Poll) : List Call := p.keyCalls ++ [.step, .takeFrame]

end Poll

theorem call?_moves_key {event : Event} {call : Call} (h : event.call? = some call) :
    ∃ (key : Key) (down : Bool), call = .setKey (BitVec.ofNat 8 key.val) down := by
  unfold Event.call? at h
  split at h
  · obtain ⟨key, -, rfl⟩ := Option.map_eq_some_iff.mp h
    exact ⟨key, true, rfl⟩
  · obtain ⟨key, -, rfl⟩ := Option.map_eq_some_iff.mp h
    exact ⟨key, false, rfl⟩
  · cases h

theorem mem_keyCalls {p : Poll} {call : Call} (h : call ∈ p.keyCalls) :
    ∃ (key : Key) (down : Bool), call = .setKey (BitVec.ofNat 8 key.val) down := by
  obtain ⟨event, -, hevent⟩ := List.mem_filterMap.mp h
  exact call?_moves_key hevent

/-! ## Desks and frames -/

def Part.isSound : Part → Bool
  | .audio | .playback => true
  | _ => false

/-- Everything on the desk works, but for the sound perhaps, and a row of a texture takes a line of
pixels. -/
structure Desk.Draws (d : Desk) : Prop where
  pitch : Texture.lineSize ≤ d.pitch
  missing : ∀ part polls, d.missing.covers part polls = true → part.isSound = true

/-- A texture that came to the screen, after so many polls. -/
structure Frame where
  poll : Nat
  pitch : Nat
  buffer : Array Byte
  deriving DecidableEq

def Act.frame? : Act → Option Frame
  | .present poll pitch buffer => some ⟨poll, pitch, buffer⟩
  | _ => none

def frames (acts : Array Act) : List Frame := acts.toList.filterMap (·.frame?)

@[simp] theorem frames_append (acts : Array Act) (more : List Act) :
    frames (acts ++ more) = frames acts ++ more.filterMap (·.frame?) := by
  simp [frames]

def Desk.frame (d : Desk) (poll : Nat) (p : Picture) : Frame :=
  ⟨poll, d.pitch, Texture.paint p d.pitch (Texture.blank d.pitch)⟩

namespace Desk

variable {d : Desk}

theorem attempt_ok {needs : List Need} {polls : Nat}
    (h : ∀ need ∈ needs, d.missing.covers need.part polls = false) :
    d.attempt needs polls = (needs.flatMap (·.acts), none) := by
  induction needs with
  | nil => rfl
  | cons need rest ih =>
    have hrest := ih fun n hn => h n (List.mem_cons_of_mem _ hn)
    rw [attempt, h need List.mem_cons_self, if_neg Bool.false_ne_true, hrest]
    rfl

theorem Draws.attempt (h : d.Draws) {needs : List Need}
    (hneeds : ∀ need ∈ needs, need.part.isSound = false) (polls : Nat) :
    d.attempt needs polls = (needs.flatMap (·.acts), none) := by
  refine attempt_ok fun need hneed => Bool.eq_false_iff.mpr fun hmissing => ?_
  have hsound := h.missing _ _ hmissing
  rw [hneeds need hneed] at hsound
  cases hsound

theorem attempt_sound (d : Desk) (polls : Nat) :
    d.attempt soundNeeds polls = ([.openAudio 44100 1, .startAudio], none) ∨
      ∃ part, part.isSound = true ∧ d.attempt soundNeeds polls = ([], some part) := by
  cases haudio : d.missing.covers .audio polls with
  | true => exact .inr ⟨.audio, rfl, if_pos haudio⟩
  | false =>
    cases hplayback : d.missing.covers .playback polls with
    | true =>
      refine .inr ⟨.playback, rfl, ?_⟩
      simp [soundNeeds, Desk.attempt, haudio, hplayback]
    | false => exact .inl (attempt_ok (by simp [soundNeeds, haudio, hplayback]))

end Desk

/-! ## The size of a window -/

theorem span_eq_iff {pixels scale : Nat} :
    span pixels scale = pixels * scale ↔ pixels * scale < UInt32.size := by
  have hspan : span pixels scale = pixels * scale % UInt32.size := by
    rw [span, ← UInt32.ofNat_mul]
    exact UInt32.toNat_ofNat'
  have hsize : 0 < UInt32.size := by decide
  rw [hspan]
  exact ⟨fun h => h ▸ Nat.mod_lt _ hsize, Nat.mod_eq_of_lt⟩

namespace Build

variable {b : Build} {scale : Nat}

/-- Where the width is in range so is the height. -/
theorem refuses_iff :
    b.refuses scale = true ↔ b = .panics ∧ UInt32.size ≤ Picture.width * scale := by
  cases b with
  | wraps => simp [refuses]
  | panics =>
    have hheight : Picture.height * scale ≤ Picture.width * scale :=
      Nat.mul_le_mul_right _ (by decide)
    simp only [refuses, Bool.or_eq_true, decide_eq_true_eq, true_and]
    omega

/-- A build that panics opens no window of a wrong size. -/
theorem span_exact (h : panics.refuses scale = false) :
    span Picture.width scale = Picture.width * scale ∧
      span Picture.height scale = Picture.height * scale := by
  simp only [refuses, Bool.or_eq_false_iff, decide_eq_false_iff_not, Nat.not_le] at h
  exact ⟨span_eq_iff.mpr h.1, span_eq_iff.mpr h.2⟩

/-- With a scale of 2 ^ 26 nothing is left of the width. -/
example : span Picture.width 0x4000000 = 0 ∧ panics.refuses 0x4000000 = true := by decide

end Build

namespace Session

variable {s : Session}

theorem andThen_running (h : s.status = .running) (f : Session → Session) : s.andThen f = f s := by
  rw [andThen, h]

theorem andThen_over (h : s.status ≠ .running) (f : Session → Session) : s.andThen f = s := by
  unfold andThen
  split
  case h_1 hr => exact absurd hr h
  case h_2 => rfl

theorem attempt_draws (h : s.desk.Draws) {needs : List Need}
    (hneeds : ∀ need ∈ needs, need.part.isSound = false) :
    s.attempt needs = { s with acts := s.acts ++ needs.flatMap (·.acts) } := by
  rw [attempt, h.attempt hneeds]

theorem attempt_frame (s : Session) (needs : List Need) :
    ∃ acts status, s.attempt needs = { s with acts, status } := by
  simp only [attempt]
  split <;> exact ⟨_, _, rfl⟩

theorem andThen_frame (s : Session) {f : Session → Session}
    (hf : ∀ s : Session, ∃ acts status, f s = { s with acts, status }) :
    ∃ acts status, s.andThen f = { s with acts, status } := by
  unfold andThen
  split
  · exact hf s
  · exact ⟨s.acts, s.status, rfl⟩

theorem panicAfter_frame (s : Session) (needs : List Need) :
    ∃ acts status, s.panicAfter needs = { s with acts, status } := by
  obtain ⟨acts, status, hattempt⟩ := s.attempt_frame needs
  rw [panicAfter, hattempt]
  exact andThen_frame { s with acts, status } fun s => ⟨s.acts, .panicked, rfl⟩

theorem openWindow_frame (s : Session) (build : Build) (title : String) (scale : UInt32) :
    ∃ acts status, s.openWindow build title scale = { s with acts, status } := by
  rw [openWindow]
  split
  · exact s.panicAfter_frame _
  · exact s.attempt_frame _

theorem present_frame (s : Session) (picture : Picture) :
    ∃ acts status, s.present picture = { s with acts, status } := by
  rw [present]
  split
  · exact s.panicAfter_frame _
  · exact s.attempt_frame _

theorem attempt_quiet (h : s.desk.Draws) {part : Part} (hpart : part.isSound = false) :
    s.attempt [{ part }] = s := by
  rw [attempt_draws h (List.forall_mem_singleton.mpr hpart)]
  simp

theorem accept_silent {α : Type} {r : Reply α} (h : r.beeps = []) :
    s.accept r = { s with machine := r.machine, log := s.log ++ r.log } := by
  have hbeeper : (s.beeper.map fun b => r.beeps.foldl Beeper.request b) = s.beeper := by
    rw [h]
    exact Option.map_id'
  rw [accept, hbeeper]

/-! ## The events of a poll -/

theorem setKey_eq (s : Session) (key : Key) (down : Bool) :
    ∃ log,
      s.setKey key down =
        { s with
          machine := (s.machine.perform (.setKey (BitVec.ofNat 8 key.val) down)).machine
          log } := by
  let digit : Byte := BitVec.ofNat 8 key.val
  obtain ⟨r, hr, hsilent⟩ :
      ∃ r, s.machine.setKey digit down = .ok r ∧ r.beeps = [] := by
    have hdigit : digit.toNat < 16 := by
      have hkey := key.isLt
      rw [BitVec.toNat_ofNat]
      omega
    rw [Machine.setKey, Keypad.set, dif_pos hdigit]
    exact ⟨_, rfl, rfl⟩
  have hmachine : (s.machine.perform (.setKey digit down)).machine = r.machine :=
    s.machine.settle_machine .edge hr
  refine ⟨s.log ++ r.log, ?_⟩
  rw [hmachine, setKey, hr]
  exact accept_silent hsilent

theorem handle_call (s : Session) {event : Event} {call : Call} (h : event.call? = some call) :
    ∃ log, s.handle event = { s with machine := (s.machine.perform call).machine, log } := by
  unfold Event.call? at h
  split at h
  case h_1 name =>
    obtain ⟨key, hkey, rfl⟩ := Option.map_eq_some_iff.mp h
    have hhandle : s.handle (.keyDown (some name)) = s.setKey key true := by
      simp only [handle, hkey]
    rw [hhandle]
    exact s.setKey_eq key true
  case h_2 name =>
    obtain ⟨key, hkey, rfl⟩ := Option.map_eq_some_iff.mp h
    have hhandle : s.handle (.keyUp (some name)) = s.setKey key false := by
      simp only [handle, hkey]
    rw [hhandle]
    exact s.setKey_eq key false
  case h_3 => cases h

theorem handle_quits (s : Session) {event : Event} (h : event.quits = true) :
    s.handle event = s.quit := by
  cases event with
  | quit => rfl
  | keyDown name =>
    cases of_decide_eq_true h
    have hescape : keypadKey? "Escape" = none := by decide +kernel
    simp only [handle, hescape, if_true]
  | keyUp name => cases h
  | other => cases h

theorem handle_other (s : Session) {event : Event} (hc : event.call? = none)
    (hq : event.quits = false) : s.handle event = s := by
  cases event with
  | quit => cases hq
  | keyDown name =>
    cases name with
    | none => rfl
    | some name =>
      have hkey : keypadKey? name = none := Option.map_eq_none_iff.mp hc
      have hname : ¬ name = "Escape" := by
        rintro rfl
        cases hq
      simp only [handle, hkey, if_neg hname]
  | keyUp name =>
    cases name with
    | none => rfl
    | some name =>
      have hkey : keypadKey? name = none := Option.map_eq_none_iff.mp hc
      simp only [handle, hkey]
  | other => rfl

theorem handleAll_over (h : s.status ≠ .running) (events : List Event) :
    s.handleAll events = s := by
  induction events with
  | nil => rfl
  | cons event rest ih =>
    rw [handleAll, List.foldl_cons, andThen_over h]
    exact ih

/-- The events of a poll move keys, up to the first that ends the run, and do no more. -/
theorem handleAll_eq (h : s.status = .running) (events : List Event) :
    ∃ log,
      s.handleAll events =
        { s with
          machine := s.machine.after (Event.calls events)
          log
          status := if events.any (·.quits) then .quit else .running } := by
  induction events generalizing s with
  | nil => exact ⟨s.log, by rw [← h]; rfl⟩
  | cons event rest ih =>
    have hfirst : s.handleAll (event :: rest) = (s.handle event).handleAll rest := by
      rw [handleAll, List.foldl_cons, andThen_running h]
      rfl
    rw [hfirst, Event.calls, List.any_cons]
    cases hq : event.quits with
    | true =>
      have hover : s.quit.status ≠ .running := nofun
      rw [s.handle_quits hq, handleAll_over hover, List.takeWhile_cons_of_neg (by simp [hq])]
      exact ⟨_, rfl⟩
    | false =>
      rw [List.takeWhile_cons_of_pos (by simp [hq])]
      cases hc : event.call? with
      | none =>
        rw [s.handle_other hc hq, List.filterMap_cons_none hc]
        exact ih h
      | some call =>
        obtain ⟨log, hhandle⟩ := s.handle_call hc
        rw [hhandle, List.filterMap_cons_some hc]
        exact ih h

/-! ## The step of a poll -/

theorem step_failed {e : Error} (h : (s.machine.perform .step).value = .error e) :
    s.step = s.fail (.halted s.machine.computer.cpu.pc e) := by
  have hsettle : s.machine.perform .step = s.machine.settle .step s.machine.step := rfl
  rw [hsettle] at h
  cases hs : s.machine.step with
  | error e' =>
    rw [hs] at h
    cases h
    rw [step, hs]
    rfl
  | ok r =>
    rw [hs] at h
    cases h

theorem present_draws (h : s.desk.Draws) (picture : Picture) :
    s.present picture =
      { s with acts := s.acts ++ (frameNeeds s.desk s.polls picture).flatMap (·.acts) } := by
  rw [present, if_neg (Nat.not_lt.mpr h.pitch)]
  exact attempt_draws h (by simp [frameNeeds, textureNeeds, Part.isSound])

theorem step_shows (hdesk : s.desk.Draws) {value : Step}
    (h : (s.machine.perform .step).value = .ok (.step value)) :
    ∃ beeper acts log,
      s.step = { s with machine := s.machine.after [.step, .takeFrame], beeper, acts, log } ∧
        frames acts =
          frames s.acts ++
            (s.machine.after [.step]).computer.screen.take.2.toList.map
              (s.desk.frame s.polls) := by
  have hsettle : s.machine.perform .step = s.machine.settle .step s.machine.step := rfl
  cases hs : s.machine.step with
  | error e =>
    rw [hsettle, hs] at h
    cases h
  | ok r =>
    have hstepped : s.machine.after [.step] = r.machine := s.machine.settle_machine .step hs
    have hasked : s.machine.after [.step, .takeFrame] = r.machine.takeFrame.machine := by
      rw [← hstepped]
      rfl
    have hshow : s.step = (s.accept r).showFrame := by
      rw [step, hs]
      rfl
    rw [hshow, hstepped, hasked, showFrame]
    cases htake : (s.accept r).machine.takeFrame.value with
    | none =>
      have htaken : r.machine.computer.screen.take.2 = none := htake
      simp only [htaken]
      exact ⟨_, _, _, rfl, (List.append_nil _).symm⟩
    | some picture =>
      have htaken : r.machine.computer.screen.take.2 = some picture := htake
      have hshown := present_draws (s := (s.accept r).accept r.machine.takeFrame) hdesk picture
      simp only [htaken]
      refine ⟨_, _, _, hshown, ?_⟩
      rw [frames_append]
      rfl

/-! ## Polls -/

theorem playSound_frame (s : Session) (n : Nat) :
    ∃ beeper acts, s.playSound n = { s with beeper, acts } ∧ frames acts = frames s.acts := by
  unfold playSound
  split
  · exact ⟨s.beeper, s.acts, rfl, rfl⟩
  · refine ⟨_, _, rfl, ?_⟩
    simp [frames, Act.frame?]

theorem playAll_frame (s : Session) (plays : List Nat) :
    ∃ beeper acts, plays.foldl playSound s = { s with beeper, acts } ∧
      frames acts = frames s.acts := by
  induction plays generalizing s with
  | nil => exact ⟨s.beeper, s.acts, rfl, rfl⟩
  | cons n rest ih =>
    obtain ⟨beeper, acts, hfirst, hframes⟩ := s.playSound_frame n
    obtain ⟨beeper', acts', hrest, hframes'⟩ := ih (s.playSound n)
    rw [List.foldl_cons, hrest, hfirst]
    rw [hfirst] at hframes'
    exact ⟨beeper', acts', rfl, hframes'.trans hframes⟩

theorem poll_over (h : s.status ≠ .running) (p : Poll) : s.poll p = s := andThen_over h _

/-- A poll is its events, then a step if no event ended the run. -/
theorem poll_eq (h : s.status = .running) (p : Poll) :
    ∃ beeper acts log,
      s.poll p =
          andThen
            { s with
              polls := s.polls + 1
              machine := s.machine.after p.keyCalls
              beeper
              acts
              log
              status := if p.quits then .quit else .running }
            step ∧
        frames acts = frames s.acts := by
  obtain ⟨beeper, acts, hplays, hframes⟩ := playAll_frame { s with polls := s.polls + 1 } p.plays
  obtain ⟨log, hevents⟩ :=
    handleAll_eq (s := { s with polls := s.polls + 1, beeper, acts }) h p.events
  refine ⟨beeper, acts, log, ?_, hframes⟩
  rw [poll, andThen_running h]
  show andThen (handleAll (p.plays.foldl playSound { s with polls := s.polls + 1 }) p.events) step =
    _
  rw [hplays, hevents]
  rfl

theorem poll_quit (h : s.status = .running) {p : Poll} (hq : p.quits = true) :
    ∃ beeper acts log,
      s.poll p =
          { s with
            polls := s.polls + 1
            machine := s.machine.after p.keyCalls
            beeper
            acts
            log
            status := .quit } ∧
        frames acts = frames s.acts := by
  obtain ⟨beeper, acts, log, hpoll, hframes⟩ := poll_eq h p
  refine ⟨beeper, acts, log, ?_, hframes⟩
  have hover : (if true then Status.quit else .running) ≠ .running := nofun
  rw [hpoll, hq, andThen_over hover]
  rfl

theorem poll_halted (h : s.status = .running) {p : Poll} (hq : p.quits = false) {e : Error}
    (he : ((s.machine.after p.keyCalls).perform .step).value = .error e) :
    ∃ beeper acts log,
      s.poll p =
          { s with
            polls := s.polls + 1
            machine := s.machine.after p.keyCalls
            beeper
            acts
            log
            status := .failed (.halted (s.machine.after p.keyCalls).computer.cpu.pc e) } ∧
        frames acts = frames s.acts := by
  obtain ⟨beeper, acts, log, hpoll, hframes⟩ := poll_eq h p
  refine ⟨beeper, acts, log, ?_, hframes⟩
  rw [hpoll, hq, andThen_running rfl, step_failed he]
  rfl

theorem poll_completed (h : s.status = .running) (hdesk : s.desk.Draws) {p : Poll}
    (hq : p.quits = false) {value : Step}
    (hv : ((s.machine.after p.keyCalls).perform .step).value = .ok (.step value)) :
    ∃ beeper acts log,
      s.poll p =
          { s with
            polls := s.polls + 1
            machine := s.machine.after p.calls
            beeper
            acts
            log } ∧
        frames acts =
          frames s.acts ++
            (s.machine.after (p.keyCalls ++ [.step])).computer.screen.take.2.toList.map
              (s.desk.frame (s.polls + 1)) := by
  obtain ⟨beeper, acts, log, hpoll, hframes⟩ := poll_eq h p
  rw [hpoll, hq, andThen_running rfl, Poll.calls, Machine.after_append, Machine.after_append,
    ← hframes, ← h]
  exact step_shows hdesk hv

/-- A poll comes to its end: no event ends the run before, and the step succeeds. -/
def Completes (s : Session) (p : Poll) : Prop :=
  s.status = .running ∧ p.quits = false ∧
    ∃ value, ((s.machine.after p.keyCalls).perform .step).value = .ok (.step value)

/-- Any other poll ends the run, or finds it over. It moves keys at most, and it shows nothing. -/
theorem poll_stops {p : Poll} (h : ¬ s.Completes p) :
    (s.poll p).status ≠ .running ∧ (s.poll p).desk = s.desk ∧
      frames (s.poll p).acts = frames s.acts ∧
      ((s.poll p).machine = s.machine ∨ (s.poll p).machine = s.machine.after p.keyCalls) := by
  by_cases hr : s.status = .running
  case neg =>
    rw [poll_over hr]
    exact ⟨hr, rfl, rfl, .inl rfl⟩
  cases hq : p.quits with
  | true =>
    obtain ⟨beeper, acts, log, hpoll, hframes⟩ := poll_quit hr hq
    rw [hpoll]
    exact ⟨nofun, rfl, hframes, .inr rfl⟩
  | false =>
    rcases (s.machine.after p.keyCalls).step_value_cases with ⟨e, he⟩ | hv
    · obtain ⟨beeper, acts, log, hpoll, hframes⟩ := poll_halted hr hq he
      rw [hpoll]
      exact ⟨nofun, rfl, hframes, .inr rfl⟩
    · exact absurd ⟨hr, hq, hv⟩ h

/-! ## Calls only -/

/-- What comes of a session by calls on its machine, on the same desk. -/
structure Follows (s s' : Session) : Prop where
  desk : s'.desk = s.desk
  calls : ∃ calls, s'.machine = s.machine.after calls

namespace Follows

theorem refl (s : Session) : s.Follows s := ⟨rfl, [], rfl⟩

theorem trans {s' s'' : Session} (h : s.Follows s') (h' : s'.Follows s'') : s.Follows s'' := by
  obtain ⟨calls, hmachine⟩ := h.calls
  obtain ⟨calls', hmachine'⟩ := h'.calls
  refine ⟨h'.desk.trans h.desk, calls ++ calls', ?_⟩
  rw [hmachine', hmachine, Machine.after_append]

theorem config {s' : Session} (h : s.Follows s') : s'.machine.config = s.machine.config := by
  obtain ⟨calls, hmachine⟩ := h.calls
  rw [hmachine, Machine.after_config]

theorem andThen {s' : Session} (h : s.Follows s') {f : Session → Session}
    (hf : s'.Follows (f s')) : s.Follows (s'.andThen f) := by
  by_cases hr : s'.status = .running
  · rw [andThen_running hr]
    exact h.trans hf
  · rw [andThen_over hr]
    exact h

end Follows

theorem take_follows {α : Type} {fault : Error → Fault} {reply : Except Error (Reply α)}
    {f : α → Session → Session} (call : Call)
    (hcall : ∀ r, reply = .ok r → s.machine.after [call] = r.machine)
    (hf : ∀ r, reply = .ok r → (s.accept r).Follows (f r.value (s.accept r))) :
    s.Follows (s.take fault reply f) := by
  cases reply with
  | error e => exact ⟨rfl, [], rfl⟩
  | ok r =>
    have haccepted : s.Follows (s.accept r) := ⟨rfl, [call], (hcall r rfl).symm⟩
    exact haccepted.trans (hf r rfl)

theorem loadProgram_follows (s : Session) (file : String) (rom : List Byte) :
    s.Follows (s.loadProgram file rom) := by
  refine take_follows .makeReady (fun r => s.machine.settle_machine _) fun r _ => ?_
  refine take_follows (.load rom) (fun r' => r.machine.settle_machine _) fun r' _ => ?_
  exact ⟨rfl, [], rfl⟩

theorem present_follows (s : Session) (picture : Picture) : s.Follows (s.present picture) := by
  obtain ⟨acts, status, hpresent⟩ := s.present_frame picture
  rw [hpresent]
  exact ⟨rfl, [], rfl⟩

theorem step_follows (s : Session) : s.Follows s.step := by
  refine take_follows .step (fun r => s.machine.settle_machine _) fun r _ => ?_
  have hasked : (s.accept r).Follows ((s.accept r).accept r.machine.takeFrame) :=
    ⟨rfl, [.takeFrame], rfl⟩
  simp only [showFrame]
  split
  · exact hasked
  · exact hasked.trans (present_follows _ _)

theorem poll_follows (s : Session) (p : Poll) : s.Follows (s.poll p) := by
  by_cases hr : s.status = .running
  · obtain ⟨beeper, acts, log, hpoll, -⟩ := poll_eq hr p
    let asked : Session := { s with
      polls := s.polls + 1
      machine := s.machine.after p.keyCalls
      beeper
      acts
      log
      status := if p.quits then .quit else .running }
    have hasked : s.Follows asked := ⟨rfl, p.keyCalls, rfl⟩
    rw [hpoll]
    exact hasked.andThen asked.step_follows
  · rw [poll_over hr]
    exact .refl s

/-! ## The start -/

theorem openSound_frame (s : Session) :
    ∃ beeper acts log, s.openSound = { s with beeper, acts, log } ∧
      frames acts = frames s.acts := by
  rcases s.desk.attempt_sound s.polls with hopened | ⟨part, -, hmissing⟩
  · rw [openSound, hopened]
    refine ⟨_, _, _, rfl, ?_⟩
    rw [frames_append]
    exact List.append_nil _
  · rw [openSound, hmissing]
    refine ⟨_, _, _, rfl, ?_⟩
    rw [frames_append]
    exact List.append_nil _

theorem loadProgram_eq (hr : s.machine.ready = false) (file : String) (rom : List Byte) :
    ∃ log,
      s.loadProgram file rom =
        let s' := { s with machine := s.machine.after [.makeReady], log }
        s'.take .machine (s'.machine.load rom) fun size s =>
          s.report [.romLoaded file size, .program s.machine.programListing] := by
  obtain ⟨r, hready, hsilent⟩ : ∃ r, s.machine.makeReady = .ok r ∧ r.beeps = [] := by
    rw [Machine.makeReady, hr]
    exact ⟨_, rfl, rfl⟩
  have hmachine : s.machine.after [.makeReady] = r.machine := s.machine.settle_machine _ hready
  refine ⟨s.log ++ r.log, ?_⟩
  rw [loadProgram, hready, hmachine, ← accept_silent hsilent]
  rfl

theorem loadProgram_fits (hr : s.machine.ready = false) (file : String) {rom : List Byte}
    (hrom : rom.length ≤ 3584) :
    ∃ log,
      s.loadProgram file rom =
        { s with machine := s.machine.after [.makeReady, .load rom], log } := by
  obtain ⟨log, hload⟩ := s.loadProgram_eq hr file rom
  let m := s.machine.after [.makeReady]
  obtain ⟨r, hr', hsilent⟩ : ∃ r, m.load rom = .ok r ∧ r.beeps = [] := by
    have hfits : ¬ Memory.capacity < rom.length := Nat.not_lt.mpr hrom
    rw [Machine.load, if_pos (Machine.after_makeReady hr)]
    simp only [Memory.load, if_neg hfits]
    exact ⟨_, rfl, rfl⟩
  have hmachine : s.machine.after [.makeReady, .load rom] = r.machine := m.settle_machine .size hr'
  rw [hload, hmachine]
  simp only [m] at hr'
  simp only [hr', take, accept_silent hsilent]
  exact ⟨_, rfl⟩

theorem loadProgram_tooLarge (hr : s.machine.ready = false) (file : String) {rom : List Byte}
    (hrom : 3584 < rom.length) :
    ∃ log,
      s.loadProgram file rom =
        { s with
          machine := s.machine.after [.makeReady]
          log
          status := .failed (.machine (.romTooLarge rom.length 3584)) } := by
  obtain ⟨log, hload⟩ := s.loadProgram_eq hr file rom
  have hlarge : Memory.capacity < rom.length := hrom
  have hrefused :
      (s.machine.after [.makeReady]).load rom = .error (.romTooLarge rom.length 3584) := by
    rw [Machine.load, if_pos (Machine.after_makeReady hr)]
    simp only [Memory.load, if_pos hlarge]
    rfl
  refine ⟨log, ?_⟩
  rw [hload]
  simp only [hrefused, take]
  rfl

def created (settings : Settings) (desk : Desk) (entropy : Random.Key) : Session where
  desk := desk
  machine := .create settings.config entropy

def opened (settings : Settings) (desk : Desk) (entropy : Random.Key) : Session :=
  { created settings desk entropy with
    acts := (#[] : Array Act) ++ (windowNeeds title settings.scale.toNat).flatMap (·.acts) }

/-- A session that has come to the sound, if nothing ended it before. -/
def prepared (settings : Settings) (desk : Desk) (entropy : Random.Key) (build : Build) : Session :=
  (created settings desk entropy).attempt [{ part := .context }]
    |>.andThen (·.openWindow build title settings.scale)
    |>.andThen (·.attempt [{ part := .events }])

theorem start_ok (settings : Settings) (desk : Desk) (entropy : Random.Key) (rom : List Byte)
    (build : Build) :
    start settings desk entropy (.ok rom) build =
      ((prepared settings desk entropy build).andThen (·.openSound)
        |>.andThen (·.loadProgram settings.rom rom)) := by
  rw [start, prepared, created]

theorem prepared_frame (settings : Settings) (desk : Desk) (entropy : Random.Key) (build : Build) :
    ∃ acts status,
      prepared settings desk entropy build =
        { created settings desk entropy with acts, status } := by
  let s := created settings desk entropy
  obtain ⟨acts, status, hcontext⟩ := s.attempt_frame [{ part := .context }]
  obtain ⟨acts', status', hwindow⟩ := andThen_frame { s with acts, status }
    fun s => s.openWindow_frame build title settings.scale
  obtain ⟨acts'', status'', hevents⟩ := andThen_frame { s with acts := acts', status := status' }
    fun s => s.attempt_frame [{ part := .events }]
  exact ⟨acts'', status'', by rw [prepared, hcontext, hwindow, hevents]⟩

theorem openSound_follows (s : Session) : s.Follows s.openSound := by
  obtain ⟨beeper, acts, log, hsound, -⟩ := s.openSound_frame
  rw [hsound]
  exact ⟨rfl, [], rfl⟩

/-- Whatever there is on the desk and in the file, a session follows from its machine. -/
theorem start_follows (settings : Settings) (desk : Desk) (entropy : Random.Key)
    (rom : Except String (List Byte)) (build : Build) :
    (created settings desk entropy).Follows (start settings desk entropy rom build) := by
  cases rom with
  | error reason => exact ⟨rfl, [], rfl⟩
  | ok rom =>
    obtain ⟨acts, status, hprepared⟩ := prepared_frame settings desk entropy build
    have hfollows :
        (created settings desk entropy).Follows (prepared settings desk entropy build) := by
      rw [hprepared]
      exact ⟨rfl, [], rfl⟩
    rw [start_ok]
    exact (hfollows.andThen (openSound_follows _)).andThen (loadProgram_follows _ _ _)

section Starting

variable (settings : Settings) {desk : Desk} (hdesk : desk.Draws) (entropy : Random.Key)
  {build : Build}
include hdesk

theorem start_opened (hsize : build.refuses settings.scale.toNat = false) (rom : List Byte) :
    start settings desk entropy (.ok rom) build =
      (opened settings desk entropy).openSound.andThen (·.loadProgram settings.rom rom) := by
  let s := created settings desk entropy
  let window := opened settings desk entropy
  have hparts : ∀ need ∈ windowNeeds title settings.scale.toNat, need.part.isSound = false := by
    simp [windowNeeds, Part.isSound]
  have hcontext : s.attempt [{ part := .context }] = s := attempt_quiet (s := s) hdesk rfl
  have hwindow : s.openWindow build title settings.scale = window := by
    rw [openWindow, if_neg (Bool.eq_false_iff.mp hsize)]
    exact attempt_draws (s := s) hdesk hparts
  have hevents : window.attempt [{ part := .events }] = window :=
    attempt_quiet (s := window) hdesk rfl
  rw [start_ok, prepared, hcontext, andThen_running (s := s) rfl, hwindow,
    andThen_running (s := window) rfl, hevents, andThen_running (s := window) rfl]

/-- A build that panics on the size of the window makes nothing but the machine. -/
theorem start_panics (hsize : build.refuses settings.scale.toNat = true) (rom : List Byte) :
    start settings desk entropy (.ok rom) build =
      { created settings desk entropy with status := .panicked } := by
  let s := created settings desk entropy
  let panicked : Session := { s with status := .panicked }
  have hcontext : s.attempt [{ part := .context }] = s := attempt_quiet (s := s) hdesk rfl
  have hvideo : s.attempt [{ part := .video }] = s := attempt_quiet (s := s) hdesk rfl
  have hwindow : s.openWindow build title settings.scale = panicked := by
    rw [openWindow, if_pos hsize, panicAfter, hvideo]
    rfl
  have hover : panicked.status ≠ .running := nofun
  rw [start_ok, prepared, hcontext, andThen_running (s := s) rfl, hwindow, andThen_over hover,
    andThen_over hover, andThen_over hover]

theorem start_eq (hsize : build.refuses settings.scale.toNat = false) (rom : List Byte) :
    ∃ beeper acts log,
      start settings desk entropy (.ok rom) build =
          loadProgram { created settings desk entropy with beeper, acts, log } settings.rom rom ∧
        frames acts = [] := by
  obtain ⟨beeper, acts, log, hsound, hframes⟩ :=
    (opened settings desk entropy).openSound_frame
  have hwindow : frames (opened settings desk entropy).acts = [] := frames_append _ _
  refine ⟨beeper, acts, log, ?_, hframes.trans hwindow⟩
  rw [start_opened settings hdesk entropy hsize, hsound, andThen_running rfl]
  rfl

end Starting

end Session
end Host
end ChipEight
