import ChipEight.Proofs.Host.Driving

/-!
# ChipEight.Proofs.Host.Silence

A host without sound does what a host with sound does, but for the sound.

* `Act.isSound`       — the acts that are about the sound card.
* `Desk.without`      — a desk that lacks one part more, whatever else is missing on it, and when.
* `Session.silenced`  — a session with its sound taken out.
* `silenced_handle`, `silenced_step`, `silenced_playSound`, `silenced_tick` — taking the sound out
  and going on commute, for everything that a session does, except that it opens the sound card.
* `silenced_poll`, `silenced_afterPolls` — so they commute for polls.
* `silenced_openSound`, `silenced_start` — where the sound card cannot be opened the session goes on
  as one that opened it, silenced.
* `sound_unobservable` — the two runs side by side.
-/

namespace ChipEight
namespace Host

/-- Whether an act is about the sound card. -/
def Act.isSound : Act → Bool
  | .openAudio _ _ | .startAudio | .played _ _ => true
  | .openWindow _ _ _ | .createTexture _ _ | .present _ _ _ => false

theorem filter_silent {acts : List Act} (h : ∀ act ∈ acts, act.isSound = false) :
    acts.filter (!·.isSound) = acts :=
  List.filter_eq_self.mpr fun act hact => by rw [h act hact]; rfl

theorem filter_append (acts : Array Act) (more : List Act) :
    (acts ++ more).filter (!·.isSound) = acts.filter (!·.isSound) ++ more.filter (!·.isSound) := by
  apply Array.ext'
  simp

theorem frames_filter_isSound (acts : Array Act) :
    frames (acts.filter (!·.isSound)) = frames acts := by
  rw [frames, Array.toList_filter, List.filterMap_filter, frames]
  congr 1
  funext act
  cases act <;> rfl

namespace Desk

/-- A desk that lacks one part more. -/
def without (d : Desk) (part : Part) : Desk :=
  { d with missing := ⟨fun other polls => other = part || d.missing.covers other polls⟩ }

variable {d : Desk} {part : Part}

theorem covers_without_self (polls : Nat) : (d.without part).missing.covers part polls = true := by
  simp [without]

theorem covers_without_of_ne {other : Part} (h : other ≠ part) (polls : Nat) :
    (d.without part).missing.covers other polls = d.missing.covers other polls := by
  simp [without, h]

theorem mem_attempt {needs : List Need} {polls : Nat} {act : Act}
    (h : act ∈ (d.attempt needs polls).1) : act ∈ needs.flatMap (·.acts) := by
  induction needs with
  | nil => exact h
  | cons need rest ih =>
    rw [List.flatMap_cons, List.mem_append]
    rw [attempt] at h
    split at h
    · cases h
    · rcases List.mem_append.mp h with hfirst | hrest
      · exact .inl hfirst
      · exact .inr (ih hrest)

/-- Where a part for the sound is missing all else that is needed goes as it went before. -/
theorem attempt_without (hpart : part.isSound = true) {needs : List Need}
    (hneeds : ∀ need ∈ needs, need.part.isSound = false) (polls : Nat) :
    (d.without part).attempt needs polls = d.attempt needs polls := by
  induction needs with
  | nil => rfl
  | cons need rest ih =>
    have hne : need.part ≠ part := by
      rintro rfl
      rw [hneeds need List.mem_cons_self] at hpart
      cases hpart
    rw [attempt, attempt, covers_without_of_ne hne,
      ih fun n hn => hneeds n (List.mem_cons_of_mem _ hn)]

theorem attempt_sound_without (hpart : part.isSound = true) {polls : Nat}
    (haudio : d.missing.covers .audio polls = false) :
    (d.without part).attempt soundNeeds polls = ([], some part) := by
  have hmissing : (d.without part).missing.covers part polls = true := covers_without_self polls
  cases part with
  | audio => exact if_pos hmissing
  | playback =>
    have hthere : (d.without .playback).missing.covers .audio polls = false :=
      (covers_without_of_ne (by decide) polls).trans haudio
    simp [soundNeeds, attempt, hmissing, hthere]
  | _ => cases hpart

end Desk

namespace Session

/-- What a session with a sound card would have complained about without it. -/
def complaints (part : Part) (s : Session) : Array Record :=
  if s.beeper.isSome then #[.muted part.complaint] else #[]

/-- A session with its sound taken out: this part of the desk is missing too, so no sound card was
opened or played anything, and where one would have been the log starts with the complaint. -/
def silenced (part : Part) (s : Session) : Session :=
  { s with
    desk := s.desk.without part
    beeper := none
    acts := s.acts.filter (!·.isSound)
    log := s.complaints part ++ s.log }

variable {s : Session} {part : Part}

@[simp] theorem silenced_machine (s : Session) (part : Part) :
    (s.silenced part).machine = s.machine := rfl

@[simp] theorem silenced_polls (s : Session) (part : Part) :
    (s.silenced part).polls = s.polls := rfl

@[simp] theorem silenced_status (s : Session) (part : Part) :
    (s.silenced part).status = s.status := rfl

theorem silenced_frames (s : Session) (part : Part) :
    frames (s.silenced part).acts = frames s.acts := frames_filter_isSound s.acts

theorem silenced_silent (s : Session) (part : Part) :
    (s.silenced part).acts.toList.any (·.isSound) = false := by
  simp [silenced]

/-! ## One operation -/

theorem silenced_andThen (f : Session → Session)
    (h : f (s.silenced part) = (f s).silenced part) :
    (s.silenced part).andThen f = (s.andThen f).silenced part := by
  by_cases hr : s.status = .running
  · rw [andThen_running hr, andThen_running (s := s.silenced part) hr, h]
  · rw [andThen_over hr, andThen_over (s := s.silenced part) hr]

theorem silenced_report (s : Session) (part : Part) (records : List Record) :
    (s.silenced part).report records = (s.report records).silenced part := by
  have hlog : s.complaints part ++ s.log ++ records = s.complaints part ++ (s.log ++ records) := by
    apply Array.ext'
    simp
  simp only [report, silenced, hlog]
  rfl

/-- A reply is taken over in silence as well. -/
theorem silenced_accept {α : Type} (s : Session) (part : Part) (r : Reply α) :
    (s.silenced part).accept r = (s.accept r).silenced part := by
  have hcomplaints : (s.accept r).complaints part = s.complaints part := by
    simp [complaints, accept]
  have hlog : s.complaints part ++ s.log ++ r.log = s.complaints part ++ (s.log ++ r.log) := by
    apply Array.ext'
    simp
  simp only [silenced, hcomplaints]
  simp only [accept, hlog, Option.map_none]

theorem silenced_take {α : Type} (s : Session) (part : Part) (fault : Error → Fault)
    (reply : Except Error (Reply α)) {f : α → Session → Session}
    (h : ∀ r, reply = .ok r →
      f r.value ((s.accept r).silenced part) = (f r.value (s.accept r)).silenced part) :
    (s.silenced part).take fault reply f = (s.take fault reply f).silenced part := by
  cases reply with
  | error e => rfl
  | ok r =>
    rw [take, take, silenced_accept]
    exact h r rfl

theorem silenced_attempt (s : Session) (hpart : part.isSound = true) {needs : List Need}
    (hneeds : ∀ need ∈ needs, need.part.isSound = false)
    (hacts : ∀ act ∈ needs.flatMap (·.acts), act.isSound = false) :
    (s.silenced part).attempt needs = (s.attempt needs).silenced part := by
  have hsame : (s.silenced part).desk.attempt needs (s.silenced part).polls =
      s.desk.attempt needs s.polls := Desk.attempt_without hpart hneeds s.polls
  have hsilent : ∀ act ∈ (s.desk.attempt needs s.polls).1, act.isSound = false :=
    fun act hact => hacts act (Desk.mem_attempt hact)
  simp only [attempt, hsame]
  generalize s.desk.attempt needs s.polls = attempted at hsilent
  obtain ⟨acts, stopped⟩ := attempted
  have happended : (s.acts ++ acts).filter (!·.isSound) = s.acts.filter (!·.isSound) ++ acts := by
    rw [filter_append, filter_silent hsilent]
  cases stopped with
  | none =>
    simp only [silenced, happended]
    rfl
  | some other =>
    simp only [fail, silenced, happended]
    rfl

theorem silenced_attempt_part (s : Session) (hpart : part.isSound = true) {needed : Part}
    (hneeded : needed.isSound = false) :
    (s.silenced part).attempt [{ part := needed }] =
      (s.attempt [{ part := needed }]).silenced part :=
  s.silenced_attempt hpart (List.forall_mem_singleton.mpr hneeded) (by simp)

theorem silenced_panicAfter (s : Session) (hpart : part.isSound = true) {needs : List Need}
    (hneeds : ∀ need ∈ needs, need.part.isSound = false)
    (hacts : ∀ act ∈ needs.flatMap (·.acts), act.isSound = false) :
    (s.silenced part).panicAfter needs = (s.panicAfter needs).silenced part := by
  rw [panicAfter, s.silenced_attempt hpart hneeds hacts]
  exact silenced_andThen _ rfl

/-! ## Polls -/

theorem silenced_setKey (s : Session) (part : Part) (key : Key) (down : Bool) :
    (s.silenced part).setKey key down = (s.setKey key down).silenced part :=
  silenced_take s part .machine _ fun _ _ => rfl

theorem silenced_quit (s : Session) (part : Part) :
    (s.silenced part).quit = s.quit.silenced part := by
  rw [quit, silenced_report]
  rfl

theorem silenced_handle (s : Session) (part : Part) (event : Event) :
    (s.silenced part).handle event = (s.handle event).silenced part := by
  cases event with
  | quit => exact silenced_quit s part
  | keyDown name =>
    cases name with
    | none => rfl
    | some name =>
      simp only [handle]
      cases keypadKey? name with
      | some key => exact silenced_setKey s part key true
      | none =>
        by_cases hescape : name = "Escape"
        · simp only [if_pos hescape]
          exact silenced_quit s part
        · simp only [if_neg hescape]
  | keyUp name =>
    cases name with
    | none => rfl
    | some name =>
      simp only [handle]
      cases keypadKey? name with
      | some key => exact silenced_setKey s part key false
      | none => rfl
  | other => rfl

theorem silenced_handleAll (s : Session) (part : Part) (events : List Event) :
    (s.silenced part).handleAll events = (s.handleAll events).silenced part := by
  induction events generalizing s with
  | nil => rfl
  | cons event rest ih =>
    have hfirst := silenced_andThen (·.handle event) (silenced_handle s part event)
    rw [handleAll, List.foldl_cons, hfirst]
    exact ih (s.andThen (·.handle event))

/-- Samples are played by a sound card only, and on nothing but that. -/
theorem silenced_playSound (s : Session) (part : Part) (n : Nat) :
    (s.silenced part).playSound n = (s.playSound n).silenced part := by
  have hmuted : (s.silenced part).playSound n = s.silenced part := rfl
  rw [hmuted, playSound]
  cases hbeeper : s.beeper with
  | none => rfl
  | some b => simp [silenced, complaints, hbeeper, Act.isSound]

theorem silenced_playAll (s : Session) (part : Part) (plays : List Nat) :
    plays.foldl playSound (s.silenced part) = (plays.foldl playSound s).silenced part := by
  induction plays generalizing s with
  | nil => rfl
  | cons n rest ih =>
    rw [List.foldl_cons, List.foldl_cons, silenced_playSound]
    exact ih (s.playSound n)

theorem silenced_present (s : Session) (hpart : part.isSound = true) (picture : Picture) :
    (s.silenced part).present picture = (s.present picture).silenced part := by
  have hpitch : (s.silenced part).desk.pitch = s.desk.pitch := rfl
  simp only [present, hpitch]
  split
  · apply s.silenced_panicAfter hpart
    · simp [textureNeeds, Part.isSound]
    · simp [textureNeeds, Act.isSound]
  · apply s.silenced_attempt hpart
    · simp [frameNeeds, textureNeeds, Part.isSound]
    · simp [frameNeeds, textureNeeds, Act.isSound]

theorem silenced_showFrame (s : Session) (hpart : part.isSound = true) :
    (s.silenced part).showFrame = s.showFrame.silenced part := by
  simp only [showFrame, silenced_machine, silenced_accept]
  cases s.machine.takeFrame.value with
  | none => rfl
  | some picture => exact (s.accept s.machine.takeFrame).silenced_present hpart picture

theorem silenced_step (s : Session) (hpart : part.isSound = true) :
    (s.silenced part).step = s.step.silenced part :=
  silenced_take s part _ _ fun r _ => (s.accept r).silenced_showFrame hpart

theorem silenced_tick (s : Session) (part : Part) :
    (s.silenced part).tick = s.tick.silenced part := by
  apply silenced_andThen
  simp only [silenced_machine]
  cases s.machine.config.stepsPerTick with
  | some n => rfl
  | none => exact silenced_take s part .machine _ fun _ _ => rfl

theorem silenced_poll (s : Session) (hpart : part.isSound = true) (p : Poll) :
    (s.silenced part).poll p = (s.poll p).silenced part := by
  apply silenced_andThen
  -- The samples go first, then the events, and then the step, each of which commutes.
  let counted := { s with polls := s.polls + 1 }
  let played := p.plays.foldl playSound counted
  have hplayed : p.plays.foldl playSound (counted.silenced part) = played.silenced part :=
    silenced_playAll counted part p.plays
  show ((p.plays.foldl playSound (counted.silenced part)).handleAll p.events).andThen step =
    ((played.handleAll p.events).andThen step).silenced part
  rw [hplayed, silenced_handleAll, silenced_andThen step (silenced_step _ hpart)]

theorem silenced_afterPolls (s : Session) (hpart : part.isSound = true) (polls : List Poll) :
    (s.silenced part).afterPolls polls = (s.afterPolls polls).silenced part := by
  induction polls generalizing s with
  | nil => rfl
  | cons p rest ih =>
    rw [afterPolls, List.foldl_cons, silenced_poll s hpart]
    exact ih (s.poll p)

/-! ## The start -/

theorem silenced_openWindow (s : Session) (hpart : part.isSound = true) (build : Build)
    (title : String) (scale : UInt32) :
    (s.silenced part).openWindow build title scale =
      (s.openWindow build title scale).silenced part := by
  simp only [openWindow]
  split
  · exact s.silenced_panicAfter hpart (by simp [Part.isSound]) (by simp)
  · apply s.silenced_attempt hpart
    · simp [windowNeeds, Part.isSound]
    · simp [windowNeeds, Act.isSound]

/-- Up to the sound nothing tells which of the two runs it is. -/
theorem silenced_prepared (settings : Settings) (desk : Desk) (hpart : part.isSound = true)
    (entropy : Random.Key) (build : Build) :
    prepared settings (desk.without part) entropy build =
      (prepared settings desk entropy build).silenced part := by
  have hcreated : created settings (desk.without part) entropy =
      (created settings desk entropy).silenced part := rfl
  simp only [prepared, hcreated]
  rw [silenced_attempt_part _ hpart rfl, silenced_andThen _ (silenced_openWindow _ hpart _ _ _),
    silenced_andThen _ (silenced_attempt_part _ hpart rfl)]

/-- Where the sound card is missing the session complains, and goes on as if it had been opened. -/
theorem silenced_openSound (hpart : part.isSound = true)
    (haudio : s.desk.missing.covers .audio s.polls = false)
    (hplayback : s.desk.missing.covers .playback s.polls = false) (hlog : s.log = #[])
    (hbeeper : s.beeper = none) :
    (s.silenced part).openSound = s.openSound.silenced part := by
  have hopened : s.desk.attempt soundNeeds s.polls = ([.openAudio 44100 1, .startAudio], none) :=
    Desk.attempt_ok (by simp [soundNeeds, haudio, hplayback])
  have hmissing : (s.silenced part).desk.attempt soundNeeds (s.silenced part).polls =
      ([], some part) := Desk.attempt_sound_without hpart haudio
  have hacts : (s.acts ++ [Act.openAudio 44100 1, .startAudio]).filter (!·.isSound) =
      s.acts.filter (!·.isSound) ++ ([] : List Act) := by
    rw [filter_append]
    rfl
  simp only [openSound, hopened, hmissing]
  simp only [silenced, report, complaints, hacts, hlog, hbeeper]
  rfl

theorem silenced_loadProgram (s : Session) (part : Part) (file : String) (rom : List Byte) :
    (s.silenced part).loadProgram file rom = (s.loadProgram file rom).silenced part := by
  refine silenced_take s part .machine _ fun r _ => ?_
  refine silenced_take (s.accept r) part .machine _ fun r' _ => ?_
  exact silenced_report _ part _

/-- A host without sound starts as one with it does, silenced. -/
theorem silenced_start (settings : Settings) {desk : Desk} (hpart : part.isSound = true)
    (haudio : desk.missing.covers .audio 0 = false)
    (hplayback : desk.missing.covers .playback 0 = false) (entropy : Random.Key)
    (rom : Except String (List Byte)) (build : Build) :
    start settings (desk.without part) entropy rom build =
      (start settings desk entropy rom build).silenced part := by
  cases rom with
  | error reason => rfl
  | ok rom =>
    obtain ⟨acts, status, hprepared⟩ := prepared_frame settings desk entropy build
    have hsound : ((prepared settings desk entropy build).silenced part).openSound =
        (prepared settings desk entropy build).openSound.silenced part := by
      rw [hprepared]
      exact silenced_openSound hpart haudio hplayback rfl rfl
    rw [start_ok, start_ok, silenced_prepared settings desk hpart,
      silenced_andThen _ hsound, silenced_andThen _ (silenced_loadProgram _ part _ rom)]

end Session

/-- Two runs of one program on one script, of a machine with its own timing: one on a desk where the
sound card is there when it is opened, and one where it cannot be opened, or not be played. Whatever
else is missing on the desk, and when, is missing in both, and so it is with the build and with a
ROM that cannot be read. From the start on, and after each poll up to the end, the second session is
the first one silenced. After as many polls its machine is in the same state, it runs, quits, fails
or panics alike, and it shows the same frames at the same polls; of the other's acts those that are
not about the sound card came about, in their order; its log has the complaint in front, if the
other came to open the sound card, and no other difference. So it is within the polls, for samples,
events and steps one by one, and the clock does nothing to either. -/
theorem sound_unobservable (settings : Settings) (hper : settings.perStepTimers.isSome = true)
    {desk : Desk} (haudio : desk.missing.covers .audio 0 = false)
    (hplayback : desk.missing.covers .playback 0 = false) {part : Part}
    (hpart : part.isSound = true) (entropy : Random.Key) (rom : Except String (List Byte))
    (build : Build) (script : List Poll) :
    let withSound := Session.start settings desk entropy rom build
    let without := Session.start settings (desk.without part) entropy rom build
    let polls := script ++ [{ events := [.quit] }]
    (∀ s : Session,
      (∀ n, (s.silenced part).playSound n = (s.playSound n).silenced part) ∧
      (∀ event, (s.silenced part).handle event = (s.handle event).silenced part) ∧
      (s.silenced part).step = s.step.silenced part ∧
      (s.silenced part).tick = s.tick.silenced part) ∧
    withSound.run script = withSound.afterPolls polls ∧
    without.run script = (withSound.run script).silenced part ∧
    ∀ k,
      let a := withSound.afterPolls (polls.take k)
      let b := without.afterPolls (polls.take k)
      b = a.silenced part ∧
      b.polls = a.polls ∧
      b.machine = a.machine ∧
      b.status = a.status ∧
      frames b.acts = frames a.acts ∧
      b.acts = a.acts.filter (!·.isSound) ∧
      b.log = (if a.beeper.isSome then #[.muted part.complaint] else #[]) ++ a.log ∧
      a.tick = a ∧ b.tick = b := by
  intro withSound without polls
  have hstart : without = withSound.silenced part :=
    Session.silenced_start settings hpart haudio hplayback entropy rom build
  have hafter : ∀ made, without.afterPolls made = (withSound.afterPolls made).silenced part := by
    intro made
    rw [hstart]
    exact withSound.silenced_afterPolls hpart made
  refine ⟨?_, withSound.run_eq script, ?_, ?_⟩
  · intro s
    exact ⟨s.silenced_playSound part, s.silenced_handle part, s.silenced_step hpart,
      s.silenced_tick part⟩
  · rw [without.run_eq, withSound.run_eq, hafter]
  · intro k a b
    have hb : b = a.silenced part := hafter _
    have hframes : frames b.acts = frames a.acts := by
      rw [hb]
      exact a.silenced_frames part
    refine ⟨hb, ?_, ?_, ?_, hframes, ?_, ?_, ?_, ?_⟩
    case refine_6 => exact Session.tick_afterPolls hper desk entropy rom build _
    case refine_7 => exact Session.tick_afterPolls hper (desk.without part) entropy rom build _
    all_goals rw [hb]; rfl

/-- A program that beeps at its second step and clears the screen at its third, on a desk that
brings no texture to the screen any more from the third poll on: with a sound card and without, the
run fails there, with one frame on the screen. -/
theorem sound_unobservable_beep :
    ∃ (settings : Settings) (desk : Desk) (part : Part) (rom : List Byte) (script : List Poll),
      settings.perStepTimers.isSome = true ∧ desk.missing.covers .audio 0 = false ∧
      desk.missing.covers .playback 0 = false ∧ part.isSound = true ∧
      let withSound := (Session.start settings desk (.ofSeed 0) (.ok rom) .wraps).run script
      let without :=
        (Session.start settings (desk.without part) (.ofSeed 0) (.ok rom) .wraps).run script
      withSound.log.toList.contains (.beep 5) = true ∧
      withSound.acts.toList.any (·.isSound) = true ∧
      without.acts.toList.any (·.isSound) = false ∧
      (frames without.acts).map (·.poll) = [1] ∧
      without.machine.computer.cpu.pc = 0x206 ∧ without.polls = 3 ∧
      without.status = .failed (.desk .copy) := by
  let settings : Settings :=
    { rom := "rom.ch8", ips := 500, scale := 10, seed := some 7, perStepTimers := some 1 }
  let desk : Desk := { missing := ⟨fun part polls => part = .copy && 3 ≤ polls⟩ }
  let rom : List Byte := [0x60, 0x05, 0xF0, 0x18, 0x00, 0xE0, 0x12, 0x08]
  let script : List Poll := [{}, {}, { plays := [40] }, {}]
  have haudio : desk.missing.covers .audio 0 = false := rfl
  have hplayback : desk.missing.covers .playback 0 = false := rfl
  have hpart : Part.playback.isSound = true := rfl
  refine ⟨settings, desk, .playback, rom, script, rfl, haudio, hplayback, hpart, ?_⟩
  intro withSound without
  obtain ⟨-, -, hrun, -⟩ :=
    sound_unobservable settings rfl haudio hplayback hpart (.ofSeed 0) (.ok rom) .wraps script
  have hwithout : without = withSound.silenced .playback := hrun
  have hsounding : withSound.log.toList.contains (.beep 5) = true ∧
      withSound.acts.toList.any (·.isSound) = true ∧
      (frames withSound.acts).map (·.poll) = [1] ∧
      withSound.machine.computer.cpu.pc = 0x206 ∧ withSound.polls = 3 ∧
      withSound.status = .failed (.desk .copy) := by decide +kernel
  obtain ⟨hbeep, hplayed, hshown, hreached⟩ := hsounding
  rw [hwithout, Session.silenced_frames, Session.silenced_silent, Session.silenced_machine,
    Session.silenced_polls, Session.silenced_status]
  exact ⟨hbeep, hplayed, rfl, hshown, hreached⟩

end Host
end ChipEight
