import ChipEight.Proofs.Frames
import ChipEight.Proofs.Host.Driving
import ChipEight.Proofs.Host.Texture

/-!
# ChipEight.Proofs.Host.Showing

What is on the screen is what the machine has on its screen.

* `Session.Shows`   — the polls that bring a frame to the screen.
* `Session.Faithful` — the latest frame encodes the machine's picture, and before the first poll,
  but not later, the machine has a picture that was not shown.
* `Faithful.poll`   — each poll keeps it so, and `Faithful.afterPolls` every run of polls.
* `screen_shows_machine` — a run from its start to its end, poll by poll.
-/

namespace ChipEight
namespace Host

theorem Desk.frame_encodes (d : Desk) (hpitch : Texture.lineSize ≤ d.pitch) (poll : Nat)
    (p : Picture) : Texture.Encodes d.pitch (d.frame poll p).buffer p := by
  have hpainted := Texture.paint_encodes p hpitch (Texture.size_blank d.pitch)
  simp only [Desk.frame]
  exact hpainted

theorem screen_after_keyCalls (m : Machine) (p : Poll) :
    (m.after p.keyCalls).computer.screen = m.computer.screen := by
  have hkeys := @mem_keyCalls p
  generalize p.keyCalls = calls at hkeys
  induction calls generalizing m with
  | nil => rfl
  | cons call rest ih =>
    obtain ⟨key, down, rfl⟩ := hkeys List.mem_cons_self
    have hfirst :
        (m.perform (.setKey (BitVec.ofNat 8 key.val) down)).machine.computer.screen =
          m.computer.screen := m.perform_keeps_screen rfl nofun nofun
    exact (ih _ fun hcall => hkeys (List.mem_cons_of_mem _ hcall)).trans hfirst

namespace Session

/-- A poll brings a frame to the screen: it comes to its end, and it is the first, or its step draws
or clears. -/
def Shows (s : Session) (p : Poll) : Prop :=
  s.Completes p ∧
    (s.polls = 0 ∨ ∃ i,
      ((s.machine.after p.keyCalls).perform .step).value = .ok (.step (.executed i)) ∧
        i.usesScreen = true)

/-- A session after `k` polls: the latest frame encodes the machine's picture. While it runs, there
is a frame if there was a poll, and only before the first poll the machine's picture is new. -/
structure Faithful (desk : Desk) (k : Nat) (s : Session) : Prop where
  desk : s.desk = desk
  polls : s.status = .running → s.polls = k
  latest : ∀ frame, (frames s.acts).getLast? = some frame →
    Texture.Encodes frame.pitch frame.buffer s.machine.computer.screen.picture
  changed : s.status = .running → s.machine.computer.screen.changed = decide (s.polls = 0)
  shown : s.status = .running → s.polls ≠ 0 → frames s.acts ≠ []

variable {s : Session} {desk : Desk} {k : Nat} {p : Poll}

namespace Faithful

/-- Behind the step of a poll the screen is marked, and then the poll shows it, or it is as it was
before the poll, and that is not the first. -/
theorem stepped_cases (h : s.Faithful desk k) (hp : s.Completes p) :
    let screen := ((s.machine.after p.keyCalls).perform .step).machine.computer.screen
    (s.Shows p ∧ screen.changed = true) ∨
      (¬ s.Shows p ∧ s.polls ≠ 0 ∧ screen = s.machine.computer.screen ∧
        screen.changed = false) := by
  intro screen
  -- Before the first poll the mark is there from loading; later only the step can set it.
  have hshows : s.Shows p ↔ s.polls = 0 ∨
      redraws .step ((s.machine.after p.keyCalls).perform .step).value = true := by
    rw [redraws_step]
    exact ⟨fun hshows => hshows.2, fun hdue => ⟨hp, hdue⟩⟩
  cases hd : redraws .step ((s.machine.after p.keyCalls).perform .step).value with
  | true => exact .inl ⟨hshows.mpr (.inr hd), Machine.changed_of_redraws _ hd⟩
  | false =>
    have hcall : Call.step ≠ .takeFrame := nofun
    have hscreen : screen = s.machine.computer.screen :=
      (Machine.screen_of_not_redraws _ hcall hd).trans (screen_after_keyCalls _ p)
    have hchanged := h.changed hp.1
    rw [← hscreen] at hchanged
    by_cases hfirst : s.polls = 0
    · rw [decide_eq_true hfirst] at hchanged
      exact .inl ⟨hshows.mpr (.inl hfirst), hchanged⟩
    · rw [decide_eq_false hfirst] at hchanged
      have hnot : ¬ s.Shows p := by
        rw [hshows, hd]
        simp [hfirst]
      exact .inr ⟨hnot, hfirst, hscreen, hchanged⟩

theorem poll_shows (h : s.Faithful desk k) (hdesk : desk.Draws) (hp : s.Shows p) :
    let picture :=
      ((s.machine.after p.keyCalls).perform .step).machine.computer.screen.picture
    (s.poll p).desk = desk ∧ (s.poll p).polls = s.polls + 1 ∧
      (s.poll p).machine.computer.screen = ⟨picture, false⟩ ∧
      frames (s.poll p).acts = frames s.acts ++ [desk.frame (s.polls + 1) picture] := by
  intro picture
  obtain ⟨hr, hq, value, hv⟩ := hp.1
  obtain ⟨beeper, acts, log, hpoll, hframes⟩ := poll_completed hr (h.desk ▸ hdesk) hq hv
  have hchanged := (h.stepped_cases hp.1).elim And.right fun hnot => absurd hp hnot.1
  have htaken : (s.machine.after (p.keyCalls ++ [.step])).computer.screen.take.2 =
      some picture := by
    rw [Machine.after_append]
    exact if_pos hchanged
  rw [htaken, h.desk] at hframes
  rw [hpoll, Poll.calls, Machine.after_append]
  exact ⟨h.desk, rfl, rfl, hframes⟩

theorem poll_shows_nothing (h : s.Faithful desk k) (hdesk : desk.Draws) (hp : ¬ s.Shows p) :
    (s.poll p).desk = desk ∧
      (s.poll p).machine.computer.screen = s.machine.computer.screen ∧
      frames (s.poll p).acts = frames s.acts ∧
      ((s.poll p).status = .running → s.status = .running ∧ s.polls ≠ 0 ∧
        (s.poll p).polls = s.polls + 1) := by
  by_cases hcompletes : s.Completes p
  · obtain ⟨hr, hq, value, hv⟩ := hcompletes
    obtain ⟨beeper, acts, log, hpoll, hframes⟩ := poll_completed hr (h.desk ▸ hdesk) hq hv
    obtain ⟨hshows, -⟩ | ⟨-, hlater, hscreen, hunmarked⟩ := h.stepped_cases ⟨hr, hq, value, hv⟩
    · exact absurd hshows hp
    have htaken : (s.machine.after (p.keyCalls ++ [.step])).computer.screen.take.2 = none := by
      rw [Machine.after_append]
      exact if_neg (Bool.eq_false_iff.mp hunmarked)
    have hsettled : (s.machine.after p.calls).computer.screen = s.machine.computer.screen := by
      rw [← hscreen, Poll.calls, Machine.after_append]
      exact congrArg (Screen.mk _) hunmarked.symm
    rw [htaken] at hframes
    rw [hpoll]
    exact ⟨h.desk, hsettled, hframes.trans (List.append_nil _), fun _ => ⟨hr, hlater, rfl⟩⟩
  · obtain ⟨hover, hkept, hframes, hmachine⟩ := poll_stops hcompletes
    have hscreen : (s.poll p).machine.computer.screen = s.machine.computer.screen := by
      rcases hmachine with hmachine | hmachine
      · rw [hmachine]
      · rw [hmachine, screen_after_keyCalls]
    exact ⟨hkept.trans h.desk, hscreen, hframes, fun hgoes => absurd hgoes hover⟩

theorem poll (h : s.Faithful desk k) (hdesk : desk.Draws) (p : Poll) :
    (s.poll p).Faithful desk (k + 1) := by
  by_cases hp : s.Shows p
  · obtain ⟨hsame, hpolls, hscreen, hframes⟩ := h.poll_shows hdesk hp
    refine ⟨hsame, ?_, ?_, ?_, ?_⟩
    · intro _
      rw [hpolls, h.polls hp.1.1]
    · intro frame hlast
      rw [hframes, List.getLast?_concat] at hlast
      cases hlast
      rw [hscreen]
      exact desk.frame_encodes hdesk.pitch _ _
    · intro _
      rw [hscreen, hpolls]
      rfl
    · intro _ _
      rw [hframes]
      exact List.append_ne_nil_of_right_ne_nil _ (List.cons_ne_nil _ _)
  · obtain ⟨hsame, hscreen, hframes, hrunning⟩ := h.poll_shows_nothing hdesk hp
    refine ⟨hsame, ?_, ?_, ?_, ?_⟩
    · intro hgoes
      obtain ⟨hr, -, hpolls⟩ := hrunning hgoes
      rw [hpolls, h.polls hr]
    · rw [hframes, hscreen]
      exact h.latest
    · intro hgoes
      obtain ⟨hr, hlater, hpolls⟩ := hrunning hgoes
      rw [hscreen, hpolls, h.changed hr, decide_eq_false hlater]
      rfl
    · intro hgoes _
      obtain ⟨hr, hlater, -⟩ := hrunning hgoes
      rw [hframes]
      exact h.shown hr hlater

theorem afterPolls (h : s.Faithful desk k) (hdesk : desk.Draws) (polls : List Poll) :
    (s.afterPolls polls).Faithful desk (k + polls.length) := by
  induction polls generalizing s k with
  | nil => exact h
  | cons p rest ih =>
    rw [List.length_cons, Nat.add_comm rest.length, ← Nat.add_assoc]
    exact ih (h.poll hdesk p)

end Faithful

/-- At the start nothing is on the screen, and a program that was loaded has a new picture. The
first poll is made if the program fits and there is a window. -/
theorem start_faithful (settings : Settings) {desk : Desk} (hdesk : desk.Draws)
    (entropy : Random.Key) (rom : List Byte) (build : Build) :
    let s := start settings desk entropy (.ok rom) build
    s.Faithful desk 0 ∧ frames s.acts = [] ∧
      (s.status = .running ↔ rom.length ≤ 3584 ∧ build.refuses settings.scale.toNat = false) := by
  cases hsize : build.refuses settings.scale.toNat with
  | true =>
    rw [start_panics settings hdesk entropy hsize]
    exact ⟨⟨rfl, fun _ => rfl, nofun, nofun, nofun⟩, rfl, nofun, nofun⟩
  | false =>
    by_cases hrom : rom.length ≤ 3584
    · obtain ⟨beeper, acts, log, hstart, hframes⟩ :=
        start_loaded settings hdesk entropy hsize hrom
      have hloaded := (Machine.create_loaded settings.config entropy hrom).2
      rw [hstart]
      refine ⟨⟨rfl, fun _ => rfl, ?_, fun _ => hloaded.changed, fun _ h => absurd rfl h⟩, hframes,
        fun _ => ⟨hrom, rfl⟩, fun _ => rfl⟩
      intro frame hlast
      rw [hframes] at hlast
      cases hlast
    · obtain ⟨beeper, acts, log, hstart, hframes⟩ :=
        start_refused settings hdesk entropy hsize (Nat.lt_of_not_le hrom)
      rw [hstart]
      refine ⟨⟨rfl, fun _ => rfl, ?_, nofun, nofun⟩, hframes, nofun, fun h => absurd h.1 hrom⟩
      intro frame hlast
      rw [hframes] at hlast
      cases hlast

end Session

/-- The host of a machine with its own timing, on a desk where nothing but the sound may fail and
where a row of a texture takes a line of pixels. Whatever the ROM, before the first poll nothing
is on the screen, and there is a first poll if the ROM fits, unless the build panics on the width of
the window. A poll brings one frame to the screen if its step succeeds and it is the first poll or
its step executes 00E0 or DXYN, and no frame otherwise; the frame encodes the picture behind that
step. So behind every poll that comes to its end there is a frame, and the latest frame always
encodes the machine's picture, also when the run is over. The clock does nothing in between. -/
theorem screen_shows_machine (settings : Settings) (hper : settings.perStepTimers.isSome = true)
    {desk : Desk} (hdesk : desk.Draws) (entropy : Random.Key) (rom : List Byte) (build : Build)
    (script : List Poll) :
    let start := Session.start settings desk entropy (.ok rom) build
    let polls := script ++ [{ events := [.quit] }]
    let session := fun k => start.afterPolls (polls.take k)
    let oversized := build = .panics ∧ UInt32.size ≤ Picture.width * settings.scale.toNat
    frames (session 0).acts = [] ∧
    ((session 0).status = .running ↔ rom.length ≤ 3584 ∧ ¬ oversized) ∧
    session polls.length = start.run script ∧
    (∀ k p, polls[k]? = some p →
      let shown := ((session k).machine.after p.keyCalls).perform .step
      ((session k).Shows p → ∃ buffer,
        frames (session (k + 1)).acts =
            frames (session k).acts ++ [⟨k + 1, desk.pitch, buffer⟩] ∧
          Texture.Encodes desk.pitch buffer shown.machine.computer.screen.picture) ∧
      (¬ (session k).Shows p → frames (session (k + 1)).acts = frames (session k).acts)) ∧
    ∀ k ≤ polls.length,
      (session k).tick = session k ∧
      ((session k).status = .running →
        (session k).polls = k ∧ (k ≠ 0 → frames (session k).acts ≠ [])) ∧
      ∀ frame, (frames (session k).acts).getLast? = some frame →
        Texture.Encodes frame.pitch frame.buffer
          (session k).machine.computer.screen.picture := by
  intro start polls session oversized
  obtain ⟨hstart, hempty, hruns⟩ := Session.start_faithful settings hdesk entropy rom build
  have hsession : ∀ k ≤ polls.length, (session k).Faithful desk k := by
    intro k hk
    have hafter := hstart.afterPolls hdesk (polls.take k)
    rw [List.length_take_of_le hk, Nat.zero_add] at hafter
    exact hafter
  refine ⟨hempty, ?_, ?_, ?_, ?_⟩
  · simp only [oversized, ← Build.refuses_iff, Bool.not_eq_true]
    exact hruns
  · simp only [session, List.take_length]
    exact (start.run_eq script).symm
  · intro k p hp shown
    have hk := Nat.le_of_lt (List.getElem?_eq_some_iff.mp hp).1
    have hnext : session (k + 1) = (session k).poll p := by
      simp only [session, List.take_add_one, hp, Session.afterPolls_append]
      rfl
    rw [hnext]
    constructor
    · intro hshows
      obtain ⟨-, -, -, hframes⟩ := (hsession k hk).poll_shows hdesk hshows
      have hencodes :=
        desk.frame_encodes hdesk.pitch (k + 1) shown.machine.computer.screen.picture
      rw [(hsession k hk).polls hshows.1.1] at hframes
      simp only [Desk.frame] at hframes hencodes
      exact ⟨_, hframes, hencodes⟩
    · intro hnot
      exact ((hsession k hk).poll_shows_nothing hdesk hnot).2.2.1
  · intro k hk
    have hfaithful := hsession k hk
    refine ⟨Session.tick_afterPolls hper desk entropy (.ok rom) build _, ?_, hfaithful.latest⟩
    · intro hr
      have hpolls := hfaithful.polls hr
      refine ⟨hpolls, fun hlater => hfaithful.shown hr ?_⟩
      rw [hpolls]
      exact hlater

/-- A step that sets a register, one that draws the glyph of 0, and one that does neither: two
frames, and the glyph stays on the screen. The rows of the textures are padded. -/
theorem screen_shows_machine_glyph :
    ∃ (settings : Settings) (desk : Desk) (rom : List Byte) (script : List Poll),
      settings.perStepTimers.isSome = true ∧ desk.Draws ∧
      let run := (Session.start settings desk (.ofSeed 0) (.ok rom) .wraps).run script
      (frames run.acts).map (fun frame => (frame.poll, frame.pitch)) = [(1, 200), (2, 200)] ∧
      ∃ frame, (frames run.acts).getLast? = some frame ∧
        frame.buffer[200 + 3 * 4]? = some 0 ∧ frame.buffer[200 + 3 * 5]? = some 255 := by
  let settings : Settings :=
    { rom := "rom.ch8", ips := 500, scale := 10, seed := some 7, perStepTimers := some 1 }
  let desk : Desk := { pitch := 200 }
  let rom : List Byte := [0x60, 0x05, 0xD0, 0x15]
  let script : List Poll := [{}, {}, {}]
  have hdesk : desk.Draws := ⟨by decide, nofun⟩
  refine ⟨settings, desk, rom, script, rfl, hdesk, ?_⟩
  intro run
  have hpolls : (frames run.acts).map (fun frame => (frame.poll, frame.pitch)) =
      [(1, 200), (2, 200)] := by decide +kernel
  have hlit : run.machine.computer.screen.picture.lit 4 1 = false ∧
      run.machine.computer.screen.picture.lit 5 1 = true := by decide +kernel
  obtain ⟨frame, hlast, hframe⟩ := Option.map_eq_some_iff.mp
    (List.getLast?_map.symm.trans (congrArg List.getLast? hpolls))
  have hrow : frame.pitch = 200 := congrArg Prod.snd hframe
  obtain ⟨-, -, hends, -, hlatest⟩ :=
    screen_shows_machine settings rfl hdesk (.ofSeed 0) rom .wraps script
  have hrun : Session.afterPolls _ _ = run := hends
  have hencodes := (hlatest _ (Nat.le_refl _)).2.2
  simp only [hrun] at hencodes
  have hcolours := hencodes frame hlast
  generalize run.machine.computer.screen.picture = picture at hlit hcolours
  rw [hrow] at hcolours
  have hdark := hcolours 4 1 0 (by decide) (by decide) (by decide)
  have hbright := hcolours 5 1 0 (by decide) (by decide) (by decide)
  rw [hlit.1] at hdark
  rw [hlit.2] at hbright
  exact ⟨hpolls, frame, hlast, hdark, hbright⟩

end Host
end ChipEight
