import ChipEight.Proofs.Footprint

/-!
# ChipEight.Proofs.Frames

No change of the picture is lost on its way to a host that asks for frames, however seldom.

* `redraws`          — the calls that there is a new frame behind.
* `sinceFrame`, `redrawn` — the calls since a frame was last asked for, and whether one redrew.
* `Machine.shown`    — the picture of a renderer that replaces it by each frame it gets.
* `changed_of_redraws`, `screen_of_not_redraws` — a call marks the screen, or leaves it alone.
* `Machine.Tracked`  — the mark tells whether the screen was redrawn, and without it the renderer
  shows what is on the screen. Each call keeps it so (`Tracked.perform`), and with it every history.
* `no_update_lost`   — from a new machine and a dark renderer.
-/

namespace ChipEight

/-- Whether a call drew or cleared the screen, by its outcome: it executed 00E0 or DXYN, or it
started the machine over. -/
def redraws (call : Call) : Except Error Answer → Bool
  | .error _ => false
  | .ok (.step (.executed i)) => i.usesScreen
  | .ok _ => call.restarts

theorem redraws_step {value : Except Error Answer} :
    redraws .step value = true ↔
      ∃ i, value = .ok (.step (.executed i)) ∧ i.usesScreen = true := by
  unfold redraws
  split
  case h_1 => simp
  case h_2 i => simp
  case h_3 => simp_all [Call.restarts]

/-- The picture of a renderer after one more reply: a frame replaces it, and nothing else does. -/
def refreshed (picture : Picture) : Except Error Answer → Picture
  | .ok (.frame (some frame)) => frame
  | _ => picture

/-- Of calls with their outcomes, the latest first, those since a frame was last asked for. -/
def sinceFrame (past : List (Call × Except Error Answer)) : List (Call × Except Error Answer) :=
  past.takeWhile fun (call, _) => call ≠ .takeFrame

/-- Whether one of the calls since a frame was last asked for redrew the screen. -/
def redrawn (past : List (Call × Except Error Answer)) : Bool :=
  (sinceFrame past).any fun (call, value) => redraws call value

theorem redrawn_takeFrame (value : Except Error Answer) (past : List (Call × Except Error Answer)) :
    redrawn ((.takeFrame, value) :: past) = false := rfl

theorem redrawn_cons {call : Call} (hf : call ≠ .takeFrame) (value : Except Error Answer)
    (past : List (Call × Except Error Answer)) :
    redrawn ((call, value) :: past) = (redraws call value || redrawn past) := by
  simp [redrawn, sinceFrame, hf]

namespace Machine

variable (m : Machine)

def outcomes (calls : List Call) : List (Except Error Answer) :=
  (m.performAll calls).map (·.value)

/-- The calls of a history with their outcomes, the latest first. -/
def past (calls : List Call) : List (Call × Except Error Answer) :=
  (calls.zip (m.outcomes calls)).reverse

/-- The picture that a renderer shows after a history, if it was this one before. -/
def shown (picture : Picture) (calls : List Call) : Picture :=
  (m.outcomes calls).foldl refreshed picture

/-! ## One call -/

theorem perform_keeps_screen {call : Call} (hc : call.restarts = false) (hs : call ≠ .step)
    (hf : call ≠ .takeFrame) :
    (m.perform call).machine.computer.screen = m.computer.screen := by
  cases call with
  | step => exact absurd rfl hs
  | takeFrame => exact absurd rfl hf
  | tick =>
    rw [perform_tick]
    cases m.ready <;> rfl
  | setKey key down =>
    rw [perform_setKey]
    cases m.computer.keypad.set key down <;> rfl
  | fetch =>
    rw [perform_fetch]
    cases m.ready <;> rfl
  | programListing => rfl
  | _ => cases hc

theorem changed_of_redraws {call : Call} (h : redraws call (m.perform call).value = true) :
    (m.perform call).machine.computer.screen.changed = true := by
  unfold redraws at h
  split at h
  case h_1 => cases h
  case h_2 i hv =>
    cases m.call_of_step hv
    obtain ⟨sinceTick, delay, sound, hm⟩ := m.perform_executed hv
    rw [hm]
    cases i with
    | clear => rfl
    | draw x y rows => rfl
    | _ => cases h
  case h_3 hv =>
    rcases m.perform_restart_cases h with ⟨e, he⟩ | ⟨answer, ready, memory, log, hm⟩
    · rw [he] at hv
      cases hv
    · rw [hm]
      rfl

/-- No other call touches the screen, but for the mark that goes with a frame. -/
theorem screen_of_not_redraws {call : Call} (hf : call ≠ .takeFrame)
    (h : redraws call (m.perform call).value = false) :
    (m.perform call).machine.computer.screen = m.computer.screen := by
  by_cases hs : call = .step
  · subst hs
    apply m.step_keeps_screen
    intro i hi
    simpa [hi, redraws] using h
  · cases hc : call.restarts with
    | false => exact m.perform_keeps_screen hc hs hf
    | true =>
      rcases m.perform_restart_cases hc with ⟨e, he⟩ | ⟨answer, ready, memory, log, hm⟩
      · rw [he]
      · cases answer with
        | step s => exact absurd (congrArg (·.value) hm) (m.perform_other_value hs s)
        | _ => simp [hm, redraws, hc] at h

theorem perform_other_frame_value {call : Call} (hf : call ≠ .takeFrame)
    (frame : Option Picture) : (m.perform call).value ≠ .ok (.frame frame) := by
  cases call with
  | takeFrame => exact absurd rfl hf
  | _ =>
    apply settle_value_ne
    intro x hx
    cases hx

theorem refreshed_other {call : Call} (hf : call ≠ .takeFrame) (picture : Picture) :
    refreshed picture (m.perform call).value = picture := by
  unfold refreshed
  split
  case h_1 frame hv => exact absurd hv (m.perform_other_frame_value hf frame)
  case h_2 => rfl

/-! ## Histories -/

/-- A machine and a renderer: the screen is marked if it was redrawn since a frame was last asked
for, and otherwise the renderer shows what is on it. -/
structure Tracked (past : List (Call × Except Error Answer)) (picture : Picture) (m : Machine) :
    Prop where
  changed : m.computer.screen.changed = redrawn past
  picture : m.computer.screen.changed = false → picture = m.computer.screen.picture

variable {m} {past : List (Call × Except Error Answer)} {picture : Picture}

namespace Tracked

theorem takeFrame_value (h : m.Tracked past picture) :
    (m.perform .takeFrame).value =
      .ok (.frame (if redrawn past then some m.computer.screen.picture else none)) := by
  rw [← h.changed]
  rfl

theorem refreshed_takeFrame (h : m.Tracked past picture) :
    refreshed picture (m.perform .takeFrame).value = m.computer.screen.picture := by
  have hpicture := h.picture
  rw [h.changed] at hpicture
  rw [h.takeFrame_value]
  cases hr : redrawn past with
  | true => rfl
  | false => exact hpicture hr

theorem perform (h : m.Tracked past picture) (call : Call) :
    (m.perform call).machine.Tracked ((call, (m.perform call).value) :: past)
      (refreshed picture (m.perform call).value) := by
  by_cases hf : call = .takeFrame
  · subst hf
    exact ⟨(redrawn_takeFrame _ past).symm, fun _ => h.refreshed_takeFrame⟩
  · rw [m.refreshed_other hf]
    cases hr : redraws call (m.perform call).value with
    | true =>
      have hchanged := m.changed_of_redraws hr
      refine ⟨?_, ?_⟩
      · rw [hchanged, redrawn_cons hf, hr, Bool.true_or]
      · intro hnot
        rw [hchanged] at hnot
        cases hnot
    | false =>
      have hscreen := m.screen_of_not_redraws hf hr
      refine ⟨?_, ?_⟩
      · rw [hscreen, redrawn_cons hf, hr, Bool.false_or]
        exact h.changed
      · rw [hscreen]
        exact h.picture

theorem after (h : m.Tracked past picture) (calls : List Call) :
    (m.after calls).Tracked (m.past calls ++ past) (m.shown picture calls) := by
  -- The renderer is any that keeps track so far, not only a dark one: `perform` moves it on.
  induction calls generalizing m past picture with
  | nil => exact h
  | cons call rest ih =>
    have hrest := ih (h.perform call)
    have hpast : m.past (call :: rest) ++ past =
        (m.perform call).machine.past rest ++ (call, (m.perform call).value) :: past := by
      simp [Machine.past, outcomes, performAll]
    rw [hpast]
    exact hrest

end Tracked

theorem create_tracked (config : Config) (entropy : Random.Key) :
    (create config entropy).Tracked [] Picture.dark :=
  ⟨rfl, fun _ => rfl⟩

/-- However a host mixes its calls: it gets a frame exactly if some call since it last asked for one
redrew the screen, the frame is the picture on the screen, and a renderer that starts dark shows the
picture on the screen whenever the host has just asked. -/
theorem no_update_lost (config : Config) (entropy : Random.Key) (calls : List Call) :
    let start := create config entropy
    let m := start.after calls
    let asked := start.after (calls ++ [.takeFrame])
    (m.perform .takeFrame).value =
        .ok (.frame (if redrawn (start.past calls) then some m.computer.screen.picture else none)) ∧
      start.shown Picture.dark (calls ++ [.takeFrame]) = asked.computer.screen.picture ∧
      asked.computer.screen.picture = m.computer.screen.picture := by
  intro start m asked
  have htracked := (create_tracked config entropy).after calls
  rw [List.append_nil] at htracked
  have hasked : asked = (m.perform .takeFrame).machine := start.after_append calls [.takeFrame]
  have hshown : start.shown Picture.dark (calls ++ [.takeFrame]) =
      refreshed (start.shown Picture.dark calls) (m.perform .takeFrame).value := by
    simp [shown, outcomes, performAll_append, performAll, m]
  have hpicture : asked.computer.screen.picture = m.computer.screen.picture := by
    rw [hasked]
    rfl
  refine ⟨htracked.takeFrame_value, ?_, hpicture⟩
  rw [hshown, hpicture]
  exact htracked.refreshed_takeFrame

end Machine
end ChipEight
