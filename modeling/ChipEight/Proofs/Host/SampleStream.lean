import ChipEight.Host.SquareWave
import Mathlib.Data.List.Induction

/-!
# ChipEight.Proofs.Host.SampleStream

The samples of a beeper in one stream, numbered from 0, however the sound card fetches them.

* `SoundEvent`   — a beep that is asked for, or samples that are fetched, as data; `Beeper.stream`
  is all samples of a list of them.
* `requests`     — the beeps, each with the number of samples before it, and `latest?`, the one that
  a sample is under.
* `tone`         — the sample that is due at a time when there is sound; it depends on nothing else.
* `Beeper.awaited` — the beeper that there must be after some events, said without running it.
* `handle_awaited` — each event takes it to the one after that event too, and gives the samples that
  are due.
* `stream_eq`    — so the stream is the due samples, and `samples_by_requests` says what follows.
-/

namespace ChipEight
namespace Host

inductive SoundEvent where
  | request (ticks : Byte)
  /-- The sound card fetches so many samples. -/
  | play (n : Nat)
  deriving DecidableEq

def SoundEvent.length : SoundEvent → Nat
  | .request _ => 0
  | .play n => n

namespace Beeper

def handle (b : Beeper) : SoundEvent → List Sample × Beeper
  | .request ticks => ([], b.request ticks)
  | .play n => ((b.play n).1.toList, (b.play n).2)

def after (b : Beeper) (events : List SoundEvent) : Beeper :=
  events.foldl (fun b event => (b.handle event).2) b

def stream (b : Beeper) : List SoundEvent → List Sample
  | [] => []
  | event :: rest => (b.handle event).1 ++ (b.handle event).2.stream rest

end Beeper

/-! ## What is due -/

def produced : List SoundEvent → Nat
  | [] => 0
  | event :: rest => event.length + produced rest

/-- The beeps that are asked for, each with the number of samples before it; there were `p` before
the events. -/
def requestsFrom (p : Nat) : List SoundEvent → List (Nat × Byte)
  | [] => []
  | .request ticks :: rest => (p, ticks) :: requestsFrom p rest
  | .play n :: rest => requestsFrom (p + n) rest

def requests (events : List SoundEvent) : List (Nat × Byte) := requestsFrom 0 events

/-- The last beep that was asked for before sample `t`. -/
def latest? (events : List SoundEvent) (t : Nat) : Option (Nat × Byte) :=
  (requests events).reverse.find? (·.1 ≤ t)

/-- How many samples a beep has left at sample `t`. -/
def left (frequency t : Nat) : Option (Nat × Byte) → Nat
  | none => 0
  | some (p, ticks) => ticks.toNat * (frequency / 60) - (t - p)

def phaseAt (frequency : Nat) : Nat → Float32
  | 0 => 0
  | t + 1 => SquareWave.advance (SquareWave.ofFrequency frequency).increment (phaseAt frequency t)

/-- What sounds at sample `t` if anything does. -/
def tone (frequency t : Nat) : Sample := if phaseAt frequency t ≤ 0.5 then .high else .low

def due (frequency : Nat) (events : List SoundEvent) (t : Nat) : Sample :=
  if left frequency t (latest? events t) = 0 then .silent else tone frequency t

/-- The wave at sample `t`, with so many samples left to sound. -/
def waveAt (frequency t remaining : Nat) : SquareWave where
  increment := (SquareWave.ofFrequency frequency).increment
  phase := phaseAt frequency t
  remaining := remaining

/-- The beeper that there must be after events. -/
def Beeper.awaited (frequency : Nat) (events : List SoundEvent) : Beeper where
  wave :=
    let t := produced events
    waveAt frequency t (left frequency t (latest? events t))
  samplesPerTick := frequency / 60

variable (frequency : Nat) (events : List SoundEvent)

theorem produced_append (more : List SoundEvent) :
    produced (events ++ more) = produced events + produced more := by
  induction events with
  | nil => rw [List.nil_append, produced, Nat.zero_add]
  | cons event rest ih => rw [List.cons_append, produced, produced, ih, Nat.add_assoc]

theorem requestsFrom_append (p : Nat) (more : List SoundEvent) :
    requestsFrom p (events ++ more) =
      requestsFrom p events ++ requestsFrom (p + produced events) more := by
  induction events generalizing p with
  | nil => rfl
  | cons event rest ih =>
    cases event with
    | request ticks =>
      rw [List.cons_append, requestsFrom, requestsFrom, ih, List.cons_append]
      simp [produced, SoundEvent.length]
    | play n =>
      rw [List.cons_append, requestsFrom, requestsFrom, ih]
      simp [produced, SoundEvent.length, Nat.add_assoc]

theorem latest?_request (ticks : Byte) (t : Nat) :
    latest? (events ++ [.request ticks]) t =
      if produced events ≤ t then some (produced events, ticks) else latest? events t := by
  rw [latest?, requests, requestsFrom_append, Nat.zero_add, List.reverse_append]
  simp only [requestsFrom, List.reverse_cons, List.reverse_nil, List.nil_append,
    List.singleton_append, List.find?_cons]
  by_cases h : produced events ≤ t
  · simp [h]
  · simp [h, latest?, requests]

theorem latest?_play (n t : Nat) : latest? (events ++ [.play n]) t = latest? events t := by
  rw [latest?, requests, requestsFrom_append, latest?, requests]
  simp [requestsFrom]

/-- At and after the last sample so far, the beep that a sample is under is the last one of all. -/
theorem latest?_of_ge {t : Nat} (h : produced events ≤ t) :
    latest? events t = latest? events (produced events) := by
  induction events using List.reverseRecOn generalizing t with
  | nil => rfl
  | append_singleton earlier event ih =>
    rw [produced_append] at h ⊢
    cases event with
    | request ticks =>
      have hlast : produced [.request ticks] = 0 := rfl
      rw [latest?_request, latest?_request, if_pos (by omega), if_pos (by omega)]
    | play n =>
      have hlast : produced [.play n] = n := Nat.add_zero n
      have hbehind : produced earlier ≤ produced earlier + produced [.play n] :=
        Nat.le_add_right _ _
      rw [latest?_play, latest?_play, ih (by omega), ih hbehind]

theorem left_add (t i : Nat) :
    left frequency (t + i) (latest? events t) = left frequency t (latest? events t) - i := by
  cases hlatest : latest? events t with
  | none => exact (Nat.zero_sub i).symm
  | some beep =>
    obtain ⟨p, ticks⟩ := beep
    have hp : p ≤ t := of_decide_eq_true (List.find?_some hlatest :)
    simp only [left]
    omega

theorem playOnto_waveAt (t remaining n : Nat) (played : Array Sample) :
    SquareWave.playOnto played n (waveAt frequency t remaining) =
      (played ++ ((List.range n).map fun i =>
          if remaining - i = 0 then .silent else tone frequency (t + i)).toArray,
        waveAt frequency (t + n) (remaining - n)) := by
  induction n generalizing t remaining played with
  | zero => simp [SquareWave.playOnto]
  | succ n ih =>
    have hnext : (waveAt frequency t remaining).next = waveAt frequency (t + 1) (remaining - 1) :=
      rfl
    have hsample : (waveAt frequency t remaining).sample =
        if remaining - 0 = 0 then .silent else tone frequency (t + 0) := rfl
    have hplace : ∀ i, t + 1 + i = t + (i + 1) ∧ remaining - 1 - i = remaining - (i + 1) := by
      omega
    rw [SquareWave.playOnto, hnext, ih, hsample, List.range_succ_eq_map, List.map_cons,
      List.map_map]
    simp [hplace, Function.comp_def]

theorem awaited_eq {t : Nat} {beep : Option (Nat × Byte)} (ht : produced events = t)
    (hbeep : latest? events t = beep) :
    Beeper.awaited frequency events =
      { wave := waveAt frequency t (left frequency t beep), samplesPerTick := frequency / 60 } := by
  subst ht hbeep
  rfl

theorem request_awaited (ticks : Byte) :
    (Beeper.awaited frequency events).request ticks =
      .awaited frequency (events ++ [.request ticks]) := by
  have hproduced : produced (events ++ [.request ticks]) = produced events :=
    produced_append events [.request ticks]
  have hlatest := latest?_request events ticks (produced events)
  rw [if_pos (Nat.le_refl _)] at hlatest
  have hleft : left frequency (produced events) (some (produced events, ticks)) =
      ticks.toNat * (frequency / 60) := by
    rw [left, Nat.sub_self, Nat.sub_zero]
  rw [awaited_eq _ _ hproduced hlatest, hleft]
  rfl

theorem play_awaited (n : Nat) :
    (Beeper.awaited frequency events).play n =
      (((List.range n).map fun i => due frequency events (produced events + i)).toArray,
        .awaited frequency (events ++ [.play n])) := by
  have hproduced : produced (events ++ [.play n]) = produced events + n :=
    produced_append events [.play n]
  have hlatest : ∀ i, latest? events (produced events + i) = latest? events (produced events) :=
    fun i => latest?_of_ge events (Nat.le_add_right _ i)
  have hlatest' := (latest?_play events n (produced events + n)).trans (hlatest n)
  rw [awaited_eq _ _ hproduced hlatest', awaited_eq _ _ rfl rfl, Beeper.play, SquareWave.play]
  simp only [playOnto_waveAt, left_add, due, hlatest, Array.empty_append]

/-- An event takes the beeper that there must be before it to the one that there must be after it,
and gives the samples that are due from where the others end. -/
theorem handle_awaited (event : SoundEvent) :
    (Beeper.awaited frequency events).handle event =
      ((List.range event.length).map fun i => due frequency events (produced events + i),
        .awaited frequency (events ++ [event])) := by
  cases event with
  | request ticks =>
    rw [Beeper.handle, request_awaited]
    rfl
  | play n =>
    rw [Beeper.handle, play_awaited]
    rfl

theorem tone_ne_silent (t : Nat) : tone frequency t ≠ .silent := by
  rw [tone]
  split <;> exact Sample.noConfusion

theorem due_eq_tone {t : Nat} (h : due frequency events t ≠ .silent) :
    due frequency events t = tone frequency t := by
  rw [due] at h ⊢
  split at h
  case isTrue => exact absurd rfl h
  case isFalse hleft => exact if_neg hleft

theorem due_ne_silent_iff (t : Nat) :
    due frequency events t ≠ .silent ↔
      ∃ p ticks, latest? events t = some (p, ticks) ∧ t - p < ticks.toNat * (frequency / 60) := by
  have hheard : due frequency events t ≠ .silent ↔
      left frequency t (latest? events t) ≠ 0 := by
    rw [due]
    split
    case isTrue hleft => simp [hleft]
    case isFalse hleft => simp [hleft, tone_ne_silent]
  rw [hheard]
  cases latest? events t with
  | none => simp [left]
  | some beep =>
    obtain ⟨p, ticks⟩ := beep
    have hleft : left frequency t (some (p, ticks)) ≠ 0 ↔
        t - p < ticks.toNat * (frequency / 60) := by
      rw [left]
      omega
    rw [hleft]
    constructor
    · intro h
      exact ⟨p, ticks, rfl, h⟩
    · rintro ⟨_, _, hbeep, h⟩
      cases hbeep
      exact h

/-- What is due by then does not change when more happens. -/
theorem due_append (event : SoundEvent) {t : Nat} (ht : t < produced (events ++ [event])) :
    due frequency (events ++ [event]) t = due frequency events t := by
  cases event with
  | request ticks =>
    have hproduced : produced (events ++ [.request ticks]) = produced events :=
      produced_append events [.request ticks]
    rw [hproduced] at ht
    rw [due, latest?_request, if_neg (Nat.not_le.mpr ht), due]
  | play n => rw [due, latest?_play, due]

namespace Beeper

theorem stream_append (b : Beeper) (more : List SoundEvent) :
    b.stream (events ++ more) = b.stream events ++ (b.after events).stream more := by
  induction events generalizing b with
  | nil => rfl
  | cons event rest ih =>
    rw [List.cons_append, stream, stream, ih, List.append_assoc]
    rfl

theorem after_eq : (ofFrequency frequency).after events = awaited frequency events := by
  induction events using List.reverseRecOn with
  | nil => rfl
  | append_singleton earlier event ih =>
    have hstep : (ofFrequency frequency).after (earlier ++ [event]) =
        (((ofFrequency frequency).after earlier).handle event).2 := List.foldl_append
    rw [hstep, ih, handle_awaited]

theorem stream_eq :
    (ofFrequency frequency).stream events =
      (List.range (produced events)).map (due frequency events) := by
  induction events using List.reverseRecOn with
  | nil => rfl
  | append_singleton earlier event ih =>
    have hproduced : produced (earlier ++ [event]) = produced earlier + event.length :=
      produced_append earlier [event]
    have hdue : (List.range (produced (earlier ++ [event]))).map
          (due frequency (earlier ++ [event])) =
        (List.range (produced (earlier ++ [event]))).map (due frequency earlier) :=
      List.map_congr_left fun t ht => due_append frequency earlier event (List.mem_range.mp ht)
    rw [stream_append, ih, after_eq, stream, handle_awaited, stream, List.append_nil, hdue,
      hproduced, List.range_add, List.map_append, List.map_map]
    rfl

/-- The same beeps at the same places among as many samples make the same stream. -/
theorem stream_congr {events events' : List SoundEvent}
    (hrequests : requests events' = requests events)
    (hproduced : produced events' = produced events) :
    (ofFrequency frequency).stream events' = (ofFrequency frequency).stream events := by
  have hlatest : ∀ t, latest? events' t = latest? events t := by
    intro t
    rw [latest?, hrequests, latest?]
  rw [stream_eq, stream_eq, hproduced]
  apply List.map_congr_left
  intro t _
  rw [due, hlatest, due]

theorem due_of_stream {t : Nat} {sample : Sample}
    (h : ((ofFrequency frequency).stream events)[t]? = some sample) :
    sample = due frequency events t := by
  rw [stream_eq, List.getElem?_map, Option.map_eq_some_iff] at h
  obtain ⟨t', ht, rfl⟩ := h
  obtain ⟨hlt, rfl⟩ := List.getElem?_eq_some_iff.mp ht
  rw [List.getElem_range]

/-- The stream of a beeper on a device of any frequency, for any events in any order. There are as
many samples as are fetched. A sample is heard if and only if a beep was asked for before it, and
fewer samples were made since the last such beep than that beep's ticks take. The stream depends on
nothing but the beeps, where they come between the samples, and how many samples are fetched, so
fetching them in other portions makes no difference. Where two streams are heard at the same time,
whatever was asked for in either, they have the same sample there. -/
theorem samples_by_requests (frequency : Nat) (events : List SoundEvent) :
    let stream := (ofFrequency frequency).stream
    (stream events).length = produced events ∧
    (∀ t sample, (stream events)[t]? = some sample →
      (sample ≠ .silent ↔ ∃ p ticks, latest? events t = some (p, ticks) ∧
        t - p < ticks.toNat * (frequency / 60))) ∧
    (∀ events', requests events' = requests events → produced events' = produced events →
      stream events' = stream events) ∧
    (∀ before later m n,
      stream (before ++ [.play (m + n)] ++ later) =
        stream (before ++ [.play m, .play n] ++ later)) ∧
    ∀ events', ∀ t : Nat, ∀ sample sample' : Sample,
      (stream events)[t]? = some sample → (stream events')[t]? = some sample' →
      sample ≠ .silent → sample' ≠ .silent → sample = sample' := by
  intro stream
  refine ⟨?_, ?_, fun _ => stream_congr frequency, ?_, ?_⟩
  · simp only [stream, stream_eq, List.length_map, List.length_range]
  · intro t sample hsample
    rw [due_of_stream frequency events hsample, due_ne_silent_iff]
  · intro before later m n
    apply stream_congr
    · simp [requests, requestsFrom_append, requestsFrom, Nat.add_assoc]
    · simp [produced_append, produced, SoundEvent.length, Nat.add_assoc]
  · intro events' t sample sample' hsample hsample' hheard hheard'
    rw [due_of_stream frequency events hsample] at hheard ⊢
    rw [due_of_stream frequency events' hsample'] at hheard' ⊢
    rw [due_eq_tone frequency events hheard, due_eq_tone frequency events' hheard']

end Beeper
end Host
end ChipEight
