import ChipEight.Config

/-!
# ChipEight.Host.SquareWave

The beep as a stream of samples.

* `SquareWave` — a phase that always moves on, and the samples that are still to sound.
* `SquareWave.sample`, `SquareWave.next` — the sample that is due, and the wave after it.
* `SquareWave.play` — as many samples as the sound card asks for.
* `Beeper`     — a wave on an open device, and how many samples a timer tick lasts there.
-/

namespace ChipEight
namespace Host

inductive Sample where
  | silent
  | high
  | low
  deriving DecidableEq

/-- The amplitude, over full scale. -/
def Sample.text : Sample → String
  | .silent => "0"
  | .high => "0.15"
  | .low => "-0.15"

structure SquareWave where
  /-- Periods per sample. -/
  increment : Float32
  phase : Float32
  remaining : Nat

namespace SquareWave

/-- Hertz. -/
def pitch : Float32 := 440

def ofFrequency (frequency : Nat) : SquareWave where
  increment := pitch / Float32.ofNat frequency
  phase := 0
  remaining := 0

/-- The part behind the point of a number that is not negative. -/
def fraction (x : Float32) : Float32 := x - x.floor

def advance (increment phase : Float32) : Float32 := fraction (phase + increment)

def sample (w : SquareWave) : Sample :=
  if w.remaining = 0 then .silent else if w.phase ≤ 0.5 then .high else .low

/-- The phase moves on through silence as well. -/
def next (w : SquareWave) : SquareWave :=
  { w with phase := advance w.increment w.phase, remaining := w.remaining - 1 }

/-- Appends `n` samples to those played so far. -/
def playOnto (played : Array Sample) : Nat → SquareWave → Array Sample × SquareWave
  | 0, w => (played, w)
  | n + 1, w => playOnto (played.push w.sample) n w.next

def play (n : Nat) (w : SquareWave) : Array Sample × SquareWave := playOnto #[] n w

end SquareWave

structure Beeper where
  wave : SquareWave
  samplesPerTick : Nat

namespace Beeper

/-- On a device that plays `frequency` samples a second. -/
def ofFrequency (frequency : Nat) : Beeper where
  wave := .ofFrequency frequency
  samplesPerTick := frequency / Config.ticksPerSecond

/-- A beep takes the place of what is left of the one before. -/
def request (b : Beeper) (ticks : Byte) : Beeper :=
  { b with wave := { b.wave with remaining := ticks.toNat * b.samplesPerTick } }

def play (b : Beeper) (n : Nat) : Array Sample × Beeper :=
  let (samples, wave) := b.wave.play n
  (samples, { b with wave })

end Beeper

end Host
end ChipEight
