import ChipEight.Labelled

/-!
# ChipEight.Config

How a machine is set up.

* `Timing` — whether the timers follow the host's clock or the steps of the machine itself.
* `Config.stepsPerTick` — the steps between two ticks, never 0.
-/

namespace ChipEight

inductive Timing where
  /-- The host ticks the timers, normally 60 times a second. -/
  | host
  /-- Every `n` steps tick them once. -/
  | perStep (n : UInt32)
  deriving DecidableEq

structure Config where
  timing : Timing := .host
  /-- The seed of the random stream; without one its key comes from outside. -/
  seed : Option UInt64 := none
  deriving DecidableEq

namespace Config

/-- How often a host ticks the timers. -/
def ticksPerSecond : Nat := 60

/-- The pace of a host that is told no other: 500 steps a second. -/
def nanosecondsPerStep : Nat := 2000000

/-- Ticking every 0 steps counts as ticking at every step. -/
def stepsPerTick (c : Config) : Option Nat :=
  match c.timing with
  | .host => none
  | .perStep n => some (max n.toNat 1)

def described (c : Config) : Labelled :=
  let timing :=
    match c.timing with
    | .host => "Host"
    | .perStep n => "PerStep(" ++ toString n.toNat ++ ")"
  let seed :=
    match c.seed with
    | none => "None"
    | some s => "Some(" ++ toString s.toNat ++ ")"
  ⟨"Config", [("timer_mode", timing), ("seed", seed)]⟩

end Config

end ChipEight
