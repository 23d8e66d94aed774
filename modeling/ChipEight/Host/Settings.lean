import ChipEight.Config

/-!
# ChipEight.Host.Settings

What the user decides about a run.
-/

namespace ChipEight
namespace Host

structure Settings where
  /-- The file that holds the ROM. -/
  rom : String
  /-- Steps a second; this sets the pace and nothing else. -/
  ips : UInt64
  scale : UInt32
  seed : Option UInt64
  /-- Tick the timers every so many steps, and not by the clock. -/
  perStepTimers : Option UInt32
  deriving DecidableEq

namespace Settings

def defaultIps : UInt64 := UInt64.ofNat (1000000000 / Config.nanosecondsPerStep)

def defaultScale : UInt32 := 10

def config (s : Settings) : Config where
  timing :=
    match s.perStepTimers with
    | none => .host
    | some n => .perStep n
  seed := s.seed

end Settings

end Host
end ChipEight
