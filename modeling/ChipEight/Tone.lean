import ChipEight.Word

/-!
# ChipEight.Tone

Where beeps go: nowhere, or onto a list, in the order they were asked for.
-/

namespace ChipEight

inductive Tone where
  | mute
  | recording (beeps : List Byte)
  deriving DecidableEq

namespace Tone

def request (ticks : Byte) : Tone → Tone
  | .mute => .mute
  | .recording beeps => .recording (beeps ++ [ticks])

def beeps? : Tone → Option (List Byte)
  | .mute => none
  | .recording beeps => some beeps

end Tone

end ChipEight
