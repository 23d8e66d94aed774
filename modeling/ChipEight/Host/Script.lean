import ChipEight.Host.CommandLine
import ChipEight.Host.Session

/-!
# ChipEight.Host.Script

The text that a host on a plain terminal reads and writes.

* `Poll.ofLine`   — a line of input: a number of polls without events, or the events of one poll.
* `Picture.lines` — a picture in characters.
* `usage`, `CommandLine.Refusal.message` — what the user is told about the command line.
-/

namespace ChipEight
namespace Host

/-- A key's name presses it, a minus sign ahead of the name releases it. -/
def Event.ofWord (w : String) : Event :=
  match w.toList with
  | '-' :: name => .keyUp (some (String.ofList name))
  | _ => if w = "quit" then .quit else .keyDown (some w)

/-- The words of a line, split at blanks. -/
def splitWords (line : String) : List String :=
  let step (c : Char) : List (List Char) → List (List Char)
    | [] => if c.isWhitespace then [] else [[c]]
    | word :: rest => if c.isWhitespace then [] :: word :: rest else (c :: word) :: rest
  ((line.toList.foldr step []).filter (· ≠ [])).map String.ofList

def Poll.ofLine (line : String) : List Poll :=
  match splitWords line with
  | [] => [{}]
  | [word] =>
    match word.toNat? with
    | some n => List.replicate n {}
    | none => [{ events := [.ofWord word] }]
  | words => [{ events := words.map .ofWord }]

def lineOf (p : Picture) (y : Nat) : String :=
  String.ofList ((List.range Picture.width).map fun x => if p.lit x y then '#' else '.')

def pictureLines (p : Picture) : List String := (List.range Picture.height).map (lineOf p)

def version : String := "chip8 0.1.0"

def usage : String :=
  "Usage: chip8 [OPTIONS] <ROM>\n\n"
    ++ "  -i, --ips <IPS>            instructions per second [default: 500]\n"
    ++ "  -s, --scale <SCALE>        size multiplier for each pixel [default: 10]\n"
    ++ "      --seed <SEED>          seed for the random number generator\n"
    ++ "      --per-step-timers <N>  tick the timers every N instructions\n"
    ++ "  -h, --help                 print help\n"
    ++ "  -V, --version              print version"

def CommandLine.Refusal.message : CommandLine.Refusal → String
  | .help => usage
  | .version => Host.version
  | .unwantedValue => "error: an option that takes no value has one"
  | .missingValue => "error: a value is required but none was supplied"
  | .badValue => "error: a value is not a number in range"
  | .repeated => "error: an option cannot be used multiple times"
  | .unknown => "error: unexpected argument found"
  | .missingRom => "error: the ROM was not provided"

end Host
end ChipEight
