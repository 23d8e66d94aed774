import ChipEight.Config
import ChipEight.Instruction.Assembly
import ChipEight.Keypad
import ChipEight.Memory

/-!
# ChipEight.Log

What the machine and its host report while they work.

* `Record` — one report, with what it is about; `Record.level` and `Record.text` are its importance
  and its wording, and `Record.line` is both.
* `Level.covers` — which records a reader at some level gets.
-/

namespace ChipEight

inductive Level where
  | trace
  | debug
  | info
  | warn
  deriving DecidableEq

namespace Level

def rank : Level → Nat
  | .trace => 0
  | .debug => 1
  | .info => 2
  | .warn => 3

def name : Level → String
  | .trace => "TRACE"
  | .debug => "DEBUG"
  | .info => "INFO"
  | .warn => "WARN"

/-- A level takes in every more important one. -/
def covers (threshold level : Level) : Bool := threshold.rank ≤ level.rank

end Level

inductive Record where
  /-- An instruction about to be executed, and the registers as it finds them. -/
  | executing (pc opcode : Word) (instruction : Instruction) (v : Bank Byte) (index : Word)
      (sp : Byte)
  | nativeRoutine (target : Address)
  | stackUnderflow (pc : Word)
  | stackOverflow (pc : Word)
  | awaitingKey (x : Register)
  | keyStored (key : Byte) (x : Register)
  | keyEdge (edge : KeyEdge)
  | beep (ticks : Byte)
  | ready (config : Config)
  | reset
  | loaded (size : Nat)
  | romLoaded (file : String) (size : Nat)
  | program (listing : String)
  | muted (reason : String)
  | quit
  deriving DecidableEq

/-- Text made up to `width` columns with spaces. -/
def padRight (width : Nat) (s : String) : String :=
  s ++ String.ofList (List.replicate (width - s.length) ' ')

def KeyEdge.key : KeyEdge → Key
  | .pressed k => k
  | .released k => k

def KeyEdge.text : KeyEdge → String
  | .pressed k => "Pressed(" ++ toString k.val ++ ")"
  | .released k => "Released(" ++ toString k.val ++ ")"

namespace Record

def level : Record → Level
  | .executing .. | .keyEdge _ | .beep _ => .trace
  | .awaitingKey _ | .keyStored .. | .ready _ | .reset | .loaded _ | .program _ => .debug
  | .romLoaded .. | .quit => .info
  | .nativeRoutine _ | .stackUnderflow _ | .stackOverflow _ | .muted _ => .warn

def text : Record → String
  | .executing pc opcode instruction v index sp =>
    Hex.padded 3 pc.toNat ++ ": " ++ Hex.padded 4 opcode.toNat ++ " "
      ++ padRight 16 instruction.mnemonic ++ " v["
      ++ ", ".intercalate (v.toList.map fun b => Hex.padded 2 b.toNat) ++ "] i"
      ++ Hex.padded 4 index.toNat ++ " sp" ++ toString sp.toNat
  | .nativeRoutine target => "ignoring machine code routine at " ++ Hex.literal 3 target.toNat
  | .stackUnderflow pc => "stack underflow at " ++ Hex.literal 3 pc.toNat ++ ", wrapping"
  | .stackOverflow pc => "stack overflow at " ++ Hex.literal 3 pc.toNat ++ ", wrapping"
  | .awaitingKey x => "waiting for a key for V" ++ Hex.padded 1 x.val
  | .keyStored key x =>
    "key " ++ Hex.padded 1 key.toNat ++ " stored in V" ++ Hex.padded 1 x.val ++ ", resuming"
  | .keyEdge edge => "key " ++ Hex.padded 1 edge.key.val ++ ": " ++ edge.text
  | .beep ticks => "beep for " ++ toString ticks.toNat ++ " ticks"
  | .ready config => "initialized with " ++ config.described.text
  | .reset => "reset"
  | .loaded size =>
    "loaded " ++ toString size ++ " byte ROM at " ++ Hex.literal 3 Memory.start.toNat
  | .romLoaded file size => "loaded " ++ file ++ " (" ++ toString size ++ " bytes)"
  | .program listing => "program:\n" ++ listing
  | .muted reason => "no audio (" ++ reason ++ "), running muted"
  | .quit => "quit"

def line (r : Record) : String := r.level.name ++ " " ++ r.text

end Record

end ChipEight
