import ChipEight.Host.Settings

/-!
# ChipEight.Host.CommandLine

The host's arguments.

* `Setting`   — the four options that take a number.
* `Argument`  — what kind of thing a single argument is, by its looks.
* `Refusal`   — why a command line gives no settings; asking for help counts.
* `Progress`  — what was read so far. An option's number that stands in an argument of its own, and
  the ROM, are settled only when the next argument is accepted, so an argument that is not accepted
  at all is refused ahead of them.
* `parse`     — the settings, or the first refusal.
-/

namespace ChipEight
namespace Host
namespace CommandLine

inductive Setting where
  | ips
  | scale
  | seed
  | perStepTimers
  deriving DecidableEq

namespace Setting

def all : List Setting := [.ips, .scale, .seed, .perStepTimers]

def long : Setting → String
  | .ips => "ips"
  | .scale => "scale"
  | .seed => "seed"
  | .perStepTimers => "per-step-timers"

def short? : Setting → Option Char
  | .ips => some 'i'
  | .scale => some 's'
  | .seed => none
  | .perStepTimers => none

/-- Whether the value is read as a signed number before it is held against its range. The only
such value with a minus sign that passes is zero. -/
def signed : Setting → Bool
  | .ips => false
  | .scale => true
  | .seed => false
  | .perStepTimers => true

/-- The first number that is too large. -/
def limit : Setting → Nat
  | .ips => UInt64.size
  | .scale => UInt32.size
  | .seed => UInt64.size
  | .perStepTimers => UInt32.size

end Setting

inductive Refusal where
  | help
  | version
  /-- An option that takes no value has one. -/
  | unwantedValue
  /-- An option has no value, or the ROM has no name. -/
  | missingValue
  /-- A value is not a number, or not one in the option's range. -/
  | badValue
  | repeated
  | unknown
  | missingRom
  deriving DecidableEq

/-! ## Numbers -/

def digitValue (c : Char) : Nat := c.toNat - '0'.toNat

def decimal (digits : List Char) : Nat := digits.foldl (fun n c => 10 * n + digitValue c) 0

/-- ASCII digits, at least one. -/
def digits? (text : List Char) : Option Nat :=
  if text ≠ [] ∧ text.all Char.isDigit then some (decimal text) else none

/-- Digits with a sign ahead of them if you like; a minus sign only where numbers are signed. -/
def number? (signed : Bool) : List Char → Option Int
  | '+' :: rest => (digits? rest).map Int.ofNat
  | '-' :: rest => if signed then (digits? rest).map fun n => -Int.ofNat n else none
  | text => (digits? text).map Int.ofNat

/-! ## Single arguments -/

inductive Argument where
  /-- Everything after it is a ROM. -/
  | separator
  | setting (s : Setting) (value : Option (List Char))
  | help
  | version
  | unwantedValue
  | unknown
  | plain (text : List Char)
  deriving DecidableEq

/-- The text ahead of the first `=`, and what follows it if there is one. -/
def splitAtEquals (text : List Char) : List Char × Option (List Char) :=
  (text.takeWhile (· ≠ '='), (text.dropWhile (· ≠ '=')).tail?)

/-- An argument by its name, given what follows two dashes. -/
def ofLong (text : List Char) : Argument :=
  let (name, value) := splitAtEquals text
  match Setting.all.find? (·.long.toList = name), value with
  | some s, value => .setting s value
  | none, some _ =>
    if name = "help".toList ∨ name = "version".toList then .unwantedValue else .unknown
  | none, none =>
    if name = "help".toList then .help
    else if name = "version".toList then .version
    else .unknown

/-- An argument by its letter. All that follows the letter of a setting is its value; an equals sign
between them is not part of it. -/
def ofShort (letter : Char) (rest : List Char) : Argument :=
  match Setting.all.find? (·.short? = some letter) with
  | some s =>
    match rest with
    | [] => .setting s none
    | '=' :: value => .setting s (some value)
    | value => .setting s (some value)
  | none => if letter = 'h' then .help else if letter = 'V' then .version else .unknown

def Argument.ofText : List Char → Argument
  | ['-', '-'] => .separator
  | '-' :: '-' :: text => ofLong text
  | '-' :: letter :: rest => ofShort letter rest
  | text => .plain text

/-! ## Whole command lines -/

/-- The options given so far. -/
structure Chosen where
  ips : Option UInt64 := none
  scale : Option UInt32 := none
  seed : Option UInt64 := none
  perStepTimers : Option UInt32 := none
  rom : Option String := none
  deriving DecidableEq

def Chosen.has (c : Chosen) : Setting → Bool
  | .ips => c.ips.isSome
  | .scale => c.scale.isSome
  | .seed => c.seed.isSome
  | .perStepTimers => c.perStepTimers.isSome

def Chosen.put (c : Chosen) (n : Nat) : Setting → Chosen
  | .ips => { c with ips := some (UInt64.ofNat n) }
  | .scale => { c with scale := some (UInt32.ofNat n) }
  | .seed => { c with seed := some (UInt64.ofNat n) }
  | .perStepTimers => { c with perStepTimers := some (UInt32.ofNat n) }

/-- An option may stand once only, and that comes before what its value is. -/
def Chosen.choose (c : Chosen) (s : Setting) (value : List Char) : Except Refusal Chosen :=
  if c.has s then .error .repeated
  else
    match number? s.signed value with
    | none => .error .badValue
    | some n => if 0 ≤ n ∧ n < s.limit then .ok (c.put n.toNat s) else .error .badValue

/-- What was read but not settled. -/
inductive Pending where
  | nothing
  | setting (s : Setting) (value : Option (List Char))
  | rom (text : List Char)
  deriving DecidableEq

structure Progress where
  chosen : Chosen := {}
  pending : Pending := .nothing
  romSeen : Bool := false
  /-- After the separator there are no options any more. -/
  separated : Bool := false
  deriving DecidableEq

namespace Progress

def settle (p : Progress) : Except Refusal Chosen :=
  match p.pending with
  | .nothing => .ok p.chosen
  | .setting _ none => .error .missingValue
  | .setting s (some value) => p.chosen.choose s value
  | .rom [] => .error .missingValue
  | .rom text => .ok { p.chosen with rom := some (String.ofList text) }

/-- A second ROM is not accepted. -/
def acceptRom (p : Progress) (text : List Char) : Except Refusal Progress :=
  if p.romSeen then .error .unknown
  else
    match p.settle with
    | .error r => .error r
    | .ok chosen => .ok { p with chosen, pending := .rom text, romSeen := true }

def acceptSetting (p : Progress) (s : Setting) (value : Option (List Char)) :
    Except Refusal Progress :=
  match p.settle, value with
  | .error r, _ => .error r
  | .ok chosen, none => .ok { p with chosen, pending := .setting s none }
  | .ok chosen, some value =>
    match chosen.choose s value with
    | .error r => .error r
    | .ok chosen => .ok { p with chosen, pending := .nothing }

/-- Help and version end the reading, once all before them is settled. -/
def finishWith (p : Progress) (r : Refusal) : Except Refusal Progress :=
  match p.settle with
  | .error r => .error r
  | .ok _ => .error r

/-- A plain argument is the value of an option that still waits for one, and else the ROM. -/
def acceptPlain (p : Progress) (text : List Char) : Except Refusal Progress :=
  match p.pending with
  | .setting s none => .ok { p with pending := .setting s (some text) }
  | _ => p.acceptRom text

def accept (p : Progress) (text : List Char) : Except Refusal Progress :=
  if p.separated then p.acceptRom text
  else
    match Argument.ofText text with
    | .separator => .ok { p with separated := true }
    | .setting s value => p.acceptSetting s value
    | .help => p.finishWith .help
    | .version => p.finishWith .version
    | .unwantedValue => .error .unwantedValue
    | .unknown => .error .unknown
    | .plain text => p.acceptPlain text

end Progress

/-- What is not given has its default; only the ROM has none. -/
def Chosen.settings (c : Chosen) : Except Refusal Settings :=
  match c.rom with
  | none => .error .missingRom
  | some rom =>
    .ok
      { rom
        ips := c.ips.getD Settings.defaultIps
        scale := c.scale.getD Settings.defaultScale
        seed := c.seed
        perStepTimers := c.perStepTimers }

def parse (args : List String) : Except Refusal Settings := do
  let progress ← args.foldlM (fun p arg => p.accept arg.toList) ({} : Progress)
  let chosen ← progress.settle
  chosen.settings

end CommandLine
end Host
end ChipEight
