import ChipEight.Execution
import ChipEight.Listing

/-!
# ChipEight.Machine

The machine as its host sees it.

* `Machine` — a computer, how it is set up, whether it is ready, and the steps since the last tick
  of its own timing.
* `Reply`   — what a call gives back: a value, the machine afterwards, the beeps asked for and the
  records to log.
* `Machine.makeReady`, `reset`, `load`, `step`, `tick`, `setKey`, `takeFrame`, `fetch` — the calls.
  One that fails gives its error and nothing else, so the machine stays as it was.
-/

namespace ChipEight

/-- The key of the random stream: that of the seed, or else one from outside. -/
def Config.randomKey (c : Config) (entropy : Random.Key) : Random.Key :=
  (c.seed.map .ofSeed).getD entropy

structure Machine where
  config : Config
  ready : Bool
  computer : Computer
  /-- Steps since the machine last ticked its own timers. -/
  sinceTick : Nat
  deriving DecidableEq

structure Reply (α : Type) where
  value : α
  machine : Machine
  beeps : List Byte := []
  log : List Record := []

namespace Machine

def create (config : Config) (entropy : Random.Key) : Machine where
  config := config
  ready := false
  computer :=
    { cpu := .initial (.ofKey (config.randomKey entropy))
      memory := .blank
      screen := .blank
      keypad := .released }
  sinceTick := 0

/-- Every component as at the start; the random stream goes on, and the cleared screen counts as
changed. -/
def resetComponents (m : Machine) : Machine :=
  { m with
    computer :=
      { cpu := m.computer.cpu.reset
        memory := .blank
        screen := m.computer.screen.clear
        keypad := .released }
    sinceTick := 0 }

def makeReady (m : Machine) : Except Error (Reply Unit) :=
  if m.ready then .error .alreadyReady
  else
    .ok
      { value := ()
        machine := { m.resetComponents with ready := true }
        log := [.ready m.config] }

def reset (m : Machine) : Reply Unit :=
  { value := (), machine := { m.resetComponents with ready := false }, log := [.reset] }

/-- Starts over with a program; a ROM that does not fit leaves the running one alone. -/
def load (m : Machine) (rom : List Byte) : Except Error (Reply Nat) :=
  if m.ready then
    let m := m.resetComponents
    match m.computer.memory.load rom with
    | .error e => .error e
    | .ok memory =>
      .ok
        { value := rom.length
          machine := { m with computer := { m.computer with memory } }
          log := [.loaded rom.length] }
  else .error .notReady

/-- Ticks both timers; a beep is logged as it is asked for. -/
def tickTimers (m : Machine) : Machine × List Byte × List Record :=
  let (cpu, beep) := m.computer.cpu.tick
  let beeps := beep.toList
  ({ m with computer := { m.computer with cpu } }, beeps, beeps.map .beep)

def countStep (m : Machine) : Machine × List Byte × List Record :=
  match m.config.stepsPerTick with
  | none => (m, [], [])
  | some n =>
    if n ≤ m.sinceTick + 1 then { m with sinceTick := 0 }.tickTimers
    else ({ m with sinceTick := m.sinceTick + 1 }, [], [])

/-- One instruction, or none while the machine waits for a key. Either counts as a step. -/
def step (m : Machine) : Except Error (Reply Step) :=
  if m.ready then
    match m.computer.step with
    | .error e => .error e
    | .ok (value, computer, log) =>
      let (machine, beeps, ticked) := { m with computer }.countStep
      .ok { value, machine, beeps, log := log ++ ticked }
  else .error .notReady

def tick (m : Machine) : Except Error (Reply Unit) :=
  if m.ready then
    let (machine, beeps, log) := m.tickTimers
    .ok { value := (), machine, beeps, log }
  else .error .notReady

/-- Moves a key, ready or not. A press edge also ends a wait for a key. -/
def setKey (m : Machine) (key : Byte) (down : Bool) : Except Error (Reply (Option KeyEdge)) :=
  match m.computer.keypad.set key down with
  | .error e => .error e
  | .ok (keypad, edge) =>
    let (cpu, log) :=
      match edge with
      | some (.pressed _) => m.computer.cpu.receiveKey key
      | _ => (m.computer.cpu, [])
    .ok
      { value := edge
        machine := { m with computer := { m.computer with cpu, keypad } }
        log := (edge.toList.map .keyEdge) ++ log }

/-- The picture if it changed since it was last taken. -/
def takeFrame (m : Machine) : Reply (Option Picture) :=
  let (screen, picture) := m.computer.screen.take
  { value := picture, machine := { m with computer := { m.computer with screen } } }

/-- The opcode that the next step would execute. -/
def fetch (m : Machine) : Except Error Word :=
  if m.ready then .ok m.computer.fetch else .error .notReady

def programListing (m : Machine) : String := m.computer.memory.programListing

end Machine

end ChipEight
