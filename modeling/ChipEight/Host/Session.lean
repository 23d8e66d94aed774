import ChipEight.Host.Desk
import ChipEight.Host.Keyboard
import ChipEight.Host.Settings
import ChipEight.Machine

/-!
# ChipEight.Host.Session

A run of the host, from the window to the end.

* `Session.start` — reads the ROM, sets up the desk and loads the machine; whatever fails on the way
  ends the session there, except that a host without sound goes on muted.
* `Session.poll`  — one round: the events that the queue yields, then one step, then the screen if
  it changed.
* `Session.run`   — every round of a script, and a request to quit after the last.

A session that is over takes no further part in anything, so a run is a plain fold.
-/

namespace ChipEight
namespace Host

inductive Event where
  /-- A key, by name if the host has one for it. -/
  | keyDown (key : Option String)
  | keyUp (key : Option String)
  | quit
  | other
  deriving DecidableEq

/-- What one look at the event queue yields. -/
structure Poll where
  /-- Samples that the sound card played before this poll, in pieces. -/
  plays : List Nat := []
  events : List Event := []
  deriving DecidableEq

/-- Why a run failed. -/
inductive Fault where
  | unreadable (file reason : String)
  | desk (part : Part)
  | machine (error : Error)
  /-- The step at this address failed. -/
  | halted (pc : Word) (error : Error)
  deriving DecidableEq

def Fault.message : Fault → String
  | .unreadable file reason => "unable to read " ++ file ++ ": " ++ reason
  | .desk part => part.complaint
  | .machine e => e.message
  | .halted pc e => "halted at " ++ Hex.literal 3 pc.toNat ++ ": " ++ e.message

inductive Status where
  | running
  | quit
  | failed (fault : Fault)
  | panicked
  deriving DecidableEq

structure Session where
  desk : Desk
  machine : Machine
  /-- The open sound card, unless the host is muted. -/
  beeper : Option Beeper := none
  polls : Nat := 0
  acts : Array Act := #[]
  log : Array Record := #[]
  status : Status := .running

namespace Session

/-- Goes on only while the session runs. -/
def andThen (s : Session) (f : Session → Session) : Session :=
  match s.status with
  | .running => f s
  | _ => s

def fail (s : Session) (fault : Fault) : Session := { s with status := .failed fault }

def report (s : Session) (records : List Record) : Session := { s with log := s.log ++ records }

def attempt (s : Session) (needs : List Need) : Session :=
  let (acts, stopped) := s.desk.attempt needs s.polls
  let s := { s with acts := s.acts ++ acts }
  match stopped with
  | none => s
  | some part => s.fail (.desk part)

/-- Comes so far, and panics on what is next. -/
def panicAfter (s : Session) (needs : List Need) : Session :=
  (s.attempt needs).andThen ({ · with status := .panicked })

/-- The size of the window is worked out between the screen and the window. -/
def openWindow (s : Session) (build : Build) (title : String) (scale : UInt32) : Session :=
  if build.refuses scale.toNat then s.panicAfter [{ part := .video }]
  else s.attempt (windowNeeds title scale.toNat)

/-- Opens the sound card, or goes on without. -/
def openSound (s : Session) : Session :=
  let (acts, stopped) := s.desk.attempt soundNeeds s.polls
  let s := { s with acts := s.acts ++ acts }
  match stopped with
  | none => { s with beeper := some (.ofFrequency s.desk.frequency) }
  | some part => s.report [.muted part.complaint]

/-- Takes over what a call on the machine brought, its beeps on the sound card. -/
def accept {α : Type} (s : Session) (r : Reply α) : Session :=
  { s with
    machine := r.machine
    beeper := s.beeper.map fun b => r.beeps.foldl Beeper.request b
    log := s.log ++ r.log }

/-- Takes over a call that may fail, and goes on with its value. -/
def take {α : Type} (s : Session) (fault : Error → Fault) (reply : Except Error (Reply α))
    (f : α → Session → Session) : Session :=
  match reply with
  | .error e => s.fail (fault e)
  | .ok r => f r.value (s.accept r)

def loadProgram (s : Session) (file : String) (rom : List Byte) : Session :=
  s.take .machine s.machine.makeReady fun _ s =>
    s.take .machine (s.machine.load rom) fun size s =>
      s.report [.romLoaded file size, .program s.machine.programListing]

def title : String := "Emu-8"

/-- `rom` is what the file held, or why it could not be read. -/
def start (settings : Settings) (desk : Desk) (entropy : Random.Key)
    (rom : Except String (List Byte)) (build : Build := .wraps) : Session :=
  let s : Session := { desk, machine := .create settings.config entropy }
  match rom with
  | .error reason => s.fail (.unreadable settings.rom reason)
  | .ok rom =>
    s.attempt [{ part := .context }]
      |>.andThen (·.openWindow build title settings.scale)
      |>.andThen (·.attempt [{ part := .events }])
      |>.andThen (·.openSound)
      |>.andThen (·.loadProgram settings.rom rom)

def quit (s : Session) : Session := { s.report [.quit] with status := .quit }

def setKey (s : Session) (key : Key) (down : Bool) : Session :=
  s.take .machine (s.machine.setKey (BitVec.ofNat 8 key.val) down) fun _ s => s

/-- A key of the keypad moves, Escape ends the run, and nothing else counts. -/
def handle (s : Session) : Event → Session
  | .quit => s.quit
  | .keyDown (some name) =>
    match keypadKey? name with
    | some key => s.setKey key true
    | none => if name = "Escape" then s.quit else s
  | .keyUp (some name) =>
    match keypadKey? name with
    | some key => s.setKey key false
    | none => s
  | .keyDown none | .keyUp none | .other => s

def handleAll (s : Session) (events : List Event) : Session :=
  events.foldl (fun s e => s.andThen (·.handle e)) s

/-- The sound card plays samples on its own; without one nothing happens. -/
def playSound (s : Session) (n : Nat) : Session :=
  match s.beeper with
  | none => s
  | some b =>
    let (samples, b) := b.play n
    { s with beeper := some b, acts := s.acts.push (.played s.polls samples) }

/-- The lines of a picture go into rows of a texture, and where these are too short one of them goes
past the end of the buffer. -/
def present (s : Session) (picture : Picture) : Session :=
  if s.desk.pitch < Texture.lineSize then s.panicAfter textureNeeds
  else s.attempt (frameNeeds s.desk s.polls picture)

def showFrame (s : Session) : Session :=
  let r := s.machine.takeFrame
  let s := s.accept r
  match r.value with
  | none => s
  | some picture => s.present picture

def step (s : Session) : Session :=
  s.take (.halted s.machine.computer.cpu.pc) s.machine.step fun _ s => s.showFrame

def poll (s : Session) (p : Poll) : Session :=
  s.andThen fun s =>
    let s := { s with polls := s.polls + 1 }
    let s := p.plays.foldl playSound s
    (s.handleAll p.events).andThen step

/-- The host's clock ticks the timers of a machine that leaves them to it. -/
def tick (s : Session) : Session :=
  s.andThen fun s =>
    match s.machine.config.stepsPerTick with
    | some _ => s
    | none => s.take .machine s.machine.tick fun _ s => s

/-- A script of polls; when it is over the user quits. -/
def run (s : Session) (script : List Poll) : Session :=
  (script.foldl poll s).poll { events := [.quit] }

end Session

end Host
end ChipEight
