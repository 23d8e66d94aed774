import ChipEight.Host.SquareWave
import ChipEight.Host.Texture

/-!
# ChipEight.Host.Desk

What the host sits on: a window, textures, an event queue and a sound card.

* `Part` — the parts it needs; `Desk.missing` tells which of them do not work, and when.
* `Act`  — what it makes of them.
* `Need` — a part and the acts that follow once it is there.
* `Desk.attempt` — needs in order, up to the first part that is missing.
* `Build` — whether a product that is too large for 32 bits wraps or is a panic; the window's size
  is made of such products.
-/

namespace ChipEight
namespace Host

inductive Part where
  | context
  | video
  | window
  | canvas
  | texture
  | lock
  | copy
  | events
  | audio
  | playback
  deriving DecidableEq

namespace Part

def name : Part → String
  | .context => "init"
  | .video => "video"
  | .window => "window"
  | .canvas => "canvas"
  | .texture => "texture"
  | .lock => "lock"
  | .copy => "copy"
  | .events => "events"
  | .audio => "audio"
  | .playback => "playback"

def all : List Part :=
  [.context, .video, .window, .canvas, .texture, .lock, .copy, .events, .audio, .playback]

/-- What a part that does not work is complained about with. -/
def complaint (p : Part) : String := "no " ++ p.name

end Part

/-- Parts that do not work. One that is there at first may be missing after some polls. -/
structure Outages where
  covers : (part : Part) → (polls : Nat) → Bool

/-- One part that is never there, if any. -/
instance : Coe (Option Part) Outages := ⟨fun missing => ⟨fun part _ => missing = some part⟩⟩

structure Desk where
  /-- Bytes from one row of a texture to the next. -/
  pitch : Nat := Texture.lineSize
  /-- Samples a second that the sound card really plays. -/
  frequency : Nat := 44100
  missing : Outages := (none : Option Part)

inductive Act where
  | openWindow (title : String) (width height : Nat)
  | createTexture (width height : Nat)
  /-- A texture's buffer comes to the screen, after so many polls. -/
  | present (poll pitch : Nat) (buffer : Array Byte)
  | openAudio (frequency channels : Nat)
  | startAudio
  | played (poll : Nat) (samples : Array Sample)
  deriving DecidableEq

structure Need where
  part : Part
  acts : List Act := []

/-- The acts that came about after so many polls, and the part on which it stopped. -/
def Desk.attempt (d : Desk) (needs : List Need) (polls : Nat := 0) : List Act × Option Part :=
  match needs with
  | [] => ([], none)
  | need :: rest =>
    if d.missing.covers need.part polls then ([], some need.part)
    else
      let (acts, stopped) := d.attempt rest polls
      (need.acts ++ acts, stopped)

/-- What becomes of a product that is too large for its type. -/
inductive Build where
  | wraps
  | panics
  deriving DecidableEq

/-- So many pixels, each `scale` wide, in 32 bits. -/
def span (pixels scale : Nat) : Nat := (UInt32.ofNat pixels * UInt32.ofNat scale).toNat

def Build.refuses (b : Build) (scale : Nat) : Bool :=
  match b with
  | .wraps => false
  | .panics =>
    UInt32.size ≤ Picture.width * scale || UInt32.size ≤ Picture.height * scale

/-- A window for the screen, every pixel `scale` wide and high. -/
def windowNeeds (title : String) (scale : Nat) : List Need :=
  [{ part := .video },
   { part := .window
     acts := [.openWindow title (span Picture.width scale) (span Picture.height scale)] },
   { part := .canvas }]

/-- A new texture whose bytes can be written. -/
def textureNeeds : List Need :=
  [{ part := .texture, acts := [.createTexture Picture.width Picture.height] }, { part := .lock }]

def frameNeeds (d : Desk) (poll : Nat) (p : Picture) : List Need :=
  textureNeeds ++
    [{ part := .copy
       acts := [.present poll d.pitch (Texture.paint p d.pitch (Texture.blank d.pitch))] }]

/-- One channel at the usual frequency, started at once. -/
def soundNeeds : List Need :=
  [{ part := .audio }, { part := .playback, acts := [.openAudio 44100 1, .startAudio] }]

end Host
end ChipEight
