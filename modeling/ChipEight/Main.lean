import ChipEight.Host.Script

/-!
# ChipEight.Main

The program on a plain terminal. Each line of input is read as polls (`Poll.ofLine`), changed
pictures are written as text, and warnings go to standard error. The end of the input quits.
-/

namespace ChipEight
namespace Terminal

open Host

def reason : IO.Error → String
  | .noFileOrDirectory .. => "No such file or directory (os error 2)"
  | e => toString e

def readRom (file : String) : IO (Except String (List Byte)) := do
  try
    let bytes ← IO.FS.readBinFile file
    return .ok (bytes.toList.map fun b => b.toBitVec)
  catch e => return .error (reason e)

/-- Eight words, each with its lowest byte first. -/
def entropy : IO Random.Key := do
  let bytes := (← IO.getRandomBytes 32).toList
  return Vector.ofFn fun i =>
    ((bytes.drop (4 * i.val)).take 4).foldr (fun b word => word * 256 + b.toUInt32) 0

/-- Writes what came since the last time, and forgets it. -/
def flush (s : Session) : IO Session := do
  for act in s.acts do
    if let .present _ pitch buffer := act then
      for line in pictureLines (Texture.picture pitch buffer) do
        IO.println line
      IO.println ""
  for record in s.log do
    if Level.warn.covers record.level then
      IO.eprintln record.line
  return { s with acts := #[], log := #[] }

/-- One poll at the pace that the settings ask for. -/
def round (settings : Settings) (s : Session) (p : Poll) : IO Session := do
  let s ← flush (s.poll p)
  if s.status = .running then
    IO.sleep (1000 / max settings.ips.toNat 1).toUInt32
  return s

/-- Ticks a machine that leaves its timers to the clock, if the clock says so. -/
def clock (s : Session) (last : Nat) : IO (Session × Nat) := do
  let now ← IO.monoMsNow
  if 1000 / Config.ticksPerSecond ≤ now - last then
    return (← flush s.tick, now)
  else
    return (s, last)

partial def loop (settings : Settings) (input : IO.FS.Stream) (s : Session) (last : Nat) :
    IO Session := do
  if s.status ≠ .running then
    return s
  let line ← input.getLine
  let polls := if line.isEmpty then [{ events := [.quit] }] else Poll.ofLine line
  let mut s := s
  let mut last := last
  for p in polls do
    s ← round settings s p
    (s, last) ← clock s last
  loop settings input s last

def run (settings : Settings) : IO UInt32 := do
  let s := Session.start settings {} (← entropy) (← readRom settings.rom)
  let s ← loop settings (← IO.getStdin) (← flush s) (← IO.monoMsNow)
  match s.status with
  | .failed fault =>
    IO.eprintln ("Error: " ++ fault.message)
    return 1
  | .panicked => return 101
  | .running | .quit => return 0

def start (args : List String) : IO UInt32 :=
  match CommandLine.parse args with
  | .ok settings => run settings
  | .error refusal =>
    match refusal with
    | .help | .version => do
      IO.println refusal.message
      return 0
    | _ => do
      IO.eprintln refusal.message
      return 2

end Terminal
end ChipEight

def main (args : List String) : IO UInt32 := ChipEight.Terminal.start args
