import ChipEight.Cpu
import ChipEight.Instruction.Decode
import ChipEight.Screen

/-!
# ChipEight.Execution

What the instructions do.

* `Computer` — a processor with its memory, screen and keypad.
* `Condition.holds`    — the answer to a skip's question.
* `Computer.execute`   — one instruction; the pc is past the opcode already.
* `Instruction.remarks` — what the log gets to read about it.
* `Computer.step`      — fetch, decode and execute. A computer that waits for a key does nothing,
  and an opcode that means nothing changes nothing.
-/

namespace ChipEight

structure Computer where
  cpu : Cpu
  memory : Memory
  screen : Screen
  keypad : Keypad
  deriving DecidableEq

/-- The key that a register asks about: its low four bits. -/
def Computer.keyDown (c : Computer) (x : Register) : Bool :=
  c.keypad.isDown (c.cpu.register x &&& 0xF)

def Condition.holds (c : Computer) : Condition → Bool
  | .isByte x nn => c.cpu.register x == nn
  | .isNotByte x nn => c.cpu.register x != nn
  | .equal x y => c.cpu.register x == c.cpu.register y
  | .different x y => c.cpu.register x != c.cpu.register y
  | .keyDown x => c.keyDown x
  | .keyUp x => !c.keyDown x

namespace Computer

/-- Hundreds, tens and ones. -/
def decimalDigits (b : Byte) : List Byte := [b / 100, b / 10 % 10, b % 10]

/-- The registers V0 to VX. -/
def registersTo (c : Cpu) (x : Register) : List Byte := c.v.toList.take (x.val + 1)

/-- Registers from `k` on take the bytes of a list, as far as both go. -/
def fillRegisters (v : Bank Byte) (k : Nat) : List Byte → Vector Byte 16
  | [] => v
  | b :: rest => fillRegisters (v.setIfInBounds k b) (k + 1) rest

def withCpu (c : Computer) (f : Cpu → Cpu) : Computer := { c with cpu := f c.cpu }

/-- The index moves past the range of V0 to VX. -/
def passRange (x : Register) (cpu : Cpu) : Cpu :=
  { cpu with index := cpu.index + BitVec.ofNat 16 (x.val + 1) }

def draw (c : Computer) (x y : Register) (rows : Nat) : Computer :=
  let sprite := c.memory.readRange c.cpu.index rows
  let (screen, erased) := c.screen.draw sprite (c.cpu.register x) (c.cpu.register y)
  { c with screen, cpu := c.cpu.setRegister 0xF (Cpu.flag erased) }

def execute (c : Computer) : Instruction → Computer
  | .sys _ => c
  | .clear => { c with screen := c.screen.clear }
  | .ret => c.withCpu Cpu.pop
  | .jump target => c.withCpu ({ · with pc := target.setWidth 16 })
  | .call target => c.withCpu fun cpu => { cpu.push cpu.pc with pc := target.setWidth 16 }
  | .skip condition => c.withCpu (·.skip (condition.holds c))
  | .setByte x nn => c.withCpu (·.setRegister x nn)
  | .addByte x nn => c.withCpu fun cpu => cpu.setRegister x (cpu.register x + nn)
  | .arith op x y =>
    c.withCpu fun cpu => cpu.setResult x (op.apply (cpu.register x) (cpu.register y))
  | .setIndex target => c.withCpu ({ · with index := target.setWidth 16 })
  | .jumpPlus target =>
    c.withCpu fun cpu => { cpu with pc := target.setWidth 16 + (cpu.register 0).setWidth 16 }
  | .random x mask =>
    c.withCpu fun cpu =>
      let (byte, random) := cpu.random.next
      { cpu.setRegister x (byte &&& mask) with random }
  | .draw x y rows => c.draw x y rows.val
  | .readDelay x => c.withCpu fun cpu => cpu.setRegister x cpu.delay
  | .awaitKey x => c.withCpu ({ · with awaiting := some x })
  | .setDelay x => c.withCpu fun cpu => { cpu with delay := cpu.register x }
  | .setSound x => c.withCpu fun cpu => { cpu with sound := cpu.register x }
  | .addIndex x =>
    c.withCpu fun cpu => { cpu with index := cpu.index + (cpu.register x).setWidth 16 }
  | .glyph x => c.withCpu fun cpu => { cpu with index := Memory.glyphAddress (cpu.register x) }
  | .decimal x =>
    { c with memory := c.memory.writeRange c.cpu.index (decimalDigits (c.cpu.register x)) }
  | .store x =>
    { c with
      memory := c.memory.writeRange c.cpu.index (registersTo c.cpu x)
      cpu := passRange x c.cpu }
  | .restore x =>
    c.withCpu fun cpu =>
      passRange x
        { cpu with v := fillRegisters cpu.v 0 (c.memory.readRange cpu.index (x.val + 1)) }

end Computer

/-- What there is to report when an instruction finds the processor like this. -/
def Instruction.remarks (cpu : Cpu) : Instruction → List Record
  | .sys routine => [.nativeRoutine routine]
  | .ret => if cpu.sp = 0 then [.stackUnderflow (cpu.pc - 2)] else []
  | .call _ => if cpu.isFull then [.stackOverflow (cpu.pc - 2)] else []
  | .awaitKey x => [.awaitingKey x]
  | _ => []

/-- What one step did. -/
inductive Step where
  | executed (instruction : Instruction)
  | waiting
  deriving DecidableEq

namespace Computer

def fetch (c : Computer) : Word := c.memory.readWord c.cpu.pc

/-- Moves past the opcode and executes it. -/
def advance (c : Computer) (i : Instruction) : Computer × List Record :=
  let c' := c.withCpu fun cpu => { cpu with pc := cpu.pc + 2 }
  (c'.execute i,
   .executing c.cpu.pc c.fetch i c.cpu.v c.cpu.index c.cpu.sp :: i.remarks c'.cpu)

def step (c : Computer) : Except Error (Step × Computer × List Record) :=
  match c.cpu.awaiting with
  | some _ => .ok (.waiting, c, [])
  | none =>
    match Instruction.decode c.fetch with
    | .error e => .error e
    | .ok i => .ok (.executed i, c.advance i)

end Computer

end ChipEight
