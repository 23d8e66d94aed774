import ChipEight.Log
import ChipEight.Memory
import ChipEight.Random

/-!
# ChipEight.Cpu

The registers, the call stack and the timers, and what happens to them outside of instructions.

* `Cpu.push`, `Cpu.pop` — the call stack. The pointer runs from 0 to 16 and wraps at both ends, so a
  17th call takes the place of the first.
* `Cpu.receiveKey` — a key for an instruction that waits for one.
* `Cpu.tick`       — both timers, one tick on.
-/

namespace ChipEight

structure Cpu where
  v : Bank Byte
  index : Word
  pc : Word
  /-- How many addresses are on the stack; the next one goes to this slot. -/
  sp : Byte
  stack : Bank Word
  delay : Byte
  sound : Byte
  /-- The register that waits for a key, while an instruction waits for one. -/
  awaiting : Option Register
  random : Random
  deriving DecidableEq

namespace Cpu

abbrev registerCount : Nat := 16

/-- How many addresses the call stack holds. -/
abbrev stackSize : Nat := 16

def initial (random : Random) : Cpu where
  v := Vector.replicate registerCount 0
  index := 0
  pc := Memory.start
  sp := 0
  stack := Vector.replicate stackSize 0
  delay := 0
  sound := 0
  awaiting := none
  random := random

/-- Everything as at the start, except that the random stream goes on. -/
def reset (c : Cpu) : Cpu := initial c.random

def register (c : Cpu) (x : Register) : Byte := c.v.read x

def setRegister (c : Cpu) (x : Register) (value : Byte) : Cpu :=
  { c with v := c.v.write x value }

def flag (b : Bool) : Byte := if b then 1 else 0

/-- The result goes to VX first and the flag to VF last, so in VF itself the flag stays. -/
def setResult (c : Cpu) (x : Register) : Byte × Option Bool → Cpu
  | (value, none) => c.setRegister x value
  | (value, some f) => (c.setRegister x value).setRegister 0xF (flag f)

/-- Passes over the next opcode. -/
def skip (c : Cpu) (condition : Bool) : Cpu := if condition then { c with pc := c.pc + 2 } else c

/-- The slot that a stack pointer names. -/
def slot (sp : Byte) : Fin 16 := Fin.ofNat 16 sp.toNat

def isFull (c : Cpu) : Bool := stackSize ≤ c.sp.toNat

def push (c : Cpu) (address : Word) : Cpu :=
  let sp := if c.isFull then 0 else c.sp
  { c with stack := c.stack.write (slot sp) address, sp := sp + 1 }

/-- Leaves the popped address in the pc; its slot keeps it too. -/
def pop (c : Cpu) : Cpu :=
  let sp := (if c.sp = 0 then BitVec.ofNat 8 stackSize else c.sp) - 1
  { c with sp := sp, pc := c.stack.read (slot sp) }

/-- Hands a key to an instruction that waits for one; otherwise nothing happens. -/
def receiveKey (c : Cpu) (key : Byte) : Cpu × List Record :=
  match c.awaiting with
  | none => (c, [])
  | some x => ({ c.setRegister x key with awaiting := none }, [.keyStored key x])

/-- The delay timer goes down by one, and a running sound timer becomes one beep over all that was
left of it. -/
def tick (c : Cpu) : Cpu × Option Byte :=
  ({ c with delay := if c.delay = 0 then 0 else c.delay - 1, sound := 0 },
   if c.sound = 0 then none else some c.sound)

end Cpu

end ChipEight
