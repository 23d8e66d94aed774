import ChipEight.Proofs.Bare.Instruction
import ChipEight.Proofs.Bare.Memory
import ChipEight.Proofs.Bare.Screen
import ChipEight.Proofs.Execution

/-!
# ChipEight.Proofs.Bare.Computer

The processor over plain storage. Registers, stack and memory are arrays that instructions index
with whatever their operands and the stack pointer hold, and what a step has changed stays changed,
also when it ends in an error.

* `Computer.execute`, `Computer.step` — one instruction, and one step.
* `Computer.of` — the plain storage behind a computer.
* `execute_ok`, `step_ok` — with at most 16 addresses on the stack nothing goes wrong, and the
  outcome is that of `ChipEight.Computer.execute` and `ChipEight.Computer.step`.
-/

namespace ChipEight
namespace Bare

structure Cpu where
  v : Bank Byte
  index : Word
  pc : Word
  sp : Byte
  stack : Bank Word
  delay : Byte
  sound : Byte
  awaiting : Option Byte
  random : Random
  deriving DecidableEq

structure Computer where
  cpu : Cpu
  memory : Memory
  screen : Screen
  keypad : Keypad
  deriving DecidableEq

namespace Cpu

def register (c : Cpu) (x : Byte) : Checked Byte := get c.v x.toNat

def setRegister (c : Cpu) (x value : Byte) : Checked Cpu := do
  let v ← put c.v x.toNat value
  return { c with v }

def setResult (c : Cpu) (x : Byte) : Byte × Option Bool → Checked Cpu
  | (value, none) => c.setRegister x value
  | (value, some f) => do
    let c ← c.setRegister x value
    c.setRegister 0xF (ChipEight.Cpu.flag f)

def skip (c : Cpu) (condition : Bool) : Cpu := if condition then { c with pc := c.pc + 2 } else c

/-- An empty stack wraps to a full one before the pointer goes down. -/
def ret (c : Cpu) : Checked Cpu := do
  let sp := if c.sp = 0 then 16 else c.sp
  let sp ← sub sp 1
  let pc ← get c.stack sp.toNat
  return { c with sp, pc }

/-- A full stack wraps to an empty one before the address is written. -/
def call (c : Cpu) (target : Word) : Checked Cpu := do
  let sp := if 16 ≤ c.sp.toNat then 0 else c.sp
  let stack ← put c.stack sp.toNat c.pc
  let sp ← add sp 1
  return { c with stack, sp, pc := target }

/-- The index moves past V0 to VX. -/
def passRange (c : Cpu) (x : Byte) : Checked Cpu := do
  let length ← add (x.setWidth 16) (1 : Word)
  return { c with index := c.index + length }

/-- A key for the register that waits for one. -/
def receiveKey (c : Cpu) (key : Byte) : Checked Cpu :=
  match c.awaiting with
  | none => .ok c
  | some x => { c with awaiting := none }.setRegister x key

def initial (random : Random) : Cpu where
  v := Vector.replicate 16 0
  index := 0
  pc := Memory.start
  sp := 0
  stack := Vector.replicate 16 0
  delay := 0
  sound := 0
  awaiting := none
  random := random

/-- A timer that has not run out goes down by one. -/
def countDown (timer : Byte) : Checked Byte := if timer = 0 then .ok timer else sub timer 1

/-- Both timers; a beep goes to the tone that the host supplied. -/
def tick {T : Type} (request : Byte → T → T) (c : Cpu) (tone : T) : Checked (Cpu × T) := do
  let delay ← countDown c.delay
  if c.sound = 0 then
    return ({ c with delay }, tone)
  return ({ c with delay, sound := 0 }, request c.sound tone)

end Cpu

/-! ## Instructions -/

/-- Stores the first `count` elements of an array from address `a` on. -/
def storeAll {n : Nat} (m : Memory) (a : Word) (bytes : Vector Byte n) (count : Nat) :
    Checked Memory :=
  countUp
    (fun k m => do
      let b ← get bytes k
      writeByte m (a + BitVec.ofNat 16 k) b)
    count m

/-- Loads `count` registers from address `a` on. -/
def loadAll (m : Memory) (a : Word) (v : Bank Byte) (count : Nat) : Checked (Bank Byte) :=
  countUp
    (fun k v => do
      let b ← readByte m (a + BitVec.ofNat 16 k)
      put v k b)
    count v

namespace Computer

def withCpu (c : Computer) (f : Cpu → Checked Cpu) : Checked Computer := do
  let cpu ← f c.cpu
  return { c with cpu }

def draw (c : Computer) (x y rows : Byte) : Checked Computer := do
  let sprite ← readRange c.memory c.cpu.index rows.toNat
  let vx ← c.cpu.register x
  let vy ← c.cpu.register y
  let (screen, erased) ← c.screen.drawSprite sprite vx vy
  let cpu ← c.cpu.setRegister 0xF (ChipEight.Cpu.flag erased)
  return { c with screen, cpu }

def execute (c : Computer) : Instruction → Checked Computer
  | .sys _ => .ok c
  | .clear => .ok { c with screen := c.screen.clear }
  | .ret => c.withCpu (·.ret)
  | .jump target => c.withCpu fun cpu => .ok { cpu with pc := target }
  | .call target => c.withCpu (·.call target)
  | .skipByte same x nn => c.withCpu fun cpu => do
    let vx ← cpu.register x
    return cpu.skip ((vx == nn) == same)
  | .skipRegister same x y => c.withCpu fun cpu => do
    let vx ← cpu.register x
    let vy ← cpu.register y
    return cpu.skip ((vx == vy) == same)
  | .skipKey down x => c.withCpu fun cpu => do
    let vx ← cpu.register x
    return cpu.skip (c.keypad.isDown (vx &&& 0xF) == down)
  | .setByte x nn => c.withCpu (·.setRegister x nn)
  | .addByte x nn => c.withCpu fun cpu => do
    let vx ← cpu.register x
    cpu.setRegister x (vx + nn)
  | .arith op x y => c.withCpu fun cpu => do
    let vx ← cpu.register x
    let vy ← cpu.register y
    cpu.setResult x (op.apply vx vy)
  | .setIndex target => c.withCpu fun cpu => .ok { cpu with index := target }
  | .jumpPlus target => c.withCpu fun cpu => do
    let v0 ← cpu.register 0
    let pc ← add target (v0.setWidth 16)
    return { cpu with pc }
  | .random x mask => c.withCpu fun cpu =>
    let (byte, random) := cpu.random.next
    { cpu with random }.setRegister x (byte &&& mask)
  | .draw x y rows => c.draw x y rows
  | .readDelay x => c.withCpu fun cpu => cpu.setRegister x cpu.delay
  | .awaitKey x => c.withCpu fun cpu => .ok { cpu with awaiting := some x }
  | .setDelay x => c.withCpu fun cpu => do
    let delay ← cpu.register x
    return { cpu with delay }
  | .setSound x => c.withCpu fun cpu => do
    let sound ← cpu.register x
    return { cpu with sound }
  | .addIndex x => c.withCpu fun cpu => do
    let vx ← cpu.register x
    return { cpu with index := cpu.index + vx.setWidth 16 }
  | .glyph x => c.withCpu fun cpu => do
    let vx ← cpu.register x
    let index ← glyphAddress vx
    return { cpu with index }
  | .decimal x => do
    let vx ← c.cpu.register x
    let memory ← storeAll c.memory c.cpu.index #v[vx / 100, vx / 10 % 10, vx % 10] 3
    return { c with memory }
  | .store x => do
    let memory ← storeAll c.memory c.cpu.index c.cpu.v (x.toNat + 1)
    let cpu ← c.cpu.passRange x
    return { c with memory, cpu }
  | .restore x => c.withCpu fun cpu => do
    let v ← loadAll c.memory cpu.index cpu.v (x.toNat + 1)
    { cpu with v }.passRange x

end Computer

inductive Step where
  | executed (instruction : Instruction)
  | waiting
  deriving DecidableEq

/-- Nothing is moved before the opcode is known to mean something. -/
def Computer.step (c : Computer) : Checked (Except Error Step × Computer) := do
  if c.cpu.awaiting.isSome then
    return (.ok .waiting, c)
  let opcode ← readWord c.memory c.cpu.pc
  match ← decode opcode with
  | .error e => return (.error e, c)
  | .ok i =>
    let c ← c.withCpu fun cpu => .ok { cpu with pc := cpu.pc + 2 }
    let c ← c.execute i
    return (.ok (.executed i), c)

/-! ## The storage behind a computer -/

def Cpu.of (c : ChipEight.Cpu) : Cpu where
  v := c.v
  index := c.index
  pc := c.pc
  sp := c.sp
  stack := c.stack
  delay := c.delay
  sound := c.sound
  awaiting := c.awaiting.map ofDigit
  random := c.random

def Computer.of (c : ChipEight.Computer) : Computer where
  cpu := .of c.cpu
  memory := c.memory
  screen := .of c.screen
  keypad := c.keypad

def Step.of : ChipEight.Step → Step
  | .executed i => .executed (.of i)
  | .waiting => .waiting

namespace Cpu

variable (c : ChipEight.Cpu)

@[simp] theorem register_of (x : Register) : (of c).register (ofDigit x) = .ok (c.register x) := by
  have hx : (ofDigit x).toNat < 16 := by
    rw [toNat_ofDigit]
    exact x.isLt
  rw [register, get_ok hx]
  simp only [toNat_ofDigit]
  rfl

@[simp] theorem setRegister_of (x : Register) (value : Byte) :
    (of c).setRegister (ofDigit x) value = .ok (of (c.setRegister x value)) := by
  have hx : (ofDigit x).toNat < 16 := by
    rw [toNat_ofDigit]
    exact x.isLt
  rw [setRegister, put_ok value hx]
  simp only [toNat_ofDigit]
  rfl

@[simp] theorem setResult_of (x : Register) (result : Byte × Option Bool) :
    (of c).setResult (ofDigit x) result = .ok (of (c.setResult x result)) := by
  obtain ⟨value, f | f⟩ := result
  · exact setRegister_of c x value
  · rw [setResult, setRegister_of, ok_bind]
    exact setRegister_of (c.setRegister x value) 0xF (ChipEight.Cpu.flag f)

@[simp] theorem skip_of (condition : Bool) : (of c).skip condition = of (c.skip condition) := by
  cases condition <;> rfl

theorem slot_val {sp : Byte} (h : sp.toNat < 16) : (ChipEight.Cpu.slot sp).val = sp.toNat := by
  rw [ChipEight.Cpu.slot, Fin.val_ofNat]
  exact Nat.mod_eq_of_lt h

/-- Taking an address off the stack: after the wrap the pointer is at least 1, and one less than it
names a slot. -/
theorem ret_of (h : c.sp.toNat ≤ 16) : (of c).ret = .ok (of c.pop) := by
  have hpos : (1 : Byte).toNat ≤ (if c.sp = 0 then 16 else c.sp).toNat := by
    by_cases h0 : c.sp = 0
    · rw [if_pos h0]
      decide
    · have hne := toNat_ne_zero h0
      have hone : (1 : Byte).toNat = 1 := rfl
      rw [if_neg h0, hone]
      omega
  have hslot : ((if c.sp = 0 then 16 else c.sp) - 1 : Byte).toNat < 16 := by
    have hpop : ((if c.sp = 0 then 16 else c.sp) - 1 : Byte).toNat = _ := c.pop_sp h
    omega
  show (do
    let sp ← sub (if c.sp = 0 then 16 else c.sp) 1
    let pc ← get c.stack sp.toNat
    pure { of c with sp, pc }) = Except.ok (of c.pop)
  have hsize : BitVec.ofNat 8 ChipEight.Cpu.stackSize = 16 := rfl
  rw [sub_ok hpos, ok_bind, get_ok hslot]
  simp only [ChipEight.Cpu.pop, hsize, Bank.read, slot_val hslot]
  rfl

/-- Putting an address on the stack: after the wrap the pointer names a slot. -/
theorem call_of (target : Word) :
    (of c).call target = .ok (of { c.push c.pc with pc := target }) := by
  have hsp : (if c.isFull then 0 else c.sp).toNat < 16 := by
    by_cases hfull : c.isFull = true
    · rw [if_pos hfull]
      decide
    · have : ¬ 16 ≤ c.sp.toNat := fun hle => hfull (c.isFull_iff.mpr hle)
      rw [if_neg hfull]
      omega
  have hadd : BitVec.uaddOverflow (if c.isFull then 0 else c.sp) (1 : Byte) = false := by
    have hone : (1 : Byte).toNat = 1 := rfl
    simp only [BitVec.uaddOverflow, hone, decide_eq_false_iff_not]
    omega
  have hwrap : (if 16 ≤ c.sp.toNat then 0 else c.sp) = if c.isFull then 0 else c.sp := by
    rw [ChipEight.Cpu.isFull]
    simp only [decide_eq_true_eq]
  show (do
    let stack ← put c.stack (if 16 ≤ c.sp.toNat then 0 else c.sp).toNat c.pc
    let sp ← add (if 16 ≤ c.sp.toNat then 0 else c.sp) 1
    pure { of c with stack, sp, pc := target }) = Except.ok _
  rw [hwrap, put_ok c.pc hsp, ok_bind, add_ok hadd]
  simp only [ChipEight.Cpu.push, Bank.write, slot_val hsp]
  rfl

@[simp] theorem passRange_of (x : Register) :
    (of c).passRange (ofDigit x) = .ok (of (ChipEight.Computer.passRange x c)) := by
  have hadd : BitVec.uaddOverflow ((ofDigit x).setWidth 16) (1 : Word) = false := by
    have hone : (1 : Word).toNat = 1 := rfl
    simp only [BitVec.uaddOverflow, BitVec.toNat_setWidth, toNat_ofDigit, hone,
      decide_eq_false_iff_not]
    omega
  have hlength : (ofDigit x).setWidth 16 + 1 = BitVec.ofNat 16 (x.val + 1) := by
    apply BitVec.eq_of_toNat_eq
    simp [toNat_ofDigit]
  rw [passRange, add_ok hadd, hlength]
  rfl

theorem receiveKey_of (key : Byte) : (of c).receiveKey key = .ok (of (c.receiveKey key).1) := by
  cases h : c.awaiting with
  | none =>
    have hb : (of c).awaiting = none := congrArg (Option.map ofDigit) h
    rw [receiveKey, hb, ChipEight.Cpu.receiveKey, h]
  | some x =>
    have hb : (of c).awaiting = some (ofDigit x) := congrArg (Option.map ofDigit) h
    rw [receiveKey, hb, ChipEight.Cpu.receiveKey, h]
    exact setRegister_of { c with awaiting := none } x key

theorem countDown_ok (timer : Byte) :
    countDown timer = .ok (if timer = 0 then 0 else timer - 1) := by
  by_cases h0 : timer = 0
  · rw [countDown, if_pos h0, if_pos h0, h0]
  · have hpos : (1 : Byte).toNat ≤ timer.toNat := Nat.one_le_iff_ne_zero.mpr (toNat_ne_zero h0)
    rw [countDown, if_neg h0, if_neg h0, sub_ok hpos]

/-- The tone gets the one beep that the processor asks for, if it asks for one. -/
theorem tick_of {T : Type} (request : Byte → T → T) (tone : T) :
    (of c).tick request tone =
      .ok (of c.tick.1, c.tick.2.toList.foldl (fun tone ticks => request ticks tone) tone) := by
  have hdelay : countDown (of c).delay = .ok (if c.delay = 0 then 0 else c.delay - 1) :=
    countDown_ok c.delay
  rw [tick, hdelay, ok_bind, ChipEight.Cpu.tick]
  by_cases hs : c.sound = 0
  · have hb : (of c).sound = 0 := hs
    rw [if_pos hb, if_pos hs, ← hs]
    rfl
  · have hb : ¬ (of c).sound = 0 := hs
    rw [if_neg hb, if_neg hs]
    rfl

end Cpu

/-! ## Blocks of registers and memory -/

theorem storeAll_ok {n : Nat} (m : Memory) (a : Word) (bytes : Vector Byte n) {count : Nat}
    (h : count ≤ n) :
    storeAll m a bytes count = .ok (m.writeRange a (bytes.toList.take count)) := by
  refine countUp_ok (fun k => m.writeRange a (bytes.toList.take k)) fun k hk => ?_
  have hlen : (bytes.toList.take k).length = k := by
    simp
    omega
  have hnext : bytes.toList.take (k + 1) = bytes.toList.take k ++ [bytes[k]] := by
    rw [List.take_succ_eq_append_getElem (by simp; omega), Vector.getElem_toList]
  rw [get_ok (by omega), ok_bind, writeByte_ok, hnext, Memory.writeRange_append, hlen]
  rfl

theorem fillRegisters_append (v : Bank Byte) (k : Nat) (bytes : List Byte) (b : Byte) :
    ChipEight.Computer.fillRegisters v k (bytes ++ [b]) =
      (ChipEight.Computer.fillRegisters v k bytes).setIfInBounds (k + bytes.length) b := by
  induction bytes generalizing v k with
  | nil => rfl
  | cons first rest ih =>
    rw [List.cons_append, ChipEight.Computer.fillRegisters, ChipEight.Computer.fillRegisters, ih,
      List.length_cons, show k + 1 + rest.length = k + (rest.length + 1) by omega]

theorem set_eq_setIfInBounds (v : Bank Byte) {k : Nat} (b : Byte) (hk : k < 16) :
    v.set k b hk = v.setIfInBounds k b := by
  apply Vector.ext
  intro i hi
  rw [Vector.getElem_set, Vector.getElem_setIfInBounds]

theorem loadAll_ok (m : Memory) (a : Word) (v : Bank Byte) {count : Nat} (h : count ≤ 16) :
    loadAll m a v count = .ok (ChipEight.Computer.fillRegisters v 0 (m.readRange a count)) := by
  refine countUp_ok (fun k => ChipEight.Computer.fillRegisters v 0 (m.readRange a k))
    fun k hk => ?_
  have hk16 : k < 16 := by omega
  rw [readByte_ok, ok_bind, put_ok _ hk16, Memory.readRange_succ, fillRegisters_append,
    Memory.length_readRange, Nat.zero_add, set_eq_setIfInBounds]

/-! ## Instructions and steps -/

namespace Computer

theorem draw_of (c : ChipEight.Computer) (x y rows : Fin 16) :
    (of c).draw (ofDigit x) (ofDigit y) (ofDigit rows) = .ok (of (c.draw x y rows.val)) := by
  show (do
    let sprite ← readRange c.memory c.cpu.index (ofDigit rows).toNat
    let vx ← (Cpu.of c.cpu).register (ofDigit x)
    let vy ← (Cpu.of c.cpu).register (ofDigit y)
    let (screen, erased) ← (Screen.of c.screen).drawSprite sprite vx vy
    let cpu ← (Cpu.of c.cpu).setRegister (ofDigit 0xF) (ChipEight.Cpu.flag erased)
    pure { of c with screen, cpu }) = Except.ok _
  simp only [readRange_ok, Cpu.register_of, drawSprite_ok, Cpu.setRegister_of, toNat_ofDigit,
    ok_bind]
  rfl

variable (c : ChipEight.Computer)

theorem withCpu_of {f : Cpu → Checked Cpu} {g : ChipEight.Cpu → ChipEight.Cpu}
    (h : f (Cpu.of c.cpu) = .ok (Cpu.of (g c.cpu))) :
    (of c).withCpu f = .ok (of (c.withCpu g)) := by
  show (do let cpu ← f (Cpu.of c.cpu); pure { of c with cpu }) = Except.ok _
  rw [h]
  rfl

/-- A skip asks what its condition asks. -/
theorem skip_ok (condition : Condition) :
    (of c).execute (.ofCondition condition) =
      .ok (of (c.withCpu (·.skip (condition.holds c)))) := by
  have htrue : ∀ b : Bool, (b == true) = b := by decide
  have hfalse : ∀ b : Bool, (b == false) = !b := by decide
  cases condition with
  | isByte x nn =>
    rw [Instruction.ofCondition, execute]
    refine withCpu_of c ?_
    rw [Cpu.register_of, ok_bind, htrue, Cpu.skip_of]
    rfl
  | isNotByte x nn =>
    rw [Instruction.ofCondition, execute]
    refine withCpu_of c ?_
    rw [Cpu.register_of, ok_bind, hfalse, Cpu.skip_of]
    rfl
  | equal x y =>
    rw [Instruction.ofCondition, execute]
    refine withCpu_of c ?_
    rw [Cpu.register_of, Cpu.register_of, ok_bind, ok_bind, htrue, Cpu.skip_of]
    rfl
  | different x y =>
    rw [Instruction.ofCondition, execute]
    refine withCpu_of c ?_
    rw [Cpu.register_of, Cpu.register_of, ok_bind, ok_bind, hfalse, Cpu.skip_of]
    rfl
  | keyDown x =>
    rw [Instruction.ofCondition, execute]
    refine withCpu_of c ?_
    rw [Cpu.register_of, ok_bind, htrue, Cpu.skip_of]
    rfl
  | keyUp x =>
    rw [Instruction.ofCondition, execute]
    refine withCpu_of c ?_
    rw [Cpu.register_of, ok_bind, hfalse, Cpu.skip_of]
    rfl

/-- A 12-bit address and a byte add up to less than a word holds. -/
theorem jumpPlus_fits (target : Address) (b : Byte) :
    BitVec.uaddOverflow (target.setWidth 16 : Word) (b.setWidth 16) = false := by
  have := target.isLt
  have := b.isLt
  simp only [BitVec.uaddOverflow, BitVec.toNat_setWidth, decide_eq_false_iff_not]
  omega

theorem execute_ok (h : c.cpu.sp.toNat ≤ 16) (i : ChipEight.Instruction) :
    (of c).execute (.of i) = .ok (of (c.execute i)) := by
  cases i with
  | sys routine => rfl
  | clear => exact congrArg (fun screen => Except.ok { of c with screen }) (clear_of c.screen)
  | ret => exact withCpu_of c (Cpu.ret_of c.cpu h)
  | jump target => rfl
  | call target =>
    rw [Instruction.of, execute, ChipEight.Computer.execute]
    refine withCpu_of c ?_
    exact Cpu.call_of c.cpu (target.setWidth 16)
  | skip condition => exact skip_ok c condition
  | setByte x nn =>
    rw [Instruction.of, execute, ChipEight.Computer.execute]
    refine withCpu_of c ?_
    exact Cpu.setRegister_of c.cpu x nn
  | addByte x nn =>
    rw [Instruction.of, execute, ChipEight.Computer.execute]
    refine withCpu_of c ?_
    rw [Cpu.register_of, ok_bind]
    exact Cpu.setRegister_of c.cpu x _
  | arith op x y =>
    rw [Instruction.of, execute, ChipEight.Computer.execute]
    refine withCpu_of c ?_
    rw [Cpu.register_of, Cpu.register_of, ok_bind, ok_bind]
    exact Cpu.setResult_of c.cpu x _
  | setIndex target => rfl
  | jumpPlus target =>
    rw [Instruction.of, execute, ChipEight.Computer.execute]
    refine withCpu_of c ?_
    show (do
      let v0 ← (Cpu.of c.cpu).register (ofDigit 0)
      let pc ← add (target.setWidth 16) (v0.setWidth 16)
      pure { Cpu.of c.cpu with pc }) = _
    rw [Cpu.register_of, ok_bind, add_ok (jumpPlus_fits target _)]
    rfl
  | random x mask =>
    rw [Instruction.of, execute, ChipEight.Computer.execute]
    refine withCpu_of c ?_
    exact Cpu.setRegister_of { c.cpu with random := c.cpu.random.next.2 } x _
  | draw x y rows => exact draw_of c x y rows
  | readDelay x =>
    rw [Instruction.of, execute, ChipEight.Computer.execute]
    refine withCpu_of c ?_
    exact Cpu.setRegister_of c.cpu x _
  | awaitKey x => rfl
  | setDelay x =>
    rw [Instruction.of, execute, ChipEight.Computer.execute]
    refine withCpu_of c ?_
    rw [Cpu.register_of]
    rfl
  | setSound x =>
    rw [Instruction.of, execute, ChipEight.Computer.execute]
    refine withCpu_of c ?_
    rw [Cpu.register_of]
    rfl
  | addIndex x =>
    rw [Instruction.of, execute, ChipEight.Computer.execute]
    refine withCpu_of c ?_
    rw [Cpu.register_of]
    rfl
  | glyph x =>
    rw [Instruction.of, execute, ChipEight.Computer.execute]
    refine withCpu_of c ?_
    rw [Cpu.register_of, ok_bind, glyphAddress_ok]
    rfl
  | decimal x =>
    show (do
      let vx ← (Cpu.of c.cpu).register (ofDigit x)
      let memory ← storeAll c.memory c.cpu.index #v[vx / 100, vx / 10 % 10, vx % 10] 3
      pure { of c with memory }) = Except.ok _
    rw [Cpu.register_of, ok_bind, storeAll_ok _ _ _ (Nat.le_refl 3)]
    rfl
  | store x =>
    show (do
      let memory ← storeAll c.memory c.cpu.index c.cpu.v ((ofDigit x).toNat + 1)
      let cpu ← (Cpu.of c.cpu).passRange (ofDigit x)
      pure { of c with memory, cpu }) = Except.ok _
    rw [toNat_ofDigit, storeAll_ok _ _ _ (by omega), ok_bind, Cpu.passRange_of]
    rfl
  | restore x =>
    rw [Instruction.of, execute, ChipEight.Computer.execute]
    refine withCpu_of c ?_
    show (do
      let v ← loadAll c.memory c.cpu.index c.cpu.v ((ofDigit x).toNat + 1)
      ({ Cpu.of c.cpu with v } : Cpu).passRange (ofDigit x)) = _
    rw [toNat_ofDigit, loadAll_ok _ _ _ (by omega), ok_bind]
    exact Cpu.passRange_of { c.cpu with v := _ } x

theorem step_ok (h : c.cpu.sp.toNat ≤ 16) :
    (of c).step = .ok (match c.step with
      | .ok (s, c', _) => (.ok (Step.of s), of c')
      | .error e => (.error e, of c)) := by
  cases ha : c.cpu.awaiting with
  | some x =>
    have hb : (of c).cpu.awaiting.isSome = true := by
      show (c.cpu.awaiting.map ofDigit).isSome = true
      rw [ha]
      rfl
    rw [step, if_pos hb, ChipEight.Computer.step, ha]
    rfl
  | none =>
    have hb : ¬ (of c).cpu.awaiting.isSome = true := by
      show ¬ (c.cpu.awaiting.map ofDigit).isSome = true
      rw [ha]
      decide
    have hword : readWord (of c).memory (of c).cpu.pc = .ok c.fetch := readWord_ok c.memory c.cpu.pc
    rw [step, if_neg hb, hword, ok_bind, decode_ok, ok_bind, ChipEight.Computer.step, ha]
    cases hd : ChipEight.Instruction.decode c.fetch with
    | error e => rfl
    | ok i =>
      have hrun := execute_ok (c.withCpu fun cpu => { cpu with pc := cpu.pc + 2 }) h i
      show (do
        let c' ← (of c).withCpu fun cpu => .ok { cpu with pc := cpu.pc + 2 }
        let c' ← c'.execute (.of i)
        pure (Except.ok (Step.executed (.of i)), c')) = _
      rw [withCpu_of c (g := fun cpu => { cpu with pc := cpu.pc + 2 }) rfl, ok_bind, hrun]
      rfl

end Computer

end Bare
end ChipEight
