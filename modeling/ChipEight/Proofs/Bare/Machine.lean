import ChipEight.Proofs.Bare.Computer
import ChipEight.Proofs.Machine

/-!
# ChipEight.Proofs.Bare.Machine

The machine over plain storage, with the tone that its host supplied and a step counter of 32 bits.
A call changes the machine in place, one part after the other. One that fails gives its error and
whatever it has made of the machine by then.

* `Machine.perform`, `performAll` — one call, and a history of calls; `Machine.run` — a history from
  a new machine.
* `Machine.of`, `Answer.of`       — the plain form of a machine and of an answer.
* `perform_ok`, `performAll_ok`, `run_ok` — on a well-formed machine nothing goes wrong, and
  answers, beeps and machine are those of `ChipEight.Machine.perform`.
-/

namespace ChipEight
namespace Bare

/-- An edge, with the key as its byte. -/
inductive KeyEdge where
  | pressed (key : Byte)
  | released (key : Byte)
  deriving DecidableEq

inductive Answer where
  | done
  | size (n : Nat)
  | step (step : Step)
  | edge (edge : Option KeyEdge)
  | frame (pixels : Option Pixels)
  | opcode (opcode : Word)
  | listing (text : String)
  deriving DecidableEq

structure Machine (T : Type) where
  config : Config
  ready : Bool
  computer : Computer
  tone : T
  sinceTick : BitVec 32

/-- Moves a key; the answer is the edge. -/
def setKey (k : Keypad) (key : Byte) (down : Bool) :
    Checked (Except Error (Option KeyEdge) × Keypad) :=
  match k.keys[key.toNat]? with
  | none => .ok (.error (.invalidKey key), k)
  | some state => do
    let edge :=
      match state, down with
      | false, true => some (KeyEdge.pressed key)
      | true, false => some (KeyEdge.released key)
      | _, _ => none
    let keys ← put k.keys key.toNat down
    return (.ok edge, ⟨keys⟩)

/-- The text of the loaded program; every word of it is decoded for its mnemonic. -/
def programListing (m : Memory) : Checked String := do
  let bytes ← program m
  let _ ← (Listing.words bytes).mapM decode
  return Listing.joinLines ((Listing.words bytes).mapIdx Listing.programLine)

namespace Machine

variable {T : Type}

def create (config : Config) (entropy : Random.Key) (tone : T) : Checked (Machine T) := do
  let memory ← blankMemory
  return {
    config
    ready := false
    computer :=
      { cpu := .initial (.ofKey (config.randomKey entropy))
        memory
        screen := ⟨Pixels.dark, false⟩
        keypad := .released }
    tone
    sinceTick := 0 }

def resetComponents (m : Machine T) : Checked (Machine T) := do
  let memory ← blankMemory
  return {
    m with
    computer :=
      { cpu := .initial m.computer.cpu.random
        memory
        screen := m.computer.screen.clear
        keypad := .released }
    sinceTick := 0 }

def makeReady (m : Machine T) : Checked (Except Error Answer × Machine T) := do
  if m.ready then
    return (.error .alreadyReady, m)
  let m ← m.resetComponents
  return (.ok .done, { m with ready := true })

def reset (m : Machine T) : Checked (Except Error Answer × Machine T) := do
  let m ← m.resetComponents
  return (.ok .done, { m with ready := false })

/-- The size is checked before anything is reset, and again by the memory. -/
def load (m : Machine T) (rom : List Byte) : Checked (Except Error Answer × Machine T) := do
  unless m.ready do
    return (.error .notReady, m)
  if Memory.capacity < rom.length then
    return (.error (.romTooLarge rom.length Memory.capacity), m)
  let m ← m.resetComponents
  let (size, memory) ← loadRom m.computer.memory rom
  return (size.map .size, { m with computer := { m.computer with memory } })

variable (request : Byte → T → T)

def tickTimers (m : Machine T) : Checked (Machine T) := do
  let (cpu, tone) ← m.computer.cpu.tick request m.tone
  return { m with computer := { m.computer with cpu }, tone }

def countStep (m : Machine T) : Checked (Machine T) :=
  match m.config.stepsPerTick with
  | none => .ok m
  | some n => do
    let sinceTick ← add m.sinceTick 1
    if n ≤ sinceTick.toNat then
      tickTimers request { m with sinceTick := 0 }
    else
      return { m with sinceTick }

/-- The computer has stepped by the time that its error is looked at. -/
def step (m : Machine T) : Checked (Except Error Answer × Machine T) := do
  unless m.ready do
    return (.error .notReady, m)
  let (result, computer) ← m.computer.step
  let m := { m with computer }
  match result with
  | .error e => return (.error e, m)
  | .ok s =>
    let m ← m.countStep request
    return (.ok (.step s), m)

def tick (m : Machine T) : Checked (Except Error Answer × Machine T) := do
  unless m.ready do
    return (.error .notReady, m)
  let m ← m.tickTimers request
  return (.ok .done, m)

/-- The key has moved by the time that the processor hears of it. -/
def moveKey (m : Machine T) (key : Byte) (down : Bool) :
    Checked (Except Error Answer × Machine T) := do
  let (result, keypad) ← setKey m.computer.keypad key down
  let m := { m with computer := { m.computer with keypad } }
  match result with
  | .error e => return (.error e, m)
  | .ok (some (.pressed key)) =>
    let cpu ← m.computer.cpu.receiveKey key
    return (.ok (.edge (some (.pressed key))), { m with computer := { m.computer with cpu } })
  | .ok edge => return (.ok (.edge edge), m)

def takeFrame (m : Machine T) : Except Error Answer × Machine T :=
  let screen := m.computer.screen
  let frame := if screen.changed then some screen.pixels else none
  (.ok (.frame frame),
   { m with computer := { m.computer with screen := { screen with changed := false } } })

def fetch (m : Machine T) : Checked (Except Error Answer × Machine T) := do
  unless m.ready do
    return (.error .notReady, m)
  let opcode ← readWord m.computer.memory m.computer.cpu.pc
  return (.ok (.opcode opcode), m)

def perform (m : Machine T) : Call → Checked (Except Error Answer × Machine T)
  | .makeReady => m.makeReady
  | .reset => m.reset
  | .load rom => m.load rom
  | .step => m.step request
  | .tick => m.tick request
  | .setKey key down => m.moveKey key down
  | .takeFrame => .ok m.takeFrame
  | .fetch => m.fetch
  | .programListing => do
    let text ← Bare.programListing m.computer.memory
    return (.ok (.listing text), m)

/-- The answers to a history of calls, and the machine after it. -/
def performAll (m : Machine T) : List Call → Checked (List (Except Error Answer) × Machine T)
  | [] => .ok ([], m)
  | call :: rest => do
    let (answer, m) ← m.perform request call
    let (answers, m) ← m.performAll rest
    return (answer :: answers, m)

/-- A new machine and a history of calls on it. -/
def run (config : Config) (entropy : Random.Key) (tone : T) (calls : List Call) :
    Checked (List (Except Error Answer) × Machine T) := do
  let m ← create config entropy tone
  m.performAll request calls

end Machine

/-! ## The plain form of a machine -/

def KeyEdge.of : ChipEight.KeyEdge → KeyEdge
  | .pressed key => .pressed (ofDigit key)
  | .released key => .released (ofDigit key)

def Answer.of : ChipEight.Answer → Answer
  | .done => .done
  | .size n => .size n
  | .step s => .step (.of s)
  | .edge e => .edge (e.map .of)
  | .frame p => .frame (p.map .ofPicture)
  | .opcode w => .opcode w
  | .listing text => .listing text

namespace Machine

variable {T : Type}

def of (m : ChipEight.Machine) (tone : T) : Machine T where
  config := m.config
  ready := m.ready
  computer := .of m.computer
  tone := tone
  sinceTick := BitVec.ofNat 32 m.sinceTick

/-- The tone after some beeps. -/
def requestAll (request : Byte → T → T) (beeps : List Byte) (tone : T) : T :=
  beeps.foldl (fun tone ticks => request ticks tone) tone

/-- A reply on plain storage: the answer, and the machine with its beeps requested. -/
def ofReply (request : Byte → T → T) (tone : T) (r : Reply (Except Error ChipEight.Answer)) :
    Except Error Answer × Machine T :=
  (r.value.map .of, of r.machine (requestAll request r.beeps tone))

/-! ## The calls -/

theorem blank_of : Screen.of .blank = ⟨Pixels.dark, false⟩ :=
  congrArg (fun pixels => (⟨pixels, false⟩ : Screen)) Pixels.ofPicture_dark

theorem create_ok (config : Config) (entropy : Random.Key) (tone : T) :
    create config entropy tone = .ok (of (.create config entropy) tone) := by
  rw [create, blankMemory_ok, ok_bind, ← blank_of]
  rfl

variable (m : ChipEight.Machine) (request : Byte → T → T) (tone : T)

theorem resetComponents_of : (of m tone).resetComponents = .ok (of m.resetComponents tone) := by
  have hclear : (of m tone).computer.screen.clear = Screen.of m.computer.screen.clear :=
    clear_of m.computer.screen
  rw [resetComponents, blankMemory_ok, ok_bind, hclear]
  rfl

theorem makeReady_of :
    (of m tone).makeReady = .ok (ofReply request tone (m.perform .makeReady)) := by
  rw [makeReady, m.perform_makeReady]
  by_cases hr : m.ready
  · have hb : (of m tone).ready = true := hr
    rw [if_pos hb, if_pos hr]
    rfl
  · have hb : ¬ (of m tone).ready = true := hr
    rw [if_neg hb, if_neg hr, resetComponents_of]
    rfl

theorem reset_of : (of m tone).reset = .ok (ofReply request tone (m.perform .reset)) := by
  rw [reset, resetComponents_of]
  rfl

/-- Both forms of a call for machines that are ready refuse one that is not. -/
theorem ready_of {body : Checked (Except Error Answer × Machine T)}
    {r : Reply (Except Error ChipEight.Answer)}
    (h : m.ready = true → body = .ok (ofReply request tone r)) :
    (if (of m tone).ready then body else pure (.error .notReady, of m tone)) =
      .ok (ofReply request tone
        (if m.ready then r else { value := .error .notReady, machine := m })) := by
  by_cases hr : m.ready = true
  · have hb : (of m tone).ready = true := hr
    rw [if_pos hb, if_pos hr]
    exact h hr
  · have hb : ¬ (of m tone).ready = true := hr
    rw [if_neg hb, if_neg hr]
    rfl

theorem load_of (rom : List Byte) :
    (of m tone).load rom = .ok (ofReply request tone (m.perform (.load rom))) := by
  rw [m.perform_load]
  refine ready_of m request tone fun _ => ?_
  by_cases hrom : Memory.capacity < rom.length
  · rw [if_pos hrom, if_pos hrom]
    rfl
  · have hmemory : (of m.resetComponents tone).computer.memory = Memory.blank := rfl
    rw [if_neg hrom, if_neg hrom, resetComponents_of, ok_bind, hmemory,
      loadRom_fits _ (Nat.le_of_not_lt hrom)]
    rfl

theorem tickTimers_of :
    (of m tone).tickTimers request =
      .ok (of m.tickTimers.1 (requestAll request m.tickTimers.2.1 tone)) := by
  have htick : (of m tone).computer.cpu.tick request (of m tone).tone = _ :=
    Cpu.tick_of m.computer.cpu request tone
  rw [tickTimers, htick]
  rfl

variable {m}

/-- The counter stays below the steps between two ticks, so counting one more fits in 32 bits. -/
theorem sinceTick_fits (h : m.WellFormed) {n : Nat} (hn : m.config.stepsPerTick = some n) :
    m.sinceTick + 1 < 4294967296 := by
  have hlt := h.sinceTick_lt
  rw [hn, Option.getD_some] at hlt
  have hmax : n < 4294967296 := by
    unfold Config.stepsPerTick at hn
    cases ht : m.config.timing with
    | host =>
      rw [ht] at hn
      cases hn
    | perStep k =>
      rw [ht] at hn
      cases hn
      have := k.toNat_lt
      omega
  omega

theorem countStep_of (h : m.WellFormed) :
    (of m tone).countStep request =
      .ok (of m.countStep.1 (requestAll request m.countStep.2.1 tone)) := by
  have hb : (of m tone).config.stepsPerTick = m.config.stepsPerTick := rfl
  unfold countStep ChipEight.Machine.countStep
  rw [hb]
  cases hn : m.config.stepsPerTick with
  | none => rfl
  | some n =>
    have hfits := sinceTick_fits h hn
    have hone : (1 : BitVec 32).toNat = 1 := rfl
    have hcount : (of m tone).sinceTick.toNat = m.sinceTick := by
      show (BitVec.ofNat 32 m.sinceTick).toNat = m.sinceTick
      rw [BitVec.toNat_ofNat]
      omega
    have hadd : BitVec.uaddOverflow (of m tone).sinceTick (1 : BitVec 32) = false := by
      simp only [BitVec.uaddOverflow, hcount, hone, decide_eq_false_iff_not]
      omega
    have hnext : ((of m tone).sinceTick + 1).toNat = m.sinceTick + 1 := by
      rw [BitVec.toNat_add, hcount, hone]
      omega
    simp only [add_ok hadd, ok_bind, hnext]
    by_cases hle : n ≤ m.sinceTick + 1
    · rw [if_pos hle, if_pos hle]
      exact tickTimers_of { m with sinceTick := 0 } request tone
    · have hsum : (of m tone).sinceTick + 1 = BitVec.ofNat 32 (m.sinceTick + 1) := by
        apply BitVec.eq_of_toNat_eq
        rw [hnext, BitVec.toNat_ofNat]
        omega
      rw [if_neg hle, if_neg hle, hsum]
      rfl

theorem step_of (h : m.WellFormed) :
    (of m tone).step request = .ok (ofReply request tone (m.perform .step)) := by
  rw [m.perform_step]
  refine ready_of m request tone fun _ => ?_
  have hstep : (of m tone).computer.step = _ := Computer.step_ok m.computer h.sp_le
  rw [hstep, ok_bind]
  cases hs : m.computer.step with
  | error e => rfl
  | ok r =>
    obtain ⟨s, computer, log⟩ := r
    have hcount := countStep_of request tone (h.stepped hs)
    show (do
      let m ← (of { m with computer } tone).countStep request
      pure (Except.ok (Answer.step (.of s)), m)) = _
    rw [hcount]
    rfl

variable (m)

theorem tick_of : (of m tone).tick request = .ok (ofReply request tone (m.perform .tick)) := by
  rw [m.perform_tick]
  refine ready_of m request tone fun _ => ?_
  rw [tickTimers_of]
  rfl

theorem setKey_ok (k : Keypad) (key : Byte) (down : Bool) :
    setKey k key down = .ok (match k.set key down with
      | .ok (k', edge) => (.ok (edge.map .of), k')
      | .error e => (.error e, k)) := by
  rw [setKey, Keypad.set]
  by_cases hk : key.toNat < 16
  · have hdigit : ofDigit ⟨key.toNat, hk⟩ = key := by
      apply BitVec.eq_of_toNat_eq
      rw [toNat_ofDigit]
    rw [Vector.getElem?_eq_getElem hk, dif_pos hk]
    simp only [put_ok down hk, ok_bind]
    cases k.keys[key.toNat] <;> cases down <;> simp [KeyEdge.of, hdigit]
  · rw [Vector.getElem?_eq_none (by omega), dif_neg hk]

theorem moveKey_of (key : Byte) (down : Bool) :
    (of m tone).moveKey key down =
      .ok (ofReply request tone (m.perform (.setKey key down))) := by
  have hset : setKey (of m tone).computer.keypad key down = _ :=
    setKey_ok m.computer.keypad key down
  rw [moveKey, m.perform_setKey, hset, ok_bind]
  cases hk : m.computer.keypad.set key down with
  | error e => rfl
  | ok r =>
    obtain ⟨keypad, edge⟩ := r
    cases edge with
    | none => rfl
    | some edge =>
      cases edge with
      | released digit => rfl
      | pressed digit =>
        have hkey : ofDigit digit = key := by
          apply BitVec.eq_of_toNat_eq
          rw [toNat_ofDigit]
          exact (Keypad.set_pressed hk).1
        show (do
          let cpu ← (Cpu.of m.computer.cpu).receiveKey (ofDigit digit)
          pure (Except.ok (Answer.edge (some (.pressed (ofDigit digit)))),
            { of m tone with
              computer := { (of m tone).computer with cpu, keypad } })) = _
        rw [Cpu.receiveKey_of, ← hkey]
        rfl

theorem takeFrame_of :
    (of m tone).takeFrame = ofReply request tone (m.perform .takeFrame) := by
  have hb : (of m tone).computer.screen.changed = m.computer.screen.changed := rfl
  have hf : (m.perform .takeFrame).value =
      .ok (.frame (if m.computer.screen.changed then some m.computer.screen.picture else none)) :=
    rfl
  rw [takeFrame, ofReply, hb, hf]
  cases m.computer.screen.changed <;> rfl

theorem fetch_of : (of m tone).fetch = .ok (ofReply request tone (m.perform .fetch)) := by
  have hword : readWord (of m tone).computer.memory (of m tone).computer.cpu.pc = _ :=
    readWord_ok m.computer.memory m.computer.cpu.pc
  rw [m.perform_fetch]
  refine ready_of m request tone fun _ => ?_
  rw [hword]
  rfl

/-- Decoding never reaches the case that it rules out. -/
theorem programListing_of (h : m.computer.memory.romLength ≤ Memory.capacity) :
    Bare.programListing m.computer.memory = .ok m.programListing := by
  have hdecode : (Listing.words m.computer.memory.program).mapM decode = .ok _ :=
    mapM_ok fun w _ => decode_ok w
  rw [Bare.programListing, program_ok _ h, ok_bind, hdecode]
  rfl

/-! ## Any call, and any history -/

variable {m}

theorem perform_ok (h : m.WellFormed) (call : Call) :
    (of m tone).perform request call = .ok (ofReply request tone (m.perform call)) := by
  cases call with
  | makeReady => exact makeReady_of m request tone
  | reset => exact reset_of m request tone
  | load rom => exact load_of m request tone rom
  | step => exact step_of request tone h
  | tick => exact tick_of m request tone
  | setKey key down => exact moveKey_of m request tone key down
  | takeFrame => exact congrArg Except.ok (takeFrame_of m request tone)
  | fetch => exact fetch_of m request tone
  | programListing =>
    have htext : Bare.programListing (of m tone).computer.memory = .ok m.programListing :=
      programListing_of m h.romLength_le
    rw [perform, htext]
    rfl

/-- All beeps of a history, in the order in which they are asked for. -/
def beepsOf (replies : List (Reply (Except Error ChipEight.Answer))) : List Byte :=
  replies.flatMap (·.beeps)

theorem requestAll_append (bs bs' : List Byte) :
    requestAll request (bs ++ bs') tone = requestAll request bs' (requestAll request bs tone) :=
  List.foldl_append

theorem performAll_ok (h : m.WellFormed) (calls : List Call) :
    (of m tone).performAll request calls =
      .ok ((m.performAll calls).map (·.value.map .of),
        of (m.after calls) (requestAll request (beepsOf (m.performAll calls)) tone)) := by
  induction calls generalizing m tone with
  | nil => rfl
  | cons call rest ih =>
    have hrest := ih (requestAll request (m.perform call).beeps tone)
      (ChipEight.Machine.perform_wellFormed h call)
    rw [performAll, perform_ok request tone h call, ok_bind]
    show (do
      let (answers, b) ← (of (m.perform call).machine
        (requestAll request (m.perform call).beeps tone)).performAll request rest
      pure ((m.perform call).value.map Answer.of :: answers, b)) = _
    rw [hrest, ok_bind, ← requestAll_append]
    rfl

theorem run_ok (config : Config) (entropy : Random.Key) (tone : T) (calls : List Call) :
    let start := ChipEight.Machine.create config entropy
    run request config entropy tone calls =
      .ok ((start.performAll calls).map (·.value.map .of),
        of (start.after calls) (requestAll request (beepsOf (start.performAll calls)) tone)) := by
  intro start
  have hstart : start.WellFormed := ChipEight.Machine.create_wellFormed config entropy
  rw [run, create_ok, ok_bind]
  exact performAll_ok request tone hstart calls

end Machine
end Bare
end ChipEight
