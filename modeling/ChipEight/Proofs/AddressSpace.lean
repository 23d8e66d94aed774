import ChipEight.Proofs.Machine

/-!
# ChipEight.Proofs.AddressSpace

Nothing tells addresses apart that name the same cell. The pc, the index and the stack hold 16 bits,
and the upper four of them have no effect on anything that a host can see.

* `Word.Congruent`    — two addresses of one cell.
* `Machine.Congruent` — two machines that are alike but for such addresses.
* `Computer.Congruent.execute`, `Computer.Congruent.step` — every instruction keeps them so.
* `Machine.Congruent.perform`, `performAll` — every call and every history does, with the same
  answers and beeps.
* `congruent_unobservable` — the two together.
-/

namespace ChipEight

/-- Addresses that name the same cell. -/
def Word.Congruent (a b : Word) : Prop := a.toNat % 4096 = b.toNat % 4096

namespace Word

instance (a b : Word) : Decidable (Congruent a b) := inferInstanceAs (Decidable (_ = _))

theorem Congruent.refl (a : Word) : Congruent a a := rfl

theorem Congruent.add {a b : Word} (h : Congruent a b) (k : Word) : Congruent (a + k) (b + k) := by
  unfold Congruent at h ⊢
  rw [BitVec.toNat_add, BitVec.toNat_add]
  omega

end Word

namespace Memory

variable (m : Memory) {a b : Word}

theorem read_congr (h : Word.Congruent a b) : m.read a = m.read b := by
  simp only [read, cell_eq_iff.mpr h]

theorem write_congr (h : Word.Congruent a b) (value : Byte) :
    m.write a value = m.write b value := by
  simp only [write, cell_eq_iff.mpr h]

theorem readWord_congr (h : Word.Congruent a b) : m.readWord a = m.readWord b := by
  rw [readWord, readWord, m.read_congr h, m.read_congr (h.add 1)]

theorem readRange_congr (h : Word.Congruent a b) (length : Nat) :
    m.readRange a length = m.readRange b length := by
  unfold readRange
  apply List.map_congr_left
  intro k _
  exact m.read_congr (h.add (BitVec.ofNat 16 k))

theorem writeRange_congr (h : Word.Congruent a b) (bytes : List Byte) :
    m.writeRange a bytes = m.writeRange b bytes := by
  induction bytes generalizing m a b with
  | nil => rfl
  | cons byte rest ih => rw [writeRange, writeRange, m.write_congr h, ih _ (h.add 1)]

end Memory

/-! ## Processors -/

structure Cpu.Congruent (c d : Cpu) : Prop where
  v : c.v = d.v
  index : Word.Congruent c.index d.index
  pc : Word.Congruent c.pc d.pc
  sp : c.sp = d.sp
  stack : ∀ k, Word.Congruent (c.stack.read k) (d.stack.read k)
  delay : c.delay = d.delay
  sound : c.sound = d.sound
  awaiting : c.awaiting = d.awaiting
  random : c.random = d.random

namespace Cpu
namespace Congruent

variable {c d : Cpu} (h : Congruent c d)

theorem refl (c : Cpu) : Congruent c c :=
  ⟨rfl, rfl, rfl, rfl, fun _ => rfl, rfl, rfl, rfl, rfl⟩

include h

theorem register (x : Register) : c.register x = d.register x := by
  rw [Cpu.register, Cpu.register, h.v]

theorem setRegister (x : Register) (value : Byte) :
    Congruent (c.setRegister x value) (d.setRegister x value) :=
  { h with v := congrArg (Bank.write · x value) h.v }

theorem setResult (x : Register) (result : Byte × Option Bool) :
    Congruent (c.setResult x result) (d.setResult x result) := by
  obtain ⟨value, f | f⟩ := result
  · exact h.setRegister x value
  · exact (h.setRegister x value).setRegister 0xF (flag f)

theorem skip (condition : Bool) : Congruent (c.skip condition) (d.skip condition) := by
  cases condition with
  | false => exact h
  | true => exact { h with pc := h.pc.add 2 }

theorem passRange (x : Register) :
    Congruent (Computer.passRange x c) (Computer.passRange x d) :=
  { h with index := h.index.add (BitVec.ofNat 16 (x.val + 1)) }

theorem isFull : c.isFull = d.isFull := by
  rw [Cpu.isFull, Cpu.isFull, h.sp]

/-- Congruent addresses go to the same slot. -/
theorem push {a b : Word} (hab : Word.Congruent a b) : Congruent (c.push a) (d.push b) := by
  have hslot : (if c.isFull then 0 else c.sp) = if d.isFull then 0 else d.sp := by
    rw [h.isFull, h.sp]
  refine { h with sp := congrArg (· + 1) hslot, stack := ?_ }
  intro k
  show Word.Congruent
    ((c.stack.write (slot (if c.isFull then 0 else c.sp)) a).read k)
    ((d.stack.write (slot (if d.isFull then 0 else d.sp)) b).read k)
  rw [hslot, Bank.read_write, Bank.read_write]
  by_cases hk : slot (if d.isFull then 0 else d.sp) = k
  · rw [if_pos hk, if_pos hk]
    exact hab
  · rw [if_neg hk, if_neg hk]
    exact h.stack k

theorem pop : Congruent c.pop d.pop := by
  have hsp : c.pop.sp = d.pop.sp := by
    show (if c.sp = 0 then 16 else c.sp) - 1 = (if d.sp = 0 then 16 else d.sp) - 1
    rw [h.sp]
  refine { h with sp := hsp, pc := ?_ }
  show Word.Congruent (c.stack.read (slot c.pop.sp)) (d.stack.read (slot d.pop.sp))
  rw [hsp]
  exact h.stack _

theorem receiveKey (key : Byte) : Congruent (c.receiveKey key).1 (d.receiveKey key).1 := by
  unfold Cpu.receiveKey
  rw [← h.awaiting]
  cases c.awaiting with
  | none => exact h
  | some x => exact { h.setRegister x key with awaiting := rfl }

theorem tick : Congruent c.tick.1 d.tick.1 ∧ c.tick.2 = d.tick.2 := by
  unfold Cpu.tick
  rw [← h.delay, ← h.sound]
  exact ⟨{ h with delay := rfl, sound := rfl }, rfl⟩

end Congruent
end Cpu

/-! ## Computers -/

structure Computer.Congruent (c d : Computer) : Prop where
  cpu : c.cpu.Congruent d.cpu
  memory : c.memory = d.memory
  screen : c.screen = d.screen
  keypad : c.keypad = d.keypad

namespace Computer
namespace Congruent

variable {c d : Computer} (h : Congruent c d)

include h

theorem withCpu {f g : Cpu → Cpu} (hfg : (f c.cpu).Congruent (g d.cpu)) :
    Congruent (c.withCpu f) (d.withCpu g) :=
  ⟨hfg, h.memory, h.screen, h.keypad⟩

theorem fetch : c.fetch = d.fetch := by
  rw [Computer.fetch, Computer.fetch, h.memory, d.memory.readWord_congr h.cpu.pc]

theorem holds (condition : Condition) : condition.holds c = condition.holds d := by
  cases condition <;> simp only [Condition.holds, keyDown, h.cpu.register, h.keypad]

theorem draw (x y : Register) (rows : Nat) : Congruent (c.draw x y rows) (d.draw x y rows) := by
  have hsprite : c.memory.readRange c.cpu.index rows = d.memory.readRange d.cpu.index rows := by
    rw [h.memory, d.memory.readRange_congr h.cpu.index]
  have hdraw :
      c.screen.draw (c.memory.readRange c.cpu.index rows) (c.cpu.register x) (c.cpu.register y) =
        d.screen.draw (d.memory.readRange d.cpu.index rows) (d.cpu.register x)
          (d.cpu.register y) := by
    rw [hsprite, h.screen, h.cpu.register x, h.cpu.register y]
  unfold Computer.draw
  simp only [hdraw]
  exact ⟨h.cpu.setRegister 0xF _, h.memory, rfl, h.keypad⟩

/-- Memory that an instruction writes from the index on. -/
theorem writeRange {bytes bytes' : List Byte} (hb : bytes = bytes') :
    c.memory.writeRange c.cpu.index bytes = d.memory.writeRange d.cpu.index bytes' := by
  rw [h.memory, hb, d.memory.writeRange_congr h.cpu.index]

theorem execute (i : Instruction) : Congruent (c.execute i) (d.execute i) := by
  cases i with
  | sys routine => exact h
  | clear => exact ⟨h.cpu, h.memory, rfl, h.keypad⟩
  | ret =>
    rw [Computer.execute, Computer.execute]
    exact h.withCpu h.cpu.pop
  | jump target =>
    rw [Computer.execute, Computer.execute]
    exact h.withCpu { h.cpu with pc := rfl }
  | call target =>
    have hpush := h.cpu.push h.cpu.pc
    rw [Computer.execute, Computer.execute]
    exact h.withCpu { hpush with pc := rfl }
  | skip condition =>
    rw [Computer.execute, Computer.execute]
    refine h.withCpu ?_
    rw [h.holds condition]
    exact h.cpu.skip _
  | setByte x nn =>
    rw [Computer.execute, Computer.execute]
    exact h.withCpu (h.cpu.setRegister x nn)
  | addByte x nn =>
    rw [Computer.execute, Computer.execute]
    refine h.withCpu ?_
    rw [h.cpu.register x]
    exact h.cpu.setRegister x _
  | arith op x y =>
    rw [Computer.execute, Computer.execute]
    refine h.withCpu ?_
    rw [h.cpu.register x, h.cpu.register y]
    exact h.cpu.setResult x _
  | setIndex target =>
    rw [Computer.execute, Computer.execute]
    exact h.withCpu { h.cpu with index := rfl }
  | jumpPlus target =>
    rw [Computer.execute, Computer.execute]
    refine h.withCpu ?_
    rw [h.cpu.register 0]
    exact { h.cpu with pc := rfl }
  | random x mask =>
    rw [Computer.execute, Computer.execute]
    refine h.withCpu ?_
    rw [h.cpu.random]
    exact { h.cpu.setRegister x _ with random := rfl }
  | draw x y rows => exact h.draw x y rows.val
  | readDelay x =>
    rw [Computer.execute, Computer.execute]
    refine h.withCpu ?_
    rw [h.cpu.delay]
    exact h.cpu.setRegister x _
  | awaitKey x =>
    rw [Computer.execute, Computer.execute]
    exact h.withCpu { h.cpu with awaiting := rfl }
  | setDelay x =>
    rw [Computer.execute, Computer.execute]
    exact h.withCpu { h.cpu with delay := h.cpu.register x }
  | setSound x =>
    rw [Computer.execute, Computer.execute]
    exact h.withCpu { h.cpu with sound := h.cpu.register x }
  | addIndex x =>
    rw [Computer.execute, Computer.execute]
    refine h.withCpu ?_
    rw [h.cpu.register x]
    exact { h.cpu with index := h.cpu.index.add _ }
  | glyph x =>
    rw [Computer.execute, Computer.execute]
    refine h.withCpu ?_
    rw [h.cpu.register x]
    exact { h.cpu with index := rfl }
  | decimal x =>
    have hdigits := congrArg decimalDigits (h.cpu.register x)
    exact ⟨h.cpu, h.writeRange hdigits, h.screen, h.keypad⟩
  | store x =>
    have hregisters : registersTo c.cpu x = registersTo d.cpu x := by
      rw [registersTo, registersTo, h.cpu.v]
    exact ⟨h.cpu.passRange x, h.writeRange hregisters, h.screen, h.keypad⟩
  | restore x =>
    have hbytes : c.memory.readRange c.cpu.index (x.val + 1) =
        d.memory.readRange d.cpu.index (x.val + 1) := by
      rw [h.memory, d.memory.readRange_congr h.cpu.index]
    rw [Computer.execute, Computer.execute]
    refine h.withCpu ?_
    rw [hbytes, h.cpu.v]
    have hfilled : Cpu.Congruent
        { c.cpu with v := fillRegisters d.cpu.v 0 (d.memory.readRange d.cpu.index (x.val + 1)) }
        { d.cpu with v := fillRegisters d.cpu.v 0 (d.memory.readRange d.cpu.index (x.val + 1)) } :=
      { h.cpu with v := rfl }
    exact hfilled.passRange x

/-- Congruent computers step alike; only the log gets to read whole addresses. -/
theorem step :
    (∃ e, c.step = .error e ∧ d.step = .error e) ∨
      ∃ s c' d' log log', c.step = .ok (s, c', log) ∧ d.step = .ok (s, d', log') ∧
        Congruent c' d' := by
  cases ha : c.cpu.awaiting with
  | some x =>
    have hd : d.cpu.awaiting = some x := h.cpu.awaiting.symm.trans ha
    exact .inr ⟨.waiting, c, d, [], [], c.step_waiting ha, d.step_waiting hd, h⟩
  | none =>
    have hd : d.cpu.awaiting = none := h.cpu.awaiting.symm.trans ha
    cases hi : Instruction.decode c.fetch with
    | error e => exact .inl ⟨e, c.step_invalid ha hi, d.step_invalid hd (h.fetch ▸ hi)⟩
    | ok i =>
      have hmoved : Congruent c.pastOpcode d.pastOpcode :=
        h.withCpu { h.cpu with pc := h.cpu.pc.add 2 }
      exact .inr ⟨.executed i, _, _, _, _, c.step_executed ha hi,
        d.step_executed hd (h.fetch ▸ hi), hmoved.execute i⟩

end Congruent
end Computer

/-! ## Machines -/

/-- Alike, but for the upper bits of the pc, the index and the addresses on the stack. -/
structure Machine.Congruent (a b : Machine) : Prop where
  config : a.config = b.config
  ready : a.ready = b.ready
  computer : a.computer.Congruent b.computer
  sinceTick : a.sinceTick = b.sinceTick
  sp_le : a.computer.cpu.sp.toNat ≤ 16

namespace Machine

/-- Replies that a host cannot tell apart, on machines that stay alike. -/
def Alike (r s : Reply (Except Error Answer)) : Prop :=
  r.value = s.value ∧ r.beeps = s.beeps ∧ r.machine.Congruent s.machine

namespace Congruent

variable {a b : Machine}

theorem tickTimers (h : Congruent a b) :
    Congruent a.tickTimers.1 b.tickTimers.1 ∧ a.tickTimers.2.1 = b.tickTimers.2.1 := by
  obtain ⟨hcpu, hbeep⟩ := h.computer.cpu.tick
  refine ⟨⟨h.config, h.ready, ?_, h.sinceTick, h.sp_le⟩, congrArg Option.toList hbeep⟩
  exact ⟨hcpu, h.computer.memory, h.computer.screen, h.computer.keypad⟩

theorem countStep (h : Congruent a b) :
    Congruent a.countStep.1 b.countStep.1 ∧ a.countStep.2.1 = b.countStep.2.1 := by
  have hsteps : b.config.stepsPerTick = a.config.stepsPerTick :=
    congrArg Config.stepsPerTick h.config.symm
  cases ha : a.config.stepsPerTick with
  | none =>
    rw [a.countStep_host ha, b.countStep_host (hsteps.trans ha)]
    exact ⟨h, rfl⟩
  | some n =>
    by_cases hn : n ≤ a.sinceTick + 1
    · have hb : n ≤ b.sinceTick + 1 := h.sinceTick ▸ hn
      have hzero : Congruent { a with sinceTick := 0 } { b with sinceTick := 0 } :=
        { h with sinceTick := rfl }
      rw [a.countStep_due ha hn, b.countStep_due (hsteps.trans ha) hb]
      exact hzero.tickTimers
    · have hb : ¬ n ≤ b.sinceTick + 1 := h.sinceTick ▸ hn
      have hcounted : a.sinceTick + 1 = b.sinceTick + 1 := congrArg (· + 1) h.sinceTick
      rw [a.countStep_early ha hn, b.countStep_early (hsteps.trans ha) hb]
      exact ⟨⟨h.config, h.ready, h.computer, hcounted, h.sp_le⟩, rfl⟩

/-- Both start over alike: their random streams are the same. -/
theorem resetComponents (h : Congruent a b) : a.resetComponents = b.resetComponents := by
  have hcpu : a.computer.cpu.reset = b.computer.cpu.reset :=
    congrArg Cpu.initial h.computer.cpu.random
  unfold Machine.resetComponents
  rw [hcpu, h.config, h.ready]
  rfl

theorem ite (h : Congruent a b) {r r' s s' : Reply (Except Error Answer)}
    (hready : Alike r s) (hnot : Alike r' s') :
    Alike (if a.ready then r else r') (if b.ready then s else s') := by
  by_cases hr : a.ready = true
  · have hb : b.ready = true := h.ready ▸ hr
    rw [if_pos hr, if_pos hb]
    exact hready
  · have hb : ¬ b.ready = true := h.ready ▸ hr
    rw [if_neg hr, if_neg hb]
    exact hnot

theorem refused (h : Congruent a b) (e : Error) :
    Alike { value := .error e, machine := a } { value := .error e, machine := b } :=
  ⟨rfl, rfl, h⟩

theorem perform_step (h : Congruent a b) : Alike (a.perform .step) (b.perform .step) := by
  rw [a.perform_step, b.perform_step]
  refine h.ite ?_ (h.refused .notReady)
  obtain ⟨e, ha, hb⟩ | ⟨s, c, d, log, log', ha, hb, hcd⟩ := h.computer.step
  · rw [ha, hb]
    exact h.refused e
  · have hsp := a.computer.step_sp_le h.sp_le ha
    have hstepped : Congruent { a with computer := c } { b with computer := d } :=
      ⟨h.config, h.ready, hcd, h.sinceTick, hsp⟩
    rw [ha, hb]
    exact ⟨rfl, hstepped.countStep.2, hstepped.countStep.1⟩

theorem keyEdge (h : Congruent a b) (key : Byte) (edge : Option KeyEdge) :
    (keyEdgeCpu a.computer.cpu key edge).1.Congruent (keyEdgeCpu b.computer.cpu key edge).1 := by
  cases edge with
  | none => exact h.computer.cpu
  | some edge =>
    cases edge with
    | released digit => exact h.computer.cpu
    | pressed digit => exact h.computer.cpu.receiveKey key

theorem refl (hsp : a.computer.cpu.sp.toNat ≤ 16) : Congruent a a :=
  ⟨rfl, rfl, ⟨.refl _, rfl, rfl, rfl⟩, rfl, hsp⟩

/-- One call. -/
theorem perform (h : Congruent a b) (call : Call) : Alike (a.perform call) (b.perform call) := by
  cases call with
  | makeReady =>
    rw [a.perform_makeReady, b.perform_makeReady, ← h.resetComponents]
    exact h.ite (h.refused .alreadyReady) ⟨rfl, rfl, refl (Nat.zero_le 16)⟩
  | reset =>
    have hmachine : (a.perform .reset).machine = (b.perform .reset).machine :=
      congrArg (fun m : Machine => { m with ready := false }) h.resetComponents
    refine ⟨rfl, rfl, ?_⟩
    rw [← hmachine]
    exact refl (Nat.zero_le 16)
  | load rom =>
    rw [a.perform_load, b.perform_load, ← h.resetComponents]
    refine h.ite ?_ (h.refused .notReady)
    by_cases hrom : Memory.capacity < rom.length
    · rw [if_pos hrom, if_pos hrom]
      exact h.refused _
    · rw [if_neg hrom, if_neg hrom]
      exact ⟨rfl, rfl, refl (Nat.zero_le 16)⟩
  | step => exact h.perform_step
  | tick =>
    rw [a.perform_tick, b.perform_tick]
    exact h.ite ⟨rfl, h.tickTimers.2, h.tickTimers.1⟩ (h.refused .notReady)
  | setKey key down =>
    rw [a.perform_setKey, b.perform_setKey, ← h.computer.keypad]
    cases a.computer.keypad.set key down with
    | error e => exact h.refused e
    | ok r =>
      obtain ⟨keypad, edge⟩ := r
      have hcpu := h.keyEdge key edge
      obtain ⟨v, awaiting, hframe⟩ := keyEdgeCpu_frame a.computer.cpu key edge
      have hsp : (keyEdgeCpu a.computer.cpu key edge).1.sp.toNat ≤ 16 := by
        rw [hframe]
        exact h.sp_le
      refine ⟨rfl, rfl, h.config, h.ready, ?_, h.sinceTick, hsp⟩
      exact ⟨hcpu, h.computer.memory, h.computer.screen, rfl⟩
  | takeFrame =>
    have htake := congrArg Screen.take h.computer.screen
    have hframe : (a.perform .takeFrame).value = (b.perform .takeFrame).value :=
      congrArg (fun p => Except.ok (Answer.frame p)) (congrArg Prod.snd htake)
    refine ⟨hframe, rfl, h.config, h.ready, ?_, h.sinceTick, h.sp_le⟩
    exact ⟨h.computer.cpu, h.computer.memory, congrArg Prod.fst htake, h.computer.keypad⟩
  | fetch =>
    rw [a.perform_fetch, b.perform_fetch, ← h.computer.fetch]
    exact h.ite ⟨rfl, rfl, h⟩ (h.refused .notReady)
  | programListing =>
    have hlisting : a.programListing = b.programListing :=
      congrArg Memory.programListing h.computer.memory
    exact ⟨congrArg (fun text => Except.ok (Answer.listing text)) hlisting, rfl, h⟩

/-- Any number of calls. -/
theorem performAll (h : Congruent a b) (calls : List Call) :
    (a.performAll calls).map (fun r => (r.value, r.beeps)) =
        (b.performAll calls).map (fun r => (r.value, r.beeps)) ∧
      Congruent (a.after calls) (b.after calls) := by
  induction calls generalizing a b with
  | nil => exact ⟨rfl, h⟩
  | cons call rest ih =>
    obtain ⟨hvalue, hbeeps, hmachine⟩ := h.perform call
    obtain ⟨hreplies, hafter⟩ := ih hmachine
    refine ⟨?_, hafter⟩
    rw [Machine.performAll, Machine.performAll, List.map_cons, List.map_cons, hvalue, hbeeps,
      hreplies]

end Congruent

/-- Machines that are alike but for the upper four bits of their addresses answer every call and
every history of calls alike, ask for the same beeps, and stay alike. -/
theorem congruent_unobservable {a b : Machine} (h : a.Congruent b) :
    (∀ call,
      (a.perform call).value = (b.perform call).value ∧
        (a.perform call).beeps = (b.perform call).beeps ∧
        (a.perform call).machine.Congruent (b.perform call).machine) ∧
    ∀ calls,
      (a.performAll calls).map (fun r => (r.value, r.beeps)) =
          (b.performAll calls).map (fun r => (r.value, r.beeps)) ∧
        (a.after calls).Congruent (b.after calls) :=
  ⟨h.perform, h.performAll⟩

/-- Two machines that differ in the pc, the index and a stack slot, above the lower twelve bits. -/
theorem congruent_unobservable_apart :
    ∃ a b : Machine,
      a.computer.cpu.pc = 0x0200 ∧ b.computer.cpu.pc = 0xF200 ∧
      a.computer.cpu.index = 0x0000 ∧ b.computer.cpu.index = 0x5000 ∧
      a.computer.cpu.stack.read 3 = 0x0000 ∧ b.computer.cpu.stack.read 3 = 0x1000 ∧
      ∀ calls,
        (a.performAll calls).map (fun r => (r.value, r.beeps)) =
          (b.performAll calls).map (fun r => (r.value, r.beeps)) := by
  let a := { create {} (.ofSeed 0) with ready := true }
  let b :=
    { a with
      computer :=
        { a.computer with
          cpu :=
            { a.computer.cpu with
              pc := 0xF200
              index := 0x5000
              stack := a.computer.cpu.stack.write 3 0x1000 } } }
  have hstack : ∀ k,
      Word.Congruent (a.computer.cpu.stack.read k) (b.computer.cpu.stack.read k) := by
    decide
  have hcpu : a.computer.cpu.Congruent b.computer.cpu :=
    ⟨rfl, by decide, by decide, rfl, hstack, rfl, rfl, rfl, rfl⟩
  have h : a.Congruent b := ⟨rfl, rfl, ⟨hcpu, rfl, rfl, rfl⟩, rfl, by decide⟩
  exact ⟨a, b, rfl, rfl, rfl, rfl, rfl, rfl, fun calls => ((congruent_unobservable h).2 calls).1⟩

end Machine
end ChipEight
