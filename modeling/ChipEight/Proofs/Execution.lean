import ChipEight.Execution
import ChipEight.Proofs.Decoding
import ChipEight.Proofs.Memory

/-!
# ChipEight.Proofs.Execution

What an instruction leaves alone.

* `Cpu.flag_eq_one_iff` — the byte of a flag.
* `Cpu.push_sp`, `Cpu.pop_sp` — where the stack pointer goes; it stays at most 16.
* `Computer.getElem_registersTo`, `read_fillRegisters` — V0 to VX as bytes, and bytes put in them.
* `Computer.execute_sp_stack` — only calls and returns touch the call stack.
* `Computer.execute_romLength` — no instruction touches the length of the ROM.
* `Computer.step_waiting`, `step_invalid`, `step_executed` — the three outcomes of a step;
  `step_cases` and `step_error_iff` tell which it was.
* `Computer.step_of_decode`, `step_of_encode` — what a step leaves, by the opcode that it finds.
-/

namespace ChipEight

theorem toNat_ne_zero {b : Byte} (h : b ≠ 0) : b.toNat ≠ 0 := BitVec.toNat_ne.mp h

/-- A byte other than 0 counts down without coming round. -/
theorem toNat_pred {b : Byte} (h : b ≠ 0) : (b - 1).toNat = b.toNat - 1 := by
  have hone : (1 : Byte).toNat = 1 := rfl
  have hne := toNat_ne_zero h
  have hlt := b.isLt
  rw [BitVec.toNat_sub, hone]
  omega

namespace Cpu

theorem flag_eq_zero_or_one (b : Bool) : flag b = 0 ∨ flag b = 1 := by
  cases b
  · exact .inl rfl
  · exact .inr rfl

theorem flag_eq_one_iff (b : Bool) : flag b = 1 ↔ b = true := by
  cases b <;> decide

theorem flag_or (a b : Bool) : flag a ||| flag b = flag (a || b) := by
  cases a <;> cases b <;> rfl

variable (c : Cpu)

@[simp] theorem setResult_sp (x : Register) (result : Byte × Option Bool) :
    (c.setResult x result).sp = c.sp := by
  obtain ⟨value, f | f⟩ := result <;> rfl

@[simp] theorem setResult_stack (x : Register) (result : Byte × Option Bool) :
    (c.setResult x result).stack = c.stack := by
  obtain ⟨value, f | f⟩ := result <;> rfl

@[simp] theorem skip_sp (condition : Bool) : (c.skip condition).sp = c.sp := by
  cases condition <;> rfl

@[simp] theorem skip_stack (condition : Bool) : (c.skip condition).stack = c.stack := by
  cases condition <;> rfl

theorem isFull_iff : c.isFull = true ↔ 16 ≤ c.sp.toNat := by
  rw [isFull, decide_eq_true_iff]

/-- A push writes behind at most 15 addresses, after the wrap of a full stack. -/
theorem push_sp (h : c.sp.toNat ≤ 16) (address : Word) :
    (c.push address).sp.toNat = c.sp.toNat % 16 + 1 := by
  have hone : (1 : Byte).toNat = 1 := rfl
  show ((if c.isFull then 0 else c.sp) + 1 : Byte).toNat = c.sp.toNat % 16 + 1
  by_cases hfull : c.isFull = true
  · have hle : 16 ≤ c.sp.toNat := c.isFull_iff.mp hfull
    have hzero : (0 + 1 : Byte).toNat = 1 := rfl
    rw [if_pos hfull, hzero]
    omega
  · have hlt : ¬ 16 ≤ c.sp.toNat := fun hle => hfull (c.isFull_iff.mpr hle)
    rw [if_neg hfull, BitVec.toNat_add, hone]
    omega

/-- A pop leaves at most 15 addresses, after the wrap of an empty stack. -/
theorem pop_sp (h : c.sp.toNat ≤ 16) : c.pop.sp.toNat = (c.sp.toNat + 15) % 16 := by
  show ((if c.sp = 0 then 16 else c.sp) - 1 : Byte).toNat = (c.sp.toNat + 15) % 16
  by_cases h0 : c.sp = 0
  · rw [if_pos h0, h0]
    rfl
  · have hne := toNat_ne_zero h0
    rw [if_neg h0, toNat_pred h0]
    omega

/-- The delay timer counts down and stops at 0. -/
theorem tick_delay : c.tick.1.delay.toNat = c.delay.toNat - 1 := by
  show (if c.delay = 0 then 0 else c.delay - 1 : Byte).toNat = c.delay.toNat - 1
  by_cases h0 : c.delay = 0
  · rw [if_pos h0, h0]
    rfl
  · rw [if_neg h0, toNat_pred h0]

end Cpu

/-- Whether an instruction works on the call stack. -/
def Instruction.usesStack : Instruction → Bool
  | .ret => true
  | .call _ => true
  | _ => false

namespace Computer

variable (c : Computer)

@[simp] theorem length_registersTo (x : Register) :
    (registersTo c.cpu x).length = x.val + 1 := by
  have := x.isLt
  rw [registersTo, List.length_take, Vector.length_toList]
  omega

theorem getElem_registersTo {x : Register} {k : Nat} (hk : k < (registersTo c.cpu x).length)
    (hlt : k < 16) : (registersTo c.cpu x)[k] = c.cpu.register ⟨k, hlt⟩ := by
  simp only [registersTo, List.getElem_take, Vector.getElem_toList]
  rfl

/-- A register takes the byte at its own distance from the first one, if the list goes that far. -/
theorem read_fillRegisters (v : Bank Byte) (first : Nat) (bytes : List Byte) (r : Register) :
    Bank.read (fillRegisters v first bytes) r =
      if first ≤ r.val then bytes[r.val - first]?.getD (v.read r) else v.read r := by
  induction bytes generalizing v first with
  | nil => simp [fillRegisters]
  | cons b rest ih =>
    have hset : Bank.read (v.setIfInBounds first b) r = if first = r.val then b else v.read r := by
      simp only [Bank.read, Vector.getElem_setIfInBounds]
    rw [fillRegisters, ih, hset]
    by_cases hbefore : first ≤ r.val
    · rw [if_pos hbefore]
      by_cases hfirst : first = r.val
      · have hnot : ¬ first + 1 ≤ r.val := by omega
        have hzero : r.val - first = 0 := by omega
        rw [if_neg hnot, if_pos hfirst, hzero]
        rfl
      · have hnext : first + 1 ≤ r.val := by omega
        have hplace : r.val - first = r.val - (first + 1) + 1 := by omega
        rw [if_pos hnext, if_neg hfirst, hplace, List.getElem?_cons_succ]
    · have hnot : ¬ first + 1 ≤ r.val := by omega
      have hne : ¬ first = r.val := by omega
      rw [if_neg hbefore, if_neg hnot, if_neg hne]

theorem execute_sp_stack {i : Instruction} (h : i.usesStack = false) :
    (c.execute i).cpu.sp = c.cpu.sp ∧ (c.execute i).cpu.stack = c.cpu.stack := by
  cases i with
  | ret => cases h
  | call target => cases h
  | skip condition => exact ⟨c.cpu.skip_sp _, c.cpu.skip_stack _⟩
  | arith op x y => exact ⟨c.cpu.setResult_sp x _, c.cpu.setResult_stack x _⟩
  | _ => exact ⟨rfl, rfl⟩

theorem execute_sp_le (h : c.cpu.sp.toNat ≤ 16) (i : Instruction) :
    (c.execute i).cpu.sp.toNat ≤ 16 := by
  cases hi : i.usesStack with
  | false =>
    rw [(c.execute_sp_stack hi).1]
    exact h
  | true =>
    cases i with
    | ret =>
      have hpop := c.cpu.pop_sp h
      show c.cpu.pop.sp.toNat ≤ 16
      omega
    | call target =>
      have hpush := c.cpu.push_sp h c.cpu.pc
      show (c.cpu.push c.cpu.pc).sp.toNat ≤ 16
      omega
    | _ => cases hi

theorem execute_romLength (i : Instruction) :
    (c.execute i).memory.romLength = c.memory.romLength := by
  cases i with
  | decimal x => exact Memory.writeRange_romLength _ _ _
  | store x => exact Memory.writeRange_romLength _ _ _
  | _ => rfl

/-! ## Steps -/

theorem step_waiting {x : Register} (h : c.cpu.awaiting = some x) :
    c.step = .ok (.waiting, c, []) := by
  rw [step, h]

theorem step_invalid {e : Error} (h : c.cpu.awaiting = none)
    (hd : Instruction.decode c.fetch = .error e) : c.step = .error e := by
  rw [step, h]
  simp only [hd]

theorem step_executed {i : Instruction} (h : c.cpu.awaiting = none)
    (hd : Instruction.decode c.fetch = .ok i) : c.step = .ok (.executed i, c.advance i) := by
  rw [step, h]
  simp only [hd]

/-- The computer with its pc behind the next opcode. -/
def pastOpcode : Computer := c.withCpu fun cpu => { cpu with pc := cpu.pc + 2 }

theorem step_of_decode {i : Instruction} (hready : c.cpu.awaiting = none)
    (hop : Instruction.decode c.fetch = .ok i) :
    ∃ log, c.step = .ok (.executed i, c.pastOpcode.execute i, log) :=
  ⟨(c.advance i).2, c.step_executed hready hop⟩

/-- A step on the opcode of an instruction that no other one shadows. -/
theorem step_of_encode {i : Instruction} (hready : c.cpu.awaiting = none)
    (hop : c.fetch = i.encode) (hclear : i ≠ .sys 0x0E0) (hret : i ≠ .sys 0x0EE) :
    ∃ log, c.step = .ok (.executed i, c.pastOpcode.execute i, log) :=
  c.step_of_decode hready (hop ▸ Instruction.decode_encode hclear hret)

/-- A step that succeeds has waited, or it has executed the instruction that it fetched. -/
theorem step_cases {s : Step} {c' : Computer} {log : List Record} (h : c.step = .ok (s, c', log)) :
    (s = .waiting ∧ c' = c) ∨
      ∃ i, c.cpu.awaiting = none ∧ Instruction.decode c.fetch = .ok i ∧ s = .executed i ∧
        c' = (c.advance i).1 := by
  cases ha : c.cpu.awaiting with
  | some x =>
    rw [c.step_waiting ha] at h
    cases h
    exact .inl ⟨rfl, rfl⟩
  | none =>
    cases hd : Instruction.decode c.fetch with
    | error e =>
      rw [c.step_invalid ha hd] at h
      cases h
    | ok i =>
      rw [c.step_executed ha hd] at h
      cases h
      exact .inr ⟨i, rfl, rfl, rfl, rfl⟩

theorem step_error_iff {e : Error} :
    c.step = .error e ↔ c.cpu.awaiting = none ∧ Instruction.decode c.fetch = .error e := by
  constructor
  · intro h
    cases ha : c.cpu.awaiting with
    | some x =>
      rw [c.step_waiting ha] at h
      cases h
    | none =>
      cases hd : Instruction.decode c.fetch with
      | error e' =>
        rw [c.step_invalid ha hd] at h
        cases h
        exact ⟨rfl, rfl⟩
      | ok i =>
        rw [c.step_executed ha hd] at h
        cases h
  · rintro ⟨ha, hd⟩
    exact c.step_invalid ha hd

theorem step_sp_le (h : c.cpu.sp.toNat ≤ 16) {s : Step} {c' : Computer} {log : List Record}
    (hs : c.step = .ok (s, c', log)) : c'.cpu.sp.toNat ≤ 16 := by
  obtain ⟨-, rfl⟩ | ⟨i, -, -, -, rfl⟩ := c.step_cases hs
  · exact h
  · exact execute_sp_le c.pastOpcode h i

theorem step_romLength {s : Step} {c' : Computer} {log : List Record}
    (hs : c.step = .ok (s, c', log)) : c'.memory.romLength = c.memory.romLength := by
  obtain ⟨-, rfl⟩ | ⟨i, -, -, -, rfl⟩ := c.step_cases hs
  · rfl
  · exact execute_romLength c.pastOpcode i

end Computer

end ChipEight
