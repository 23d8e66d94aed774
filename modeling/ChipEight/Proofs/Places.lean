import ChipEight.Proofs.CallStack

/-!
# ChipEight.Proofs.Places

Where a computer keeps what it works on, and which of these places an instruction may write.

* `Place`, `Computer.content`, `Computer.put` — the places, all but the pc; what a computer has
  there, and the computer with something else there.
* `Computer.content_put_of_ne`, `eq_of_content` — a place that is written leaves the others alone,
  and there is nothing besides the places and the pc.
* `Instruction.writes` — the places that an instruction may write.
* `Computer.content_execute` — it leaves all others alone.
* `Computer.nextPc`, `pc_execute` — where it leaves the pc.
* `Condition.opposite` — the skips in pairs, of which one passes over the next opcode and the other
  does not.
* `step_footprint` — all of it, for a step.
-/

namespace ChipEight

/-- Where a computer keeps something. The pc is none of these, since every step moves it. -/
inductive Place where
  | cell (k : Fin 4096)
  | romLength
  | screen
  | keypad
  | register (x : Register)
  | slot (k : Fin 16)
  | sp
  | index
  | delay
  | sound
  | awaiting
  | random
  deriving DecidableEq

namespace Place

/-- What there is room for at a place. -/
def Content : Place → Type
  | .cell _ | .register _ | .sp | .delay | .sound => Byte
  | .slot _ | .index => Word
  | .romLength => Nat
  | .screen => Screen
  | .keypad => Keypad
  | .awaiting => Option Register
  | .random => Random

/-- Cell `k`, counted round the end of memory. -/
def cellAt (k : Nat) : Place := .cell ⟨k % 4096, Memory.mod_size_lt k⟩

/-- The `n` cells from an address on. -/
def cells (a : Word) (n : Nat) : List Place := (List.range n).map fun k => cellAt (a.toNat + k)

def registersTo (x : Register) : List Place :=
  (List.range (x.val + 1)).map fun k => .register (Fin.ofNat 16 k)

theorem cellAt_eq_iff {j k : Nat} : cellAt j = cellAt k ↔ j % 4096 = k % 4096 := by
  simp [cellAt]

theorem cell_eq_cellAt (k : Fin 4096) : cell k = cellAt k.val :=
  congrArg cell (Fin.ext (Nat.mod_eq_of_lt k.isLt).symm)

theorem cellAt_mem_cells {a : Word} {j n : Nat} :
    cellAt j ∈ cells a n ↔ ∃ k < n, j % 4096 = (a.toNat + k) % 4096 := by
  simp only [cells, List.mem_map, List.mem_range, cellAt_eq_iff, eq_comm]

theorem register_mem_registersTo {x r : Register} :
    .register r ∈ registersTo x ↔ r.val ≤ x.val := by
  simp only [registersTo, List.mem_map, List.mem_range, Place.register.injEq, Fin.ext_iff,
    Fin.val_ofNat]
  constructor
  · rintro ⟨k, hk, hr⟩
    omega
  · intro hr
    exact ⟨r.val, by omega, by omega⟩

end Place

namespace Computer

variable (c : Computer)

def content : (p : Place) → p.Content
  | .cell k => c.memory.cells.get k
  | .romLength => c.memory.romLength
  | .screen => c.screen
  | .keypad => c.keypad
  | .register x => c.cpu.register x
  | .slot k => c.cpu.stack.read k
  | .sp => c.cpu.sp
  | .index => c.cpu.index
  | .delay => c.cpu.delay
  | .sound => c.cpu.sound
  | .awaiting => c.cpu.awaiting
  | .random => c.cpu.random

def put : (p : Place) → p.Content → Computer
  | .cell k, value =>
    { c with memory := { c.memory with cells := c.memory.cells.set k.val value k.isLt } }
  | .romLength, romLength => { c with memory := { c.memory with romLength } }
  | .screen, screen => { c with screen }
  | .keypad, keypad => { c with keypad }
  | .register x, value => c.withCpu (·.setRegister x value)
  | .slot k, address => c.withCpu fun cpu => { cpu with stack := cpu.stack.write k address }
  | .sp, sp => c.withCpu ({ · with sp })
  | .index, index => c.withCpu ({ · with index })
  | .delay, delay => c.withCpu ({ · with delay })
  | .sound, sound => c.withCpu ({ · with sound })
  | .awaiting, awaiting => c.withCpu ({ · with awaiting })
  | .random, random => c.withCpu ({ · with random })

theorem content_put_of_ne {p q : Place} (h : q ≠ p) (value : p.Content) :
    (c.put p value).content q = c.content q := by
  cases p with
  | cell k =>
    cases q with
    | cell j =>
      have hne : k.val ≠ j.val := fun hval => h (congrArg Place.cell (Fin.ext hval.symm))
      exact Vector.getElem_set_ne k.isLt j.isLt hne
    | _ => rfl
  | register x =>
    cases q with
    | register r =>
      have hne : x ≠ r := fun hx => h (congrArg Place.register hx.symm)
      exact (c.cpu.v.read_write x r value).trans (if_neg hne)
    | _ => rfl
  | slot k =>
    cases q with
    | slot j =>
      have hne : k ≠ j := fun hk => h (congrArg Place.slot hk.symm)
      exact (c.cpu.stack.read_write k j value).trans (if_neg hne)
    | _ => rfl
  | _ =>
    cases q <;> first
      | rfl
      | exact absurd rfl h

theorem content_put_put_of_ne {p q r : Place} (hq : p ≠ q) (hr : p ≠ r) (first : q.Content)
    (second : r.Content) : ((c.put q first).put r second).content p = c.content p :=
  (content_put_of_ne _ hr second).trans (c.content_put_of_ne hq first)

/-- The pc is no place. -/
theorem content_withPc (pc : Word) (p : Place) :
    (c.withCpu ({ · with pc })).content p = c.content p := by
  cases p <;> rfl

theorem memory_eq_of_content {c d : Computer}
    (hcell : ∀ k, c.content (.cell k) = d.content (.cell k))
    (hlength : c.content .romLength = d.content .romLength) : c.memory = d.memory := by
  have hcells : c.memory.cells = d.memory.cells := Vector.ext fun k hk => hcell ⟨k, hk⟩
  exact (Memory.mk.injEq ..).mpr ⟨hcells, hlength⟩

/-- Besides the places and the pc there is nothing. -/
theorem eq_of_content {c d : Computer} (h : ∀ p, c.content p = d.content p)
    (hpc : c.cpu.pc = d.cpu.pc) : c = d := by
  have hv : c.cpu.v = d.cpu.v := Vector.ext fun k hk => h (.register ⟨k, hk⟩)
  have hstack : c.cpu.stack = d.cpu.stack := Vector.ext fun k hk => h (.slot ⟨k, hk⟩)
  have hcpu : c.cpu = d.cpu :=
    (Cpu.mk.injEq ..).mpr
      ⟨hv, h .index, hpc, h .sp, hstack, h .delay, h .sound, h .awaiting, h .random⟩
  have hmemory : c.memory = d.memory := memory_eq_of_content (fun k => h (.cell k)) (h .romLength)
  exact (Computer.mk.injEq ..).mpr ⟨hcpu, hmemory, h .screen, h .keypad⟩

end Computer

/-! ## Instructions -/

/-- The places that an instruction may write, as it finds the processor. -/
def Instruction.writes (cpu : Cpu) : Instruction → List Place
  | .sys _ | .jump _ | .jumpPlus _ | .skip _ => []
  | .clear => [.screen]
  | .ret => [.sp]
  | .call _ => [.sp, .slot (Fin.ofNat 16 cpu.sp.toNat)]
  | .setByte x _ | .addByte x _ | .readDelay x => [.register x]
  | .arith .copy x _ | .arith .or x _ | .arith .and x _ | .arith .xor x _ => [.register x]
  | .arith _ x _ => [.register x, .register 0xF]
  | .setIndex _ | .addIndex _ | .glyph _ => [.index]
  | .random x _ => [.register x, .random]
  | .draw _ _ _ => [.screen, .register 0xF]
  | .awaitKey _ => [.awaiting]
  | .setDelay _ => [.delay]
  | .setSound _ => [.sound]
  | .decimal _ => Place.cells cpu.index 3
  | .store x => .index :: Place.cells cpu.index (x.val + 1)
  | .restore x => .index :: Place.registersTo x

namespace Condition

def Met (c : Computer) : Condition → Prop
  | .isByte x nn => c.cpu.register x = nn
  | .isNotByte x nn => c.cpu.register x ≠ nn
  | .equal x y => c.cpu.register x = c.cpu.register y
  | .different x y => c.cpu.register x ≠ c.cpu.register y
  | .keyDown x => c.keypad.keys.read (nibble 0 (c.cpu.register x).toNat) = true
  | .keyUp x => c.keypad.keys.read (nibble 0 (c.cpu.register x).toNat) ≠ true

instance (c : Computer) : (condition : Condition) → Decidable (condition.Met c)
  | .isByte _ _ | .equal _ _ | .keyDown _ => inferInstanceAs (Decidable (_ = _))
  | .isNotByte _ _ | .different _ _ | .keyUp _ => inferInstanceAs (Decidable (_ ≠ _))

/-- 3XNN and 4XNN, 5XY0 and 9XY0, EX9E and EXA1. -/
def opposite : Condition → Condition
  | .isByte x nn => .isNotByte x nn
  | .isNotByte x nn => .isByte x nn
  | .equal x y => .different x y
  | .different x y => .equal x y
  | .keyDown x => .keyUp x
  | .keyUp x => .keyDown x

theorem met_opposite (condition : Condition) (c : Computer) :
    condition.opposite.Met c ↔ ¬ condition.Met c := by
  cases condition <;> simp [opposite, Met]

end Condition

namespace Computer

variable (c : Computer)

theorem keyDown_eq (x : Register) :
    c.keyDown x = c.keypad.keys.read (nibble 0 (c.cpu.register x).toNat) := by
  have hlow : (c.cpu.register x &&& 0xF).toNat = (nibble 0 (c.cpu.register x).toNat).val := by
    have hmask : (0xF : Byte).toNat = 2 ^ 4 - 1 := rfl
    rw [BitVec.toNat_and, hmask, Nat.and_two_pow_sub_one_eq_mod, nibble, Fin.val_ofNat,
      Nat.mul_zero, Nat.shiftRight_zero]
  have hlt : (nibble 0 (c.cpu.register x).toNat).val < 16 := Fin.isLt _
  rw [keyDown, Keypad.isDown, hlow, Vector.getElem?_eq_getElem hlt]
  rfl

theorem holds_iff (condition : Condition) : condition.holds c = true ↔ condition.Met c := by
  cases condition <;> simp [Condition.holds, Condition.Met, keyDown_eq]

/-- Where an instruction leaves the pc. -/
def nextPc : Instruction → Nat
  | .jump target | .call target => target.toNat
  | .jumpPlus target => target.toNat + (c.cpu.register 0).toNat
  | .ret => (c.cpu.stack.read (Fin.ofNat 16 (c.cpu.sp.toNat + 15))).toNat
  | .skip condition => (c.cpu.pc.toNat + if condition.Met c then 4 else 2) % 65536
  | _ => (c.cpu.pc.toNat + 2) % 65536

theorem nextPc_skip (condition : Condition) :
    c.nextPc (.skip condition) =
      (c.cpu.pc.toNat + if condition.Met c then 4 else 2) % 65536 := rfl

theorem content_setResult {p : Place} {x : Register} {result : Byte × Option Bool}
    (hx : p ≠ .register x) (hflag : result.2.isSome = true → p ≠ .register 0xF) :
    (c.withCpu (·.setResult x result)).content p = c.content p := by
  obtain ⟨value, f | f⟩ := result
  · exact c.content_put_of_ne hx value
  · exact c.content_put_put_of_ne hx (hflag rfl) value (Cpu.flag f)

theorem content_cellAt (k : Nat) : c.content (.cellAt k) = c.memory.cellAt k := rfl

theorem content_writeRange {p : Place} {a : Word} {bytes : List Byte} (hfits : bytes.length ≤ 4096)
    (h : p ∉ Place.cells a bytes.length) :
    { c with memory := c.memory.writeRange a bytes }.content p = c.content p := by
  cases p with
  | cell k =>
    rw [Place.cell_eq_cellAt, Place.cellAt_mem_cells] at h
    rw [Place.cell_eq_cellAt]
    exact Memory.cellAt_writeRange_of_ne _ _ hfits fun j hj heq => h ⟨j, hj, heq⟩
  | romLength => exact Memory.writeRange_romLength _ _ _
  | _ => rfl

theorem content_fillRegisters {p : Place} {x : Register} {bytes : List Byte}
    (hfits : bytes.length = x.val + 1) (h : p ∉ Place.registersTo x) :
    (c.withCpu fun cpu => { cpu with v := fillRegisters cpu.v 0 bytes }).content p =
      c.content p := by
  cases p with
  | register r =>
    rw [Place.register_mem_registersTo] at h
    have hbehind : bytes[r.val - 0]? = none := List.getElem?_eq_none (by omega)
    show Bank.read (fillRegisters c.cpu.v 0 bytes) r = c.cpu.v.read r
    rw [read_fillRegisters, if_pos (Nat.zero_le _), hbehind, Option.getD_none]
  | _ => rfl

variable {i : Instruction} {p : Place}

theorem content_execute (hsp : i.usesStack = true → c.cpu.sp.toNat ≤ 16) (h : p ∉ i.writes c.cpu) :
    (c.execute i).content p = c.content p := by
  -- An instruction is read as the `put`s that it makes, one behind the other.
  cases i with
  | sys routine => rfl
  | clear => exact c.content_put_of_ne (List.ne_of_not_mem_cons h) c.screen.clear
  | ret =>
    have hput := c.content_put_of_ne (List.ne_of_not_mem_cons h) c.cpu.pop.sp
    exact (content_withPc _ c.cpu.pop.pc p).trans hput
  | jump target => exact c.content_withPc _ p
  | call target =>
    let slot := Cpu.slot (if c.cpu.isFull then 0 else c.cpu.sp)
    have hslot : p ≠ .slot slot := by
      have heq : slot = Fin.ofNat 16 c.cpu.sp.toNat := Fin.ext (c.cpu.push_slot (hsp rfl))
      rw [heq]
      exact List.ne_of_not_mem_cons (List.not_mem_of_not_mem_cons h)
    have hput := c.content_put_put_of_ne hslot (List.ne_of_not_mem_cons h) c.cpu.pc
      (c.cpu.push c.cpu.pc).sp
    exact (content_withPc _ (target.setWidth 16) p).trans hput
  | skip condition =>
    show (c.withCpu (·.skip (condition.holds c))).content p = c.content p
    cases condition.holds c with
    | false => rfl
    | true => exact c.content_withPc _ p
  | setByte x nn => exact c.content_put_of_ne (List.ne_of_not_mem_cons h) nn
  | addByte x nn => exact c.content_put_of_ne (List.ne_of_not_mem_cons h) (c.cpu.register x + nn)
  | arith op x y =>
    cases op with
    | copy | or | and | xor => exact c.content_setResult (List.ne_of_not_mem_cons h) nofun
    | add | sub | shiftRight | subFrom | shiftLeft =>
      exact c.content_setResult (List.ne_of_not_mem_cons h) fun _ =>
        List.ne_of_not_mem_cons (List.not_mem_of_not_mem_cons h)
  | setIndex target =>
    exact c.content_put_of_ne (List.ne_of_not_mem_cons h) (target.setWidth 16)
  | jumpPlus target => exact c.content_withPc _ p
  | random x mask =>
    have hrandom := List.ne_of_not_mem_cons (List.not_mem_of_not_mem_cons h)
    exact c.content_put_put_of_ne (List.ne_of_not_mem_cons h) hrandom
      (c.cpu.random.next.1 &&& mask) c.cpu.random.next.2
  | draw x y rows =>
    let blitted := c.screen.draw (c.memory.readRange c.cpu.index rows.val) (c.cpu.register x)
      (c.cpu.register y)
    have hflag := List.ne_of_not_mem_cons (List.not_mem_of_not_mem_cons h)
    exact c.content_put_put_of_ne (List.ne_of_not_mem_cons h) hflag blitted.1 (Cpu.flag blitted.2)
  | readDelay x => exact c.content_put_of_ne (List.ne_of_not_mem_cons h) c.cpu.delay
  | awaitKey x => exact c.content_put_of_ne (List.ne_of_not_mem_cons h) (some x)
  | setDelay x => exact c.content_put_of_ne (List.ne_of_not_mem_cons h) (c.cpu.register x)
  | setSound x => exact c.content_put_of_ne (List.ne_of_not_mem_cons h) (c.cpu.register x)
  | addIndex x =>
    exact c.content_put_of_ne (List.ne_of_not_mem_cons h)
      (c.cpu.index + (c.cpu.register x).setWidth 16)
  | glyph x =>
    exact c.content_put_of_ne (List.ne_of_not_mem_cons h)
      (Memory.glyphAddress (c.cpu.register x))
  | decimal x => exact c.content_writeRange (Nat.le_of_ble_eq_true rfl) h
  | store x =>
    have hlength := c.length_registersTo x
    have hcells : p ∉ Place.cells c.cpu.index (registersTo c.cpu x).length := by
      rw [hlength]
      exact List.not_mem_of_not_mem_cons h
    have hfirst := c.content_writeRange (by omega) hcells
    exact (content_put_of_ne _ (List.ne_of_not_mem_cons h) _).trans hfirst
  | restore x =>
    have hfirst := c.content_fillRegisters (c.memory.length_readRange c.cpu.index (x.val + 1))
      (List.not_mem_of_not_mem_cons h)
    exact (content_put_of_ne _ (List.ne_of_not_mem_cons h) _).trans hfirst

theorem toNat_pc_add (pc : Word) :
    (pc + 2).toNat = (pc.toNat + 2) % 65536 ∧ (pc + 2 + 2).toNat = (pc.toNat + 4) % 65536 := by
  have hadd : ∀ a : Word, (a + 2).toNat = (a.toNat + 2) % 65536 := fun a => BitVec.toNat_add a 2
  refine ⟨hadd pc, ?_⟩
  rw [hadd, hadd]
  omega

theorem pc_execute (hsp : i.usesStack = true → c.cpu.sp.toNat ≤ 16) :
    (c.pastOpcode.execute i).cpu.pc.toNat = c.nextPc i := by
  obtain ⟨hnext, hover⟩ := toNat_pc_add c.cpu.pc
  have hwide : ∀ target : Address, (target.setWidth 16 : Word).toNat = target.toNat := by
    intro target
    rw [BitVec.toNat_setWidth]
    omega
  cases i with
  | jump target => exact hwide target
  | call target => exact hwide target
  | jumpPlus target =>
    have hbyte : ((c.cpu.register 0).setWidth 16 : Word).toNat = (c.cpu.register 0).toNat := by
      rw [BitVec.toNat_setWidth]
      omega
    show (target.setWidth 16 + (c.cpu.register 0).setWidth 16 : Word).toNat =
      target.toNat + (c.cpu.register 0).toNat
    rw [BitVec.toNat_add, hwide, hbyte]
    omega
  | ret => exact congrArg BitVec.toNat (Cpu.pop_pc c.pastOpcode.cpu (hsp rfl))
  | skip condition =>
    have hmet := c.holds_iff condition
    have hholds : condition.holds c.pastOpcode = condition.holds c := by
      cases condition <;> rfl
    show (c.pastOpcode.cpu.skip (condition.holds c.pastOpcode)).pc.toNat = _
    rw [hholds, nextPc_skip]
    cases hcondition : condition.holds c with
    | false =>
      have hunmet : ¬ condition.Met c := by
        rw [← hmet, hcondition]
        exact Bool.false_ne_true
      rw [if_neg hunmet]
      exact hnext
    | true =>
      rw [if_pos (hmet.mp hcondition)]
      exact hover
  | arith op x y =>
    show (c.pastOpcode.cpu.setResult x _).pc.toNat = _
    obtain ⟨value, f | f⟩ := op.apply (c.pastOpcode.cpu.register x) (c.pastOpcode.cpu.register y)
      <;> exact hnext
  | _ => exact hnext

/-- Of two opposite skips one passes over the next opcode and the other does not, whatever else lies
in memory. -/
theorem nextPc_opposite (condition : Condition) (memory : Memory) :
    c.nextPc (.skip condition) = (c.cpu.pc.toNat + 4) % 65536 ∧
        { c with memory }.nextPc (.skip condition.opposite) = (c.cpu.pc.toNat + 2) % 65536 ∨
      c.nextPc (.skip condition) = (c.cpu.pc.toNat + 2) % 65536 ∧
        { c with memory }.nextPc (.skip condition.opposite) = (c.cpu.pc.toNat + 4) % 65536 := by
  have hsame : condition.opposite.Met { c with memory } ↔ condition.opposite.Met c := by
    cases condition <;> exact Iff.rfl
  have hother := hsame.trans (condition.met_opposite c)
  by_cases hmet : condition.Met c
  · left
    rw [nextPc_skip, nextPc_skip, if_pos hmet, if_neg fun hopposite => hother.mp hopposite hmet]
    exact ⟨rfl, rfl⟩
  · right
    rw [nextPc_skip, nextPc_skip, if_neg hmet, if_pos (hother.mpr hmet)]
    exact ⟨rfl, rfl⟩

/-- A step on any opcode that means something. Where the instruction may not write, all is as it
was. The pc is where `nextPc` says, by what the registers, the stack and the keys were before the
step; and with the opposite skip in place of a skip, in the same state, the pc would have gone the
other way. -/
theorem step_footprint (hready : c.cpu.awaiting = none) (hsp : c.cpu.sp.toNat ≤ 16)
    (hop : Instruction.decode c.fetch = .ok i) :
    ∃ c' log, c.step = .ok (.executed i, c', log) ∧
      (∀ p, p ∉ i.writes c.cpu → c'.content p = c.content p) ∧
      c'.cpu.pc.toNat = c.nextPc i ∧
      ∀ condition, i = .skip condition → ∀ memory,
        Instruction.decode { c with memory }.fetch = .ok (.skip condition.opposite) →
        ∃ d log', { c with memory }.step = .ok (.executed (.skip condition.opposite), d, log') ∧
          (c'.cpu.pc.toNat = (c.cpu.pc.toNat + 4) % 65536 ∧
              d.cpu.pc.toNat = (c.cpu.pc.toNat + 2) % 65536 ∨
            c'.cpu.pc.toNat = (c.cpu.pc.toNat + 2) % 65536 ∧
              d.cpu.pc.toNat = (c.cpu.pc.toNat + 4) % 65536) := by
  obtain ⟨log, hstep⟩ := c.step_of_decode hready hop
  refine ⟨c.pastOpcode.execute i, log, hstep, ?_, c.pc_execute fun _ => hsp, ?_⟩
  · intro p hp
    exact (c.pastOpcode.content_execute (fun _ => hsp) hp).trans (c.content_withPc _ p)
  · rintro condition rfl memory hop'
    let other : Computer := { c with memory }
    obtain ⟨log', hstep'⟩ := other.step_of_decode hready hop'
    refine ⟨other.pastOpcode.execute (.skip condition.opposite), log', hstep', ?_⟩
    rw [c.pc_execute fun _ => hsp, other.pc_execute fun _ => hsp]
    exact c.nextPc_opposite condition memory

/-- A skip in the last two cells of memory, whose key is down: it passes over an opcode and comes
round to the start, and changes nothing besides; its opposite does not pass over. -/
theorem step_footprint_wrapping :
    ∃ c d c' d' : Computer, ∃ log log',
      c.cpu.awaiting = none ∧ c.cpu.sp.toNat ≤ 16 ∧ d = { c with memory := d.memory } ∧
      Instruction.decode c.fetch = .ok (.skip (.keyDown 1)) ∧
      Instruction.decode d.fetch = .ok (.skip (.keyUp 1)) ∧
      c.step = .ok (.executed (.skip (.keyDown 1)), c', log) ∧
      d.step = .ok (.executed (.skip (.keyUp 1)), d', log') ∧
      c' = c.withCpu ({ · with pc := 2 }) ∧ d'.cpu.pc.toNat = 0 := by
  let cpu := Cpu.initial (.ofSeed 0)
  let c : Computer :=
    { cpu := { cpu with v := cpu.v.write 1 0x1E, pc := 0xFFFE, sp := 16 }
      memory := Memory.blank.writeRange 0xFFE [0xE1, 0x9E]
      screen := Screen.blank
      keypad := ⟨Keypad.released.keys.write 0xE true⟩ }
  let memory := Memory.blank.writeRange 0xFFE [0xE1, 0xA1]
  have hop : Instruction.decode c.fetch = .ok (.skip (.keyDown 1)) :=
    ok_of_toOption (by decide +kernel)
  have hop' : Instruction.decode { c with memory }.fetch = .ok (.skip (.keyUp 1)) :=
    ok_of_toOption (by decide +kernel)
  obtain ⟨c', log, hstep, hkeeps, hpc, hopposite⟩ := c.step_footprint rfl (by decide) hop
  obtain ⟨d', log', hstep', hways⟩ := hopposite (.keyDown 1) rfl memory hop'
  have htwo : c'.cpu.pc.toNat = 2 := hpc.trans (by decide +kernel)
  have hsame : c' = c.withCpu ({ · with pc := 2 }) :=
    eq_of_content (fun p => (hkeeps p List.not_mem_nil).trans (c.content_withPc 2 p).symm)
      (BitVec.eq_of_toNat_eq htwo)
  refine ⟨c, { c with memory }, c', d', log, log', rfl, by decide, rfl, hop, hop', hstep, hstep',
    hsame, ?_⟩
  obtain ⟨-, hzero⟩ | ⟨hzero, -⟩ := hways
  · exact hzero.trans (by decide)
  · exact absurd (htwo.symm.trans hzero) (by decide)

end Computer
end ChipEight
