import ChipEight.Proofs.Memory
import ChipEight.Proofs.Random

/-!
# ChipEight.Proofs.FreshStart

A program finds the machine new. Of what happened before its ROM was loaded nothing is left but the
place in the random stream.

* `Machine.Loaded` — the machine as a program finds it, part by part.
* `load_loaded`    — a load that succeeds leaves it so, whatever the machine was like.
* `load_same`      — and leaves any two machines of one configuration the same, up to their streams.
* `load_erases_history` — these after any two histories, and all that two such machines do later.
-/

namespace ChipEight
namespace Memory

/-- The font, zeros up to the start, the ROM, and zeros behind it. -/
theorem getElem_loaded {rom : List Byte} (hrom : rom.length ≤ 3584) {k : Nat} (hk : k < 4096) :
    (blank.writeRange start rom).cells[k] =
      if k < 80 then font.getD k 0 else if k < 0x200 then 0 else rom.getD (k - 0x200) 0 := by
  have hstart : start.toNat = 0x200 := rfl
  have hfits : start.toNat + rom.length ≤ 4096 := by omega
  have hzero : 80 ≤ k → font.getD k 0 = 0 := by
    intro hbehind
    rw [List.getD_eq_getElem?_getD, List.getElem?_eq_none hbehind, Option.getD_none]
  rw [getElem_cells_eq_cellAt _ hk, cellAt_writeRange_of_fits _ _ hfits, cellAt_blank,
    Nat.mod_eq_of_lt hk, hstart]
  by_cases hlow : k < 0x200
  · rw [if_neg (Nat.not_le.mpr hlow), if_pos hlow]
    by_cases hfont : k < 80
    · rw [if_pos hfont]
    · rw [if_neg hfont, hzero (Nat.le_of_not_lt hfont)]
  · rw [if_pos (Nat.le_of_not_lt hlow), if_neg (by omega), if_neg hlow, hzero (by omega),
      List.getD_eq_getElem?_getD]

end Memory

namespace Machine

/-- A machine that nothing was done with since it got a ROM. -/
structure Loaded (rom : List Byte) (m : Machine) : Prop where
  ready : m.ready = true
  cells : ∀ k, (hk : k < 4096) → m.computer.memory.cells[k] =
    if k < 80 then Memory.font.getD k 0 else if k < 0x200 then 0 else rom.getD (k - 0x200) 0
  romLength : m.computer.memory.romLength = rom.length
  register : ∀ x, m.computer.cpu.register x = 0
  index : m.computer.cpu.index = 0
  pc : m.computer.cpu.pc = 0x200
  sp : m.computer.cpu.sp = 0
  stack : ∀ k, m.computer.cpu.stack.read k = 0
  delay : m.computer.cpu.delay = 0
  sound : m.computer.cpu.sound = 0
  awaiting : m.computer.cpu.awaiting = none
  keyUp : ∀ key, m.computer.keypad.isDown key = false
  dark : ∀ x y, m.computer.screen.picture.lit x y = false
  changed : m.computer.screen.changed = true
  sinceTick : m.sinceTick = 0

variable (m : Machine)

theorem perform_load_ok (hr : m.ready = true) {rom : List Byte} (hrom : rom.length ≤ 3584) :
    m.perform (.load rom) =
      { value := .ok (.size rom.length)
        machine :=
          { m.resetComponents with
            computer :=
              { m.resetComponents.computer with
                memory :=
                  { Memory.blank.writeRange Memory.start rom with romLength := rom.length } } }
        log := [.loaded rom.length] } := by
  have hfits : ¬ Memory.capacity < rom.length := Nat.not_lt.mpr hrom
  rw [perform_load, if_pos hr, if_neg hfits]

theorem load_loaded (hr : m.ready = true) {rom : List Byte} (hrom : rom.length ≤ 3584) :
    (m.perform (.load rom)).machine.Loaded rom := by
  have hregister : ∀ x, (Cpu.initial m.computer.cpu.random).register x = 0 := by
    intro x
    simp [Cpu.register, Cpu.initial, Bank.read]
  have hstack : ∀ k, (Cpu.initial m.computer.cpu.random).stack.read k = 0 := by
    intro k
    simp [Cpu.initial, Bank.read]
  have hkey : ∀ key, Keypad.released.isDown key = false := by
    intro key
    rw [Keypad.isDown, Keypad.released, Vector.getElem?_replicate]
    split <;> rfl
  have hdark : ∀ x y, Picture.dark.lit x y = false := by
    intro x y
    simp [Picture.lit, Picture.dark]
  rw [m.perform_load_ok hr hrom]
  exact
    { ready := hr
      cells := fun k hk => Memory.getElem_loaded hrom hk
      romLength := rfl
      register := hregister
      index := rfl
      pc := rfl
      sp := rfl
      stack := hstack
      delay := rfl
      sound := rfl
      awaiting := rfl
      keyUp := hkey
      dark := hdark
      changed := rfl
      sinceTick := rfl }

variable {a b : Machine}

theorem load_same (hconfig : a.config = b.config) (ha : a.ready = true) (hb : b.ready = true)
    {rom : List Byte} (hrom : rom.length ≤ 3584) :
    (a.perform (.load rom)).machine =
      (b.perform (.load rom)).machine.withRandom a.computer.cpu.random := by
  rw [a.perform_load_ok ha hrom, b.perform_load_ok hb hrom]
  simp only [resetComponents, withRandom, Computer.withRandom, Computer.withCpu, hconfig, ha, hb]
  rfl

/-- Two machines of one configuration, and their histories. A program of at most 3584 bytes that
both are ready for finds them the same, part by part, up to their random streams, and these where
they were: at the same place of the same stream if the machines have the same seed and executed CXNN
equally often. Then they are the same from there on. Where only the bytes still to come are the
same, no reply shows a difference, and the machines differ in their streams only. -/
theorem load_erases_history (config : Config) (entropy₁ entropy₂ : Random.Key)
    (history₁ history₂ : List Call) (rom : List Byte) (hrom : rom.length ≤ 3584) :
    let start₁ := create config entropy₁
    let start₂ := create config entropy₂
    let a := start₁.after history₁
    let b := start₂.after history₂
    let a' := (a.perform (.load rom)).machine
    let b' := (b.perform (.load rom)).machine
    a.ready = true → b.ready = true →
      (a.perform (.load rom)).value = .ok (.size rom.length) ∧
      (b.perform (.load rom)).value = .ok (.size rom.length) ∧
      a'.Loaded rom ∧ b'.Loaded rom ∧
      a' = b'.withRandom a'.computer.cpu.random ∧
      a'.computer.cpu.random = a.computer.cpu.random ∧
      b'.computer.cpu.random = b.computer.cpu.random ∧
      (config.randomKey entropy₁ = config.randomKey entropy₂ →
        start₁.randomBytes history₁ = start₂.randomBytes history₂ →
        a.computer.cpu.random = b.computer.cpu.random) ∧
      (a.computer.cpu.random = b.computer.cpu.random →
        ∀ calls, a'.performAll calls = b'.performAll calls ∧ a'.after calls = b'.after calls) ∧
      ((∀ k, a.computer.cpu.random.upcoming k = b.computer.cpu.random.upcoming k) →
        ∀ calls,
          (a'.performAll calls).map (fun r => (r.value, r.beeps, r.log)) =
              (b'.performAll calls).map (fun r => (r.value, r.beeps, r.log)) ∧
            (a'.after calls).Twins (b'.after calls)) := by
  intro start₁ start₂ a b a' b' ha hb
  have hloadA := a.perform_load_ok ha hrom
  have hloadB := b.perform_load_ok hb hrom
  have hconfig : a.config = b.config := by
    rw [start₁.after_config, start₂.after_config]
    rfl
  have hrandomA : a'.computer.cpu.random = a.computer.cpu.random := a.perform_other_random nofun
  have hrandomB : b'.computer.cpu.random = b.computer.cpu.random := b.perform_other_random nofun
  have hsame : a' = b'.withRandom a.computer.cpu.random := load_same hconfig ha hb hrom
  have hsame' : b' = a'.withRandom b.computer.cpu.random := load_same hconfig.symm hb ha hrom
  refine ⟨by rw [hloadA], by rw [hloadB], a.load_loaded ha hrom, b.load_loaded hb hrom,
    hrandomA ▸ hsame, hrandomA, hrandomB, ?_, ?_, ?_⟩
  · intro hseed hdraws
    simp only [a, b, random_after, hdraws]
    exact congrArg (Random.mk · _) hseed
  · intro hrandom calls
    have hequal : a' = b' := by
      rw [hsame, hrandom, ← hrandomB]
      rfl
    rw [hequal]
    exact ⟨rfl, rfl⟩
  · intro hupcoming
    rw [← hrandomA] at hupcoming
    have htwins : a'.Twins b' := ⟨b.computer.cpu.random, hsame', hupcoming⟩
    exact htwins.performAll

/-- A machine with an address on its stack, a running timer and a key held, that waits for another,
and one that has started over once. -/
theorem load_erases_history_waiting :
    ∃ a b : Machine,
      let rom : List Byte := [0xC2, 0xFF]
      (a.computer.cpu.awaiting = some 5 ∧ a.computer.cpu.sp = 1 ∧ a.computer.cpu.delay = 0x28 ∧
        a.computer.keypad.isDown 4 = true ∧ a.ready = true) ∧
      (b.computer.cpu.pc = 0x202 ∧ b.ready = true) ∧
      rom.length ≤ 3584 ∧
      ∀ calls,
        (a.perform (.load rom)).machine.performAll calls =
          (b.perform (.load rom)).machine.performAll calls := by
  let config : Config := { timing := .perStep 4, seed := some 7 }
  let history₁ : List Call :=
    [.makeReady, .load [0x63, 0x2A, 0xC1, 0xFF, 0x22, 0x06, 0xF3, 0x15, 0xF5, 0x0A],
      .setKey 4 true, .step, .step, .step, .step, .step, .tick]
  let history₂ : List Call := [.makeReady, .reset, .makeReady, .load [0xC0, 0x0F], .step]
  let a := (create config (.ofSeed 1)).after history₁
  let b := (create config (.ofSeed 2)).after history₂
  have ha : a.computer.cpu.awaiting = some 5 ∧ a.computer.cpu.sp = 1 ∧
      a.computer.cpu.delay = 0x28 ∧ a.computer.keypad.isDown 4 = true ∧ a.ready = true := by
    decide +kernel
  have hb : b.computer.cpu.pc = 0x202 ∧ b.ready = true := by decide +kernel
  have hrom : ([0xC2, 0xFF] : List Byte).length ≤ 3584 := by decide
  -- Both have the key of the seed, whatever entropy there was.
  have hkey : ∀ entropy, config.randomKey entropy = .ofSeed 7 := fun _ => rfl
  have hdraws :
      (create config (.ofSeed 1)).randomBytes history₁ =
        (create config (.ofSeed 2)).randomBytes history₂ := by
    decide +kernel
  obtain ⟨-, -, -, -, -, -, -, hrandom, hfuture, -⟩ :=
    load_erases_history config (.ofSeed 1) (.ofSeed 2) history₁ history₂ [0xC2, 0xFF] hrom
      ha.2.2.2.2 hb.2
  refine ⟨a, b, ha, hb, hrom, fun calls => ?_⟩
  exact (hfuture (hrandom ((hkey _).trans (hkey _).symm) hdraws) calls).1

end Machine
end ChipEight
