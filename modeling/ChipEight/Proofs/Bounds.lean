import ChipEight.Proofs.Bare.Machine

/-!
# ChipEight.Proofs.Bounds

No program and no order of calls leads out of bounds. A run over plain storage would break off at
the first index past the end of an array, at the first sum or difference that does not fit, and at
an opcode that no arm of the decoder takes; none does.

* `Machine.InBounds` — the bounds on what a machine stores.
* `of_inBounds`      — the plain form of a well-formed machine keeps them.
* `run_inBounds`     — every run gets to its end, in bounds, and gives the answers, the beeps and
  the machine that `Machine.performAll` and `Machine.after` give.
-/

namespace ChipEight
namespace Bare
namespace Machine

variable {T : Type}

/-- What the types of plain storage leave open. -/
structure InBounds (b : Machine T) : Prop where
  sp : b.computer.cpu.sp.toNat ≤ 16
  pixels : ∀ x y, (hx : x < 64) → (hy : y < 32) →
    b.computer.screen.pixels[y][x] = 0 ∨ b.computer.screen.pixels[y][x] = 1
  awaiting : ∀ x ∈ b.computer.cpu.awaiting, x.toNat ≤ 15
  romLength : b.computer.memory.romLength ≤ 3584
  sinceTick :
    match b.config.timing with
    | .host => b.sinceTick = 0
    | .perStep n => b.sinceTick.toNat < max n.toNat 1

theorem of_inBounds {m : ChipEight.Machine} (h : m.WellFormed) (tone : T) :
    (of m tone).InBounds where
  sp := h.sp_le
  pixels x y hx hy := pixel_of m.computer.screen hx hy
  awaiting := by
    intro x hx
    obtain ⟨r, -, rfl⟩ := Option.map_eq_some_iff.mp hx
    rw [toNat_ofDigit]
    omega
  romLength := h.romLength_le
  sinceTick := by
    have hlt := h.sinceTick_lt
    have hconfig : (of m tone).config = m.config := rfl
    rw [hconfig]
    unfold Config.stepsPerTick at hlt
    cases ht : m.config.timing with
    | host =>
      rw [ht, Option.getD_none] at hlt
      show BitVec.ofNat 32 m.sinceTick = 0
      rw [Nat.lt_one_iff.mp hlt]
      rfl
    | perStep n =>
      rw [ht, Option.getD_some] at hlt
      show (BitVec.ofNat 32 m.sinceTick).toNat < max n.toNat 1
      exact Nat.lt_of_le_of_lt (BitVec.toNat_ofNat _ _ ▸ Nat.mod_le _ _) hlt

/-- Whatever the configuration, the tone, the ROMs and the calls: no index leaves its array, no
arithmetic overflows, no opcode is without an arm, and the machine is in bounds at the end of it. -/
theorem run_inBounds (request : Byte → T → T) (config : Config) (entropy : Random.Key) (tone : T)
    (calls : List Call) :
    let start := ChipEight.Machine.create config entropy
    ∃ answers b,
      run request config entropy tone calls = .ok (answers, b) ∧
        b.InBounds ∧
        answers = (start.performAll calls).map (·.value.map .of) ∧
        b = of (start.after calls)
          (requestAll request (beepsOf (start.performAll calls)) tone) := by
  intro start
  have hwell : (start.after calls).WellFormed :=
    ChipEight.Machine.after_wellFormed (ChipEight.Machine.create_wellFormed config entropy) calls
  exact ⟨_, _, run_ok request config entropy tone calls, of_inBounds hwell _, rfl, rfl⟩

end Machine
end Bare
end ChipEight
