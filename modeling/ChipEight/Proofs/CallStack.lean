import ChipEight.Proofs.Machine

/-!
# ChipEight.Proofs.CallStack

The call stack as a ring of 16 addresses. The pointer wraps from 16 to 0 before an address is
written and from 0 to 16 before one is read, so 0 and 16 stand for the same place in the ring.

* `Cpu.ring`          — the addresses on the stack, the latest first.
* `Cpu.ring_push`, `ring_pop` — a push puts an address in front and drops the last; a pop turns the
  ring by one place.
* `Machine.openCalls` — the return addresses that a run is due to come back to.
* `Cpu.Tracks`        — they are the front of the ring; every call on the machine keeps that.
* `callStack_refines_ring` — what steps do to the ring, and that returns come back to their calls.
-/

namespace ChipEight
namespace Cpu

/-- The addresses on the stack, the latest first, all the way round. -/
def ring (c : Cpu) : List Word :=
  (List.range 16).map fun k => c.stack.read (Fin.ofNat 16 (c.sp.toNat + 15 - k))

variable (c : Cpu)

@[simp] theorem length_ring : c.ring.length = 16 := by
  rw [ring, List.length_map, List.length_range]

theorem getElem_ring {k : Nat} (hk : k < c.ring.length) :
    c.ring[k] = c.stack.read (Fin.ofNat 16 (c.sp.toNat + 15 - k)) := by
  simp only [ring, List.getElem_map, List.getElem_range]

theorem ring_congr {c d : Cpu} (hsp : c.sp = d.sp) (hstack : c.stack = d.stack) :
    c.ring = d.ring := by
  rw [ring, ring, hsp, hstack]

/-- The slot that a push writes is the pointer's place in the ring, after the wrap or without it. -/
theorem push_slot (h : c.sp.toNat ≤ 16) :
    (slot (if c.isFull then 0 else c.sp)).val = c.sp.toNat % 16 := by
  rw [slot, Fin.val_ofNat]
  by_cases hfull : c.isFull = true
  · have hle : 16 ≤ c.sp.toNat := c.isFull_iff.mp hfull
    have hzero : (0 : Byte).toNat = 0 := rfl
    rw [if_pos hfull, hzero]
    omega
  · rw [if_neg hfull]

theorem pop_pc (h : c.sp.toNat ≤ 16) :
    c.pop.pc = c.stack.read (Fin.ofNat 16 (c.sp.toNat + 15)) := by
  have hsp := c.pop_sp h
  have hslot : slot c.pop.sp = Fin.ofNat 16 (c.sp.toNat + 15) := by
    apply Fin.ext
    rw [slot, Fin.val_ofNat, Fin.val_ofNat, hsp]
    omega
  exact congrArg c.stack.read hslot

theorem ring_push (h : c.sp.toNat ≤ 16) (address : Word) :
    (c.push address).ring = address :: c.ring.take 15 := by
  have hsp := c.push_sp h address
  have hslot := c.push_slot h
  apply List.ext_getElem
  · simp
  · intro k hk _
    rw [length_ring] at hk
    have hstack : (c.push address).stack =
        c.stack.write (slot (if c.isFull then 0 else c.sp)) address := rfl
    rw [getElem_ring, hstack, hsp, Bank.read_write]
    cases k with
    | zero =>
      have hplace : slot (if c.isFull then 0 else c.sp) =
          Fin.ofNat 16 (c.sp.toNat % 16 + 1 + 15 - 0) := by
        apply Fin.ext
        rw [hslot, Fin.val_ofNat]
        omega
      rw [if_pos hplace]
      rfl
    | succ k =>
      have hother : ¬ slot (if c.isFull then 0 else c.sp) =
          Fin.ofNat 16 (c.sp.toNat % 16 + 1 + 15 - (k + 1)) := by
        intro heq
        have := congrArg Fin.val heq
        rw [hslot, Fin.val_ofNat] at this
        omega
      have hsame : Fin.ofNat 16 (c.sp.toNat % 16 + 1 + 15 - (k + 1)) =
          Fin.ofNat 16 (c.sp.toNat + 15 - k) := by
        apply Fin.ext
        rw [Fin.val_ofNat, Fin.val_ofNat]
        omega
      rw [if_neg hother, List.getElem_cons_succ, List.getElem_take, getElem_ring, hsame]

theorem ring_pop (h : c.sp.toNat ≤ 16) :
    ∃ rest, c.ring = c.pop.pc :: rest ∧ c.pop.ring = rest ++ [c.pop.pc] := by
  have hsp := c.pop_sp h
  have hpc := c.pop_pc h
  have hstack : c.pop.stack = c.stack := rfl
  refine ⟨c.ring.drop 1, ?_, ?_⟩
  · apply List.ext_getElem
    · simp
    · intro k hk _
      cases k with
      | zero => rw [getElem_ring, List.getElem_cons_zero, hpc, Nat.sub_zero]
      | succ k => simp only [List.getElem_cons_succ, List.getElem_drop, Nat.add_comm 1 k]
  · apply List.ext_getElem
    · simp
    · intro k hk _
      rw [length_ring] at hk
      rw [getElem_ring, hstack, hsp]
      by_cases hlast : k < 15
      · have hsame : Fin.ofNat 16 ((c.sp.toNat + 15) % 16 + 15 - k) =
            Fin.ofNat 16 (c.sp.toNat + 15 - (1 + k)) := by
          apply Fin.ext
          rw [Fin.val_ofNat, Fin.val_ofNat]
          omega
        rw [List.getElem_append_left (by simp; omega), List.getElem_drop, getElem_ring, hsame]
      · have hsame : Fin.ofNat 16 ((c.sp.toNat + 15) % 16 + 15 - k) =
            Fin.ofNat 16 (c.sp.toNat + 15) := by
          apply Fin.ext
          rw [Fin.val_ofNat, Fin.val_ofNat]
          omega
        rw [List.getElem_append_right (by simp; omega), List.getElem_singleton, hpc, hsame]

end Cpu

namespace Computer

variable {c c' : Computer} {log : List Record}

theorem step_execute {i : Instruction} (hs : c.step = .ok (.executed i, c', log)) :
    c' = c.pastOpcode.execute i := by
  obtain ⟨h, -⟩ | ⟨j, -, -, h, rfl⟩ := c.step_cases hs
  · cases h
  · cases h
    rfl

theorem ring_call (h : c.cpu.sp.toNat ≤ 16) {target : Address}
    (hs : c.step = .ok (.executed (.call target), c', log)) :
    c'.cpu.ring = (c.cpu.pc + 2) :: c.cpu.ring.take 15 ∧ c'.cpu.pc = target.setWidth 16 := by
  rw [step_execute hs]
  exact ⟨c.pastOpcode.cpu.ring_push h (c.cpu.pc + 2), rfl⟩

theorem ring_ret (h : c.cpu.sp.toNat ≤ 16) (hs : c.step = .ok (.executed .ret, c', log)) :
    ∃ rest, c.cpu.ring = c'.cpu.pc :: rest ∧ c'.cpu.ring = rest ++ [c'.cpu.pc] := by
  rw [step_execute hs]
  exact c.pastOpcode.cpu.ring_pop h

theorem ring_other {i : Instruction} (hi : i.usesStack = false)
    (hs : c.step = .ok (.executed i, c', log)) :
    c'.cpu.ring = c.cpu.ring ∧ c'.cpu.sp = c.cpu.sp ∧ c'.cpu.stack = c.cpu.stack := by
  rw [step_execute hs]
  obtain ⟨hsp, hstack⟩ := execute_sp_stack c.pastOpcode hi
  exact ⟨Cpu.ring_congr hsp hstack, hsp, hstack⟩

end Computer

/-! ## Runs -/

/-- How a step changes the return addresses that are due, the latest first; `next` is the address
behind its opcode. There is no answer where a return finds none and where a call finds 16. -/
def openStep (next : Word) (due : List Word) : Step → Option (List Word)
  | .executed (.call _) => if due.length < 16 then some (next :: due) else none
  | .executed .ret => due.tail?
  | _ => some due

/-- The addresses due are the front of the ring, and the pointer has gone up by one for each. -/
structure Cpu.Tracks (start : Nat) (c : Cpu) (due : List Word) : Prop where
  sp_le : c.sp.toNat ≤ 16
  length_le : due.length ≤ 16
  front : due <+: c.ring
  depth : c.sp.toNat % 16 = (start + due.length) % 16

namespace Cpu

theorem Tracks.refl {c : Cpu} (h : c.sp.toNat ≤ 16) : Tracks c.sp.toNat c [] where
  sp_le := h
  length_le := Nat.zero_le 16
  front := List.nil_prefix
  depth := rfl

theorem Tracks.congr {start : Nat} {c d : Cpu} {due : List Word} (h : Tracks start c due)
    (hsp : d.sp = c.sp) (hstack : d.stack = c.stack) : Tracks start d due where
  sp_le := hsp ▸ h.sp_le
  length_le := h.length_le
  front := ring_congr hsp hstack ▸ h.front
  depth := hsp ▸ h.depth

end Cpu

namespace Computer

variable {c c' : Computer} {log : List Record} {start : Nat} {due due' : List Word}

theorem openStep_other {i : Instruction} (hi : i.usesStack = false) (next : Word) :
    openStep next due (.executed i) = some due := by
  cases i with
  | ret => cases hi
  | call target => cases hi
  | _ => rfl

theorem tracks_call (h : c.cpu.Tracks start due) {target : Address} (hroom : due.length < 16)
    (hs : c.step = .ok (.executed (.call target), c', log)) :
    c'.cpu.Tracks start ((c.cpu.pc + 2) :: due) := by
  obtain ⟨hring, -⟩ := ring_call h.sp_le hs
  have hsp : c'.cpu.sp.toNat = c.cpu.sp.toNat % 16 + 1 := by
    rw [step_execute hs]
    exact c.pastOpcode.cpu.push_sp h.sp_le (c.cpu.pc + 2)
  have hdepth := h.depth
  refine ⟨by omega, hroom, ?_, ?_⟩
  · rw [hring, List.cons_prefix_cons]
    exact ⟨rfl, List.prefix_take_iff.mpr ⟨h.front, Nat.le_of_lt_succ hroom⟩⟩
  · rw [List.length_cons]
    omega

/-- A return takes the first address due to the pc, and to the far end of the ring. -/
theorem tracks_ret {first : Word} (h : c.cpu.Tracks start (first :: due))
    (hs : c.step = .ok (.executed .ret, c', log)) :
    c'.cpu.Tracks start due ∧ c'.cpu.pc = first := by
  obtain ⟨rest, hring, hring'⟩ := ring_ret h.sp_le hs
  have hsp : c'.cpu.sp.toNat = (c.cpu.sp.toNat + 15) % 16 := by
    rw [step_execute hs]
    exact c.pastOpcode.cpu.pop_sp h.sp_le
  have hlength := h.length_le
  have hdepth := h.depth
  have hfront := h.front
  rw [hring, List.cons_prefix_cons] at hfront
  rw [List.length_cons] at hlength hdepth
  refine ⟨⟨by omega, by omega, ?_, by omega⟩, hfront.1.symm⟩
  rw [hring']
  exact hfront.2.trans (List.prefix_append rest _)

theorem tracks_step (h : c.cpu.Tracks start due) {s : Step} (hs : c.step = .ok (s, c', log))
    (hopen : openStep (c.cpu.pc + 2) due s = some due') : c'.cpu.Tracks start due' := by
  cases s with
  | waiting =>
    cases hopen
    obtain ⟨-, rfl⟩ | ⟨i, -, -, hi, -⟩ := c.step_cases hs
    · exact h
    · cases hi
  | executed i =>
    cases hi : i.usesStack with
    | false =>
      rw [openStep_other hi] at hopen
      cases hopen
      obtain ⟨-, hsp, hstack⟩ := ring_other hi hs
      exact h.congr hsp hstack
    | true =>
      cases i with
      | call target =>
        have hnext : (if due.length < 16 then some ((c.cpu.pc + 2) :: due) else none) = some due' :=
          hopen
        by_cases hroom : due.length < 16
        · rw [if_pos hroom] at hnext
          cases hnext
          exact tracks_call h hroom hs
        · rw [if_neg hroom] at hnext
          cases hnext
      | ret =>
        cases due with
        | nil => cases hopen
        | cons first rest =>
          cases hopen
          exact (tracks_ret h hs).1
      | _ => cases hi

end Computer

namespace Machine

variable {m : Machine} {start : Nat} {due due' : List Word}

/-- How a call on the machine changes the addresses due; there is no answer where it starts over. -/
def openCall (m : Machine) (due : List Word) (call : Call) : Option (List Word) :=
  if call.restarts then none
  else
    match (m.perform call).value with
    | .ok (.step s) => openStep (m.computer.cpu.pc + 2) due s
    | _ => some due

def openCalls (m : Machine) (due : List Word) : List Call → Option (List Word)
  | [] => some due
  | call :: rest =>
    (m.openCall due call).bind fun due => (m.perform call).machine.openCalls due rest

theorem openCall_other {call : Call} (hc : call.restarts = false) (hs : call ≠ .step)
    (due : List Word) : m.openCall due call = some due := by
  rw [openCall, hc]
  simp only [Bool.false_eq_true, if_false]
  split
  case h_1 s hv => exact absurd hv (m.perform_other_value hs s)
  case h_2 => rfl

theorem tracks_perform (h : m.computer.cpu.Tracks start due) {call : Call}
    (hopen : m.openCall due call = some due') :
    (m.perform call).machine.computer.cpu.Tracks start due' := by
  cases hc : call.restarts with
  | true =>
    rw [openCall, hc] at hopen
    cases hopen
  | false =>
    by_cases hs : call = .step
    · subst hs
      rw [openCall] at hopen
      obtain ⟨e, he⟩ | ⟨s, computer, log, sinceTick, delay, sound, hstep, hv, hm⟩ :=
        m.perform_step_cases
      · rw [he] at hopen ⊢
        cases hopen
        exact h
      · rw [hv] at hopen
        have hnext := Computer.tracks_step h hstep hopen
        rw [hm]
        exact hnext.congr rfl rfl
    · rw [openCall_other hc hs] at hopen
      cases hopen
      obtain ⟨v, awaiting, delay, sound, screen, keypad, hm⟩ := m.perform_other_frame hc hs
      rw [hm]
      exact h.congr rfl rfl

theorem tracks_after (h : m.computer.cpu.Tracks start due) {calls : List Call}
    (hopen : m.openCalls due calls = some due') :
    (m.after calls).computer.cpu.Tracks start due' := by
  induction calls generalizing m due with
  | nil =>
    cases hopen
    exact h
  | cons call rest ih =>
    obtain ⟨next, hnext, hrest⟩ := Option.bind_eq_some_iff.mp hopen
    exact ih (tracks_perform h hnext) hrest

theorem pc_of_ret {first : Word} (h : m.computer.cpu.Tracks start (first :: due))
    (hret : (m.perform .step).value = .ok (.step (.executed .ret))) :
    (m.perform .step).machine.computer.cpu.pc = first := by
  obtain ⟨e, he⟩ | ⟨s, computer, log, sinceTick, delay, sound, hstep, hv, hm⟩ :=
    m.perform_step_cases
  · rw [he] at hret
    cases hret
  · rw [hv] at hret
    cases hret
    rw [hm]
    exact (Computer.tracks_ret h hstep).2

/-- The stack is a ring. A call puts the address behind it in front and drops the last; a return
goes to the address in front and turns the ring; no other instruction touches it. So in a run that
never has more than 16 calls open, each return goes to the address behind its own call, wherever
the pointer was at the start, and with no call open the pointer is back at its place. -/
theorem callStack_refines_ring (m : Machine) (h : m.computer.cpu.sp.toNat ≤ 16) :
    (∀ i c' log, m.computer.step = .ok (.executed i, c', log) →
      match i with
      | .call target =>
        c'.cpu.ring = (m.computer.cpu.pc + 2) :: m.computer.cpu.ring.take 15 ∧
          c'.cpu.pc = target.setWidth 16
      | .ret =>
        ∃ rest, m.computer.cpu.ring = c'.cpu.pc :: rest ∧ c'.cpu.ring = rest ++ [c'.cpu.pc]
      | _ =>
        c'.cpu.ring = m.computer.cpu.ring ∧ c'.cpu.sp = m.computer.cpu.sp ∧
          c'.cpu.stack = m.computer.cpu.stack) ∧
    ∀ calls due, m.openCalls [] calls = some due →
      (∀ first rest, due = first :: rest →
        ((m.after calls).perform .step).value = .ok (.step (.executed .ret)) →
        ((m.after calls).perform .step).machine.computer.cpu.pc = first) ∧
      (due = [] →
        (m.after calls).computer.cpu.sp.toNat % 16 = m.computer.cpu.sp.toNat % 16) := by
  refine ⟨?_, ?_⟩
  · intro i c' log hs
    cases i with
    | call target => exact Computer.ring_call h hs
    | ret => exact Computer.ring_ret h hs
    | _ => exact Computer.ring_other rfl hs
  · intro calls due hopen
    have htracks := tracks_after (.refl h) hopen
    refine ⟨?_, ?_⟩
    · rintro first rest rfl hret
      exact pc_of_ret htracks hret
    · rintro rfl
      exact htracks.depth

/-- From a full stack: the call wraps the pointer, and the return comes back all the same. -/
theorem callStack_refines_ring_full :
    ∃ m : Machine,
      m.computer.cpu.sp = 16 ∧
      m.openCalls [] [.step] = some [0x202] ∧
      ((m.after [.step]).perform .step).machine.computer.cpu.pc = 0x202 ∧
      (m.after [.step, .step]).computer.cpu.sp.toNat % 16 = 0 := by
  let blank := create {} (.ofSeed 0)
  let m : Machine :=
    { blank with
      ready := true
      computer :=
        { blank.computer with
          cpu := { blank.computer.cpu with sp := 16 }
          memory := Memory.blank.writeRange 0x200 [0x22, 0x04, 0x00, 0x00, 0x00, 0xEE] } }
  have hcall : m.openCalls [] [.step] = some [0x202] := by decide +kernel
  have hret : ((m.after [.step]).perform .step).value = .ok (.step (.executed .ret)) :=
    ok_of_toOption (by decide +kernel)
  have hdone : m.openCalls [] [.step, .step] = some [] := by decide +kernel
  have hplace : m.computer.cpu.sp.toNat % 16 = 0 := by decide
  have hm := callStack_refines_ring m (by decide)
  exact ⟨m, rfl, hcall, (hm.2 _ _ hcall).1 _ _ rfl hret, ((hm.2 _ _ hdone).2 rfl).trans hplace⟩

end Machine
end ChipEight
