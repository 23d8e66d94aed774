import ChipEight.Proofs.Places

/-!
# ChipEight.Proofs.Transfer

Registers to memory and back. The range starts at any 16-bit index and comes round at the end of
memory, so no two of its cells are the same.

* `Memory.Holds` — the cells from an address on have V0 to VX in them.
* `Computer.store_holds`, `restore_holds` — FX55 puts them there, and FX65 takes them out again.
* `Computer.memory_store` — FX55 changes nothing where they are there already.
* `Computer.step_store`, `step_restore` — a step on each of the two.
* `store_restore_inverse` — the two on one range, in either order.
-/

namespace ChipEight

/-- The cells from an address on hold V0 to VX. -/
def Memory.Holds (m : Memory) (a : Word) (v : Bank Byte) (x : Register) : Prop :=
  ∀ r : Register, r.val ≤ x.val → m.cellAt (a.toNat + r.val) = v.read r

namespace Computer

variable (c : Computer) (x : Register)

theorem store_holds : (c.execute (.store x)).memory.Holds c.cpu.index c.cpu.v x := by
  intro r hr
  have hlength := c.length_registersTo x
  have hplace : r.val < (registersTo c.cpu x).length := by omega
  have hfits : (registersTo c.cpu x).length ≤ 4096 := by omega
  exact (c.memory.cellAt_writeRange c.cpu.index hfits hplace).trans
    (c.getElem_registersTo hplace r.isLt)

theorem restore_holds {r : Register} (hr : r.val ≤ x.val) :
    (c.execute (.restore x)).cpu.register r = c.memory.cellAt (c.cpu.index.toNat + r.val) := by
  have hplace : r.val < x.val + 1 := by omega
  show Bank.read (fillRegisters c.cpu.v 0 (c.memory.readRange c.cpu.index (x.val + 1))) r = _
  rw [read_fillRegisters, if_pos (Nat.zero_le _), Nat.sub_zero, Memory.readRange_eq_cellAt,
    List.getElem?_map, List.getElem?_range hplace]
  rfl

theorem register_restore_of_gt {r : Register} (hr : x.val < r.val) :
    (c.execute (.restore x)).cpu.register r = c.cpu.register r := by
  refine c.content_execute (i := .restore x) (p := .register r) nofun ?_
  rw [Instruction.writes, List.mem_cons, Place.register_mem_registersTo]
  rintro (hindex | hle)
  · cases hindex
  · exact Nat.not_lt_of_le hle hr

theorem cellAt_store_of_ne {j : Nat}
    (hj : ∀ k ≤ x.val, j % 4096 ≠ (c.cpu.index.toNat + k) % 4096) :
    (c.execute (.store x)).memory.cellAt j = c.memory.cellAt j := by
  refine c.content_execute (i := .store x) (p := .cellAt j) nofun ?_
  rw [Instruction.writes, List.mem_cons, Place.cellAt_mem_cells]
  rintro (hindex | ⟨k, hk, heq⟩)
  · cases hindex
  · exact hj k (Nat.le_of_lt_succ hk) heq

/-- Storing what is there already changes no cell. -/
theorem memory_store (h : c.memory.Holds c.cpu.index c.cpu.v x) :
    (c.execute (.store x)).memory = c.memory := by
  refine memory_eq_of_content (fun j => ?_) (Memory.writeRange_romLength _ _ _)
  rw [Place.cell_eq_cellAt, content_cellAt, content_cellAt]
  by_cases hinside : ∃ k ≤ x.val, j.val % 4096 = (c.cpu.index.toNat + k) % 4096
  · obtain ⟨k, hk, heq⟩ := hinside
    let r : Register := ⟨k, by omega⟩
    have hplace : ∀ m : Memory, m.cellAt j.val = m.cellAt (c.cpu.index.toNat + r.val) :=
      fun m => m.cellAt_congr heq
    rw [hplace, hplace, c.store_holds x r hk, h r hk]
  · exact c.cellAt_store_of_ne x fun k hk heq => hinside ⟨k, hk, heq⟩

theorem toNat_passRange (cpu : Cpu) :
    (passRange x cpu).index.toNat = (cpu.index.toNat + x.val + 1) % 65536 := by
  show (cpu.index + BitVec.ofNat 16 (x.val + 1)).toNat = _
  rw [BitVec.toNat_add, BitVec.toNat_ofNat]
  omega

variable {c x}

theorem step_store (hready : c.cpu.awaiting = none) (hop : c.fetch = Word.ofNibbles 0xF x 5 5) :
    ∃ stored log, c.step = .ok (.executed (.store x), stored, log) ∧
      stored.memory.Holds c.cpu.index c.cpu.v x ∧
      (∀ j, (∀ k ≤ x.val, j % 4096 ≠ (c.cpu.index.toNat + k) % 4096) →
        stored.memory.cellAt j = c.memory.cellAt j) ∧
      (c.memory.Holds c.cpu.index c.cpu.v x → stored.memory = c.memory) ∧
      stored.cpu.v = c.cpu.v ∧
      stored.cpu.index.toNat = (c.cpu.index.toNat + x.val + 1) % 65536 := by
  obtain ⟨log, hstep⟩ := c.step_of_encode (i := .store x) hready hop nofun nofun
  exact ⟨_, log, hstep, c.pastOpcode.store_holds x, fun j => c.pastOpcode.cellAt_store_of_ne x,
    c.pastOpcode.memory_store x, rfl, toNat_passRange x c.cpu⟩

theorem step_restore (hready : c.cpu.awaiting = none) (hop : c.fetch = Word.ofNibbles 0xF x 6 5) :
    ∃ restored log, c.step = .ok (.executed (.restore x), restored, log) ∧
      (∀ r, r.val ≤ x.val →
        restored.cpu.register r = c.memory.cellAt (c.cpu.index.toNat + r.val)) ∧
      (∀ r, x.val < r.val → restored.cpu.register r = c.cpu.register r) ∧
      restored.memory = c.memory ∧
      restored.cpu.index.toNat = (c.cpu.index.toNat + x.val + 1) % 65536 ∧
      restored.cpu.awaiting = none := by
  obtain ⟨log, hstep⟩ := c.step_of_encode (i := .restore x) hready hop nofun nofun
  exact ⟨_, log, hstep, fun r => c.pastOpcode.restore_holds x,
    fun r => c.pastOpcode.register_restore_of_gt x, rfl, toNat_passRange x c.cpu, hready⟩

variable (c x)

/-- FX55 puts V0 to VX in the cells from the index on, one each, and in no other ones, and moves the
index past them. Whenever the index is back, and the cells are as FX55 left them, FX65 brings those
registers back, leaves the others and the memory alone, and moves the index past the range as well.
The other way round, once FX65 has read a range, FX55 on that range changes nothing in memory. -/
theorem store_restore_inverse (hready : c.cpu.awaiting = none) :
    let start := c.cpu.index.toNat
    (c.fetch = Word.ofNibbles 0xF x 5 5 →
      ∃ stored log, c.step = .ok (.executed (.store x), stored, log) ∧
        stored.memory.Holds c.cpu.index c.cpu.v x ∧
        (∀ j, (∀ k ≤ x.val, j % 4096 ≠ (start + k) % 4096) →
          stored.memory.cellAt j = c.memory.cellAt j) ∧
        stored.cpu.v = c.cpu.v ∧
        stored.cpu.index.toNat = (start + x.val + 1) % 65536 ∧
        ∀ d : Computer, d.cpu.awaiting = none → d.fetch = Word.ofNibbles 0xF x 6 5 →
          d.cpu.index = c.cpu.index →
          (∀ k ≤ x.val, d.memory.cellAt (start + k) = stored.memory.cellAt (start + k)) →
          ∃ restored log', d.step = .ok (.executed (.restore x), restored, log') ∧
            (∀ r, r.val ≤ x.val → restored.cpu.register r = c.cpu.register r) ∧
            (∀ r, x.val < r.val → restored.cpu.register r = d.cpu.register r) ∧
            restored.memory = d.memory ∧
            restored.cpu.index.toNat = (start + x.val + 1) % 65536) ∧
    (c.fetch = Word.ofNibbles 0xF x 6 5 →
      ∃ restored log, c.step = .ok (.executed (.restore x), restored, log) ∧
        restored.memory = c.memory ∧
        ∀ d : Computer, d.cpu.awaiting = none → d.fetch = Word.ofNibbles 0xF x 5 5 →
          d.cpu.index = c.cpu.index →
          (∀ k ≤ x.val, d.memory.cellAt (start + k) = c.memory.cellAt (start + k)) →
          (∀ r, r.val ≤ x.val → d.cpu.register r = restored.cpu.register r) →
          ∃ stored log', d.step = .ok (.executed (.store x), stored, log') ∧
            stored.memory = d.memory) := by
  intro start
  refine ⟨fun hop => ?_, fun hop => ?_⟩
  · obtain ⟨stored, log, hstep, hholds, hothers, -, hv, hindex⟩ := step_store hready hop
    refine ⟨stored, log, hstep, hholds, hothers, hv, hindex, ?_⟩
    intro d hready' hop' hback hcells
    obtain ⟨restored, log', hstep', hlow, hhigh, hmemory, hindex', -⟩ := step_restore hready' hop'
    rw [hback] at hlow hindex'
    refine ⟨restored, log', hstep', ?_, hhigh, hmemory, hindex'⟩
    intro r hr
    calc restored.cpu.register r
      _ = d.memory.cellAt (start + r.val) := hlow r hr
      _ = stored.memory.cellAt (start + r.val) := hcells r.val hr
      _ = c.cpu.register r := hholds r hr
  · obtain ⟨restored, log, hstep, hlow, -, hmemory, -⟩ := step_restore hready hop
    refine ⟨restored, log, hstep, hmemory, ?_⟩
    intro d hready' hop' hback hcells hregisters
    obtain ⟨stored, log', hstep', -, -, hsame, -⟩ := step_store hready' hop'
    refine ⟨stored, log', hstep', hsame ?_⟩
    intro r hr
    rw [hback]
    calc d.memory.cellAt (start + r.val)
      _ = c.memory.cellAt (start + r.val) := hcells r.val hr
      _ = restored.cpu.register r := (hlow r hr).symm
      _ = d.cpu.register r := (hregisters r hr).symm

/-- Four registers from the last two cells of memory on, over the first two: stored and, from other
registers, restored; and restored and stored. -/
theorem store_restore_inverse_wrapping :
    ∃ c stored d restored : Computer, ∃ log log',
      c.cpu.awaiting = none ∧ c.cpu.index = 0xFFFE ∧ c.cpu.v.toList.take 4 = [7, 8, 9, 10] ∧
      c.fetch = Word.ofNibbles 0xF 3 5 5 ∧
      c.step = .ok (.executed (.store 3), stored, log) ∧
      stored.memory.cellAt 0xFFF = 8 ∧ stored.memory.cellAt 0 = 9 ∧ stored.cpu.index.toNat = 2 ∧
      d = { stored with cpu := { Cpu.initial c.cpu.random with pc := 0x202, index := 0xFFFE } } ∧
      d.fetch = Word.ofNibbles 0xF 3 6 5 ∧
      d.step = .ok (.executed (.restore 3), restored, log') ∧
      restored.cpu.register 3 = 10 ∧ restored.cpu.register 4 = 0 ∧
      restored.cpu.index.toNat = 2 ∧
      ∃ e loaded f kept : Computer, ∃ log log',
        e.fetch = Word.ofNibbles 0xF 3 6 5 ∧
        e.step = .ok (.executed (.restore 3), loaded, log) ∧
        f = { loaded with cpu := { e.cpu with v := loaded.cpu.v, pc := 0x202 } } ∧
        f.fetch = Word.ofNibbles 0xF 3 5 5 ∧
        f.step = .ok (.executed (.store 3), kept, log') ∧ kept.memory = e.memory := by
  let cpu := Cpu.initial (.ofSeed 0)
  let machine (code : List Byte) : Computer :=
    { cpu := { cpu with v := fillRegisters cpu.v 0 [7, 8, 9, 10], index := 0xFFFE }
      memory := Memory.blank.writeRange 0x200 code
      screen := Screen.blank
      keypad := .released }
  let c := machine [0xF3, 0x55, 0xF3, 0x65]
  let e := machine [0xF3, 0x65, 0xF3, 0x55]
  have hstore : c.fetch = Word.ofNibbles 0xF 3 5 5 := by decide +kernel
  have hrestore : e.fetch = Word.ofNibbles 0xF 3 6 5 := by decide +kernel
  obtain ⟨stored, log, hstep, hholds, hothers, -, hindex, hback⟩ :=
    (c.store_restore_inverse 3 rfl).1 hstore
  obtain ⟨loaded, loadLog, hload, hmemory, hforth⟩ := (e.store_restore_inverse 3 rfl).2 hrestore
  let d : Computer :=
    { stored with cpu := { Cpu.initial c.cpu.random with pc := 0x202, index := 0xFFFE } }
  let f : Computer := { loaded with cpu := { e.cpu with v := loaded.cpu.v, pc := 0x202 } }
  have hrestore' : d.fetch = Word.ofNibbles 0xF 3 6 5 := by
    show Word.ofBytes (stored.memory.cellAt 0x202) (stored.memory.cellAt 0x203) = _
    rw [hothers 0x202 (by decide), hothers 0x203 (by decide)]
    decide +kernel
  have hstore' : f.fetch = Word.ofNibbles 0xF 3 5 5 := by
    show loaded.memory.readWord 0x202 = _
    rw [hmemory]
    decide +kernel
  obtain ⟨restored, log', hstep', hlow, hhigh, -, hindex'⟩ :=
    hback d rfl hrestore' rfl fun _ _ => rfl
  obtain ⟨kept, keepLog, hkeep, hkept⟩ :=
    hforth f rfl hstore' rfl (fun k _ => congrArg (Memory.cellAt · _) hmemory) fun _ _ => rfl
  have hlast : stored.memory.cellAt 0xFFFF = 8 := (hholds 1 (by decide)).trans (by decide)
  have hfirst : stored.memory.cellAt 0x10000 = 9 := (hholds 2 (by decide)).trans (by decide)
  exact ⟨c, stored, d, restored, log, log', rfl, rfl, by decide, hstore, hstep, hlast, hfirst,
    hindex.trans (by decide), rfl, hrestore', hstep', (hlow 3 (by decide)).trans (by decide),
    (hhigh 4 (by decide)).trans rfl, hindex'.trans (by decide), e, loaded, f, kept, loadLog,
    keepLog, hrestore, hload, rfl, hstore', hkeep, hkept.trans hmemory⟩

end Computer
end ChipEight
