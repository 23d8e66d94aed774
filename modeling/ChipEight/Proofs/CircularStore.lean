import ChipEight.Proofs.Bare.Memory
import Mathlib.Data.List.Induction

/-!
# ChipEight.Proofs.CircularStore

A memory is what was put into it.

* `Memory.Edit`          — a reset, a load or a write; `Memory.edited` is a new memory after
  a history of them.
* `Edit.byte?`, `Edit.loaded?` — the byte that an edit puts in a cell, and the ROM that it loads.
* `Memory.sinceReset`    — the edits that still count, the latest one first.
* `Memory.cellAt_edited` — each cell holds what was put there last, or else what the font has there.
* `Bare.edited_ok`       — the same history on plain storage stays in bounds, and ends the same.
* `edits_fill_store`     — these, with everything that can be read.
-/

namespace ChipEight
namespace Memory

inductive Edit where
  | reset
  | load (rom : List Byte)
  | write (a : Word) (value : Byte)
  deriving DecidableEq

namespace Edit

/-- The byte that an edit puts in a cell, if it puts one there. -/
def byte? (cell : Nat) : Edit → Option Byte
  | .reset => none
  | .load rom =>
    if rom.length ≤ capacity ∧ start.toNat ≤ cell then rom[cell - start.toNat]? else none
  | .write a value => if a.toNat % 4096 = cell then some value else none

/-- The length of the ROM that an edit loads, if it loads one. -/
def loaded? : Edit → Option Nat
  | .load rom => if rom.length ≤ capacity then some rom.length else none
  | _ => none

end Edit

/-- The memory after an edit; a load that is refused leaves it alone. -/
def edit (m : Memory) : Edit → Memory
  | .reset => blank
  | .load rom => (m.load rom).toOption.getD m
  | .write a value => m.write a value

def edited (history : List Edit) : Memory := history.foldl edit blank

/-- The edits since the last reset, the latest one first. -/
def sinceReset (history : List Edit) : List Edit := history.reverse.takeWhile (· ≠ .reset)

variable (m : Memory) (history : List Edit)

theorem edited_append (e : Edit) : edited (history ++ [e]) = (edited history).edit e :=
  List.foldl_append

theorem sinceReset_append {e : Edit} (he : e ≠ .reset) :
    sinceReset (history ++ [e]) = e :: sinceReset history := by
  simp [sinceReset, he]

theorem sinceReset_append_reset : sinceReset (history ++ [.reset]) = [] := by
  simp [sinceReset]

/-! ## Loads -/

theorem load_refused {rom : List Byte} (h : capacity < rom.length) :
    m.load rom = .error (.romTooLarge rom.length capacity) :=
  if_pos h

theorem load_fits {rom : List Byte} (h : rom.length ≤ capacity) :
    m.load rom = .ok { m.writeRange start rom with romLength := rom.length } :=
  if_neg (Nat.not_lt.mpr h)

theorem edit_refused {rom : List Byte} (h : capacity < rom.length) : m.edit (.load rom) = m := by
  rw [edit, m.load_refused h]
  rfl

theorem edit_fits {rom : List Byte} (h : rom.length ≤ capacity) :
    m.edit (.load rom) = { m.writeRange start rom with romLength := rom.length } := by
  rw [edit, m.load_fits h]
  rfl

/-- A ROM covers the cells from the start on, as many as it is long, and no other. -/
theorem cellAt_edit_load {rom : List Byte} (h : rom.length ≤ capacity) (j : Nat) :
    (m.edit (.load rom)).cellAt j =
      if start.toNat ≤ j % 4096 then rom[j % 4096 - start.toNat]?.getD (m.cellAt j)
      else m.cellAt j := by
  have hfits : start.toNat + rom.length ≤ 4096 := by
    have hcapacity : capacity = 4096 - start.toNat := rfl
    have hstart : start.toNat = 0x200 := rfl
    omega
  rw [m.edit_fits h]
  exact m.cellAt_writeRange_of_fits start hfits j

theorem cellAt_edit_write (a : Word) (value : Byte) (j : Nat) :
    (m.edit (.write a value)).cellAt j =
      if a.toNat % 4096 = j % 4096 then value else m.cellAt j := by
  have hcell : (BitVec.ofNat 16 j).toNat % 4096 = j % 4096 := by
    rw [BitVec.toNat_ofNat]
    omega
  rw [edit, cellAt_eq_read, read_write, ← cellAt_eq_read]
  simp only [cell_eq_iff, hcell]

/-! ## Histories -/

theorem cellAt_edit {e : Edit} (he : e ≠ .reset) (j : Nat) :
    (m.edit e).cellAt j = (e.byte? (j % 4096)).getD (m.cellAt j) := by
  cases e with
  | reset => exact absurd rfl he
  | load rom =>
    rw [Edit.byte?]
    by_cases hrom : rom.length ≤ capacity
    · rw [m.cellAt_edit_load hrom]
      by_cases hj : start.toNat ≤ j % 4096
      · rw [if_pos hj, if_pos ⟨hrom, hj⟩]
      · rw [if_neg hj, if_neg fun h => hj h.2, Option.getD_none]
    · rw [m.edit_refused (Nat.lt_of_not_le hrom), if_neg fun h => hrom h.1, Option.getD_none]
  | write a value =>
    rw [m.cellAt_edit_write, Edit.byte?]
    split <;> rfl

theorem romLength_edit {e : Edit} (he : e ≠ .reset) :
    (m.edit e).romLength = e.loaded?.getD m.romLength := by
  cases e with
  | reset => exact absurd rfl he
  | load rom =>
    rw [Edit.loaded?]
    by_cases hrom : rom.length ≤ capacity
    · rw [m.edit_fits hrom, if_pos hrom]
      rfl
    · rw [m.edit_refused (Nat.lt_of_not_le hrom), if_neg hrom]
      rfl
  | write a value => rfl

theorem cellAt_edited (j : Nat) :
    (edited history).cellAt j =
      ((sinceReset history).findSome? (·.byte? (j % 4096))).getD (font.getD (j % 4096) 0) := by
  -- The latest edit puts a byte in the cell, or starts over, or leaves it to the earlier ones.
  induction history using List.reverseRecOn with
  | nil => exact cellAt_blank j
  | append_singleton earlier e ih =>
    by_cases he : e = .reset
    · subst he
      rw [edited_append, sinceReset_append_reset]
      exact cellAt_blank j
    · rw [edited_append, sinceReset_append _ he, cellAt_edit _ he, ih, List.findSome?_cons]
      cases e.byte? (j % 4096) <;> rfl

theorem romLength_edited :
    (edited history).romLength = ((sinceReset history).findSome? (·.loaded?)).getD 0 := by
  induction history using List.reverseRecOn with
  | nil => exact writeRange_romLength _ _ _
  | append_singleton earlier e ih =>
    by_cases he : e = .reset
    · subst he
      rw [edited_append, sinceReset_append_reset]
      exact writeRange_romLength _ _ _
    · rw [edited_append, sinceReset_append _ he, romLength_edit _ he, ih, List.findSome?_cons]
      cases e.loaded? <;> rfl

theorem romLength_edited_le : (edited history).romLength ≤ capacity := by
  have hloaded : ∀ e : Edit, ∀ n ∈ e.loaded?, n ≤ capacity := by
    intro e n hn
    cases e with
    | load rom =>
      rw [Edit.loaded?] at hn
      split at hn
      · cases hn
        assumption
      · cases hn
    | _ => cases hn
  rw [romLength_edited]
  cases hfound : (sinceReset history).findSome? (·.loaded?) with
  | none => exact Nat.zero_le _
  | some n =>
    obtain ⟨e, -, hn⟩ := List.exists_of_findSome?_eq_some hfound
    exact hloaded e n hn

end Memory

namespace Bare

def edit (m : Memory) : Memory.Edit → Checked Memory
  | .reset => blankMemory
  | .load rom => do
    let (_, m) ← loadRom m rom
    return m
  | .write a value => writeByte m a value

def edited (history : List Memory.Edit) : Checked Memory := do
  let m ← blankMemory
  history.foldlM edit m

theorem loadRom_ok (m : Memory) (rom : List Byte) :
    loadRom m rom =
      .ok ((m.load rom).map (·.romLength), m.edit (.load rom)) := by
  by_cases hrom : rom.length ≤ Memory.capacity
  · rw [loadRom_fits m hrom, m.load_fits hrom, m.edit_fits hrom]
    rfl
  · have hlarge : Memory.capacity < rom.length := Nat.lt_of_not_le hrom
    rw [loadRom, if_pos hlarge, m.load_refused hlarge, m.edit_refused hlarge]
    rfl

theorem edit_ok (m : Memory) (e : Memory.Edit) : edit m e = .ok (m.edit e) := by
  cases e with
  | reset => exact blankMemory_ok
  | load rom =>
    rw [edit, loadRom_ok]
    rfl
  | write a value => exact writeByte_ok m a value

theorem edited_ok (history : List Memory.Edit) : edited history = .ok (Memory.edited history) := by
  rw [edited, blankMemory_ok, ok_bind, Memory.edited]
  generalize Memory.blank = m
  induction history generalizing m with
  | nil => rfl
  | cons e rest ih => rw [List.foldlM_cons, edit_ok, ok_bind, ih, List.foldl_cons]

end Bare

namespace Memory

/-- Any history of edits on a new memory. On plain storage, with masked addresses and copied blocks,
it stays in bounds and ends the same. Every address then reads the byte that was put last, since the
last reset, in a cell that it is congruent to, by a write or by a ROM that fitted; or else the font
or zero. A ROM that does not fit is refused, and changes nothing; one that fits changes the cells
that it covers, and no others. The length of the ROM is that of the last one that fitted since the
last reset, and the program is what so many cells from the start on hold now. A word is two bytes,
the second at the next address, and a range of any length goes round the cells. -/
theorem edits_fill_store (history : List Edit) :
    let m := edited history
    Bare.edited history = .ok m ∧
    (∀ a : Word, Bare.readByte m a = .ok (m.read a) ∧
      m.read a =
        ((sinceReset history).findSome? (·.byte? (a.toNat % 4096))).getD
          (font.getD (a.toNat % 4096) 0)) ∧
    (∀ rom : List Byte, 3584 < rom.length →
      Bare.loadRom m rom = .ok (.error (.romTooLarge rom.length 3584), m) ∧
      edited (history ++ [.load rom]) = m) ∧
    (∀ rom : List Byte, rom.length ≤ 3584 →
      let loaded := edited (history ++ [.load rom])
      Bare.loadRom m rom = .ok (.ok rom.length, loaded) ∧
      (∀ k, (hk : k < rom.length) → loaded.cellAt (0x200 + k) = rom[k]) ∧
      ∀ j < 4096, (j < 0x200 ∨ 0x200 + rom.length ≤ j) → loaded.cellAt j = m.cellAt j) ∧
    m.romLength = ((sinceReset history).findSome? (·.loaded?)).getD 0 ∧
    (Bare.program m = .ok m.program ∧ m.program.length = m.romLength ∧
      m.program = (m.cells.toList.drop 0x200).take m.romLength) ∧
    (∀ a : Word, Bare.readWord m a = .ok (m.readWord a) ∧
      (m.readWord a).toNat = 256 * (m.read a).toNat + (m.read (a + 1)).toNat) ∧
    ∀ (a : Word) (length : Nat), Bare.readRange m a length = .ok (m.readRange a length) ∧
      (m.readRange a length).length = length ∧
      ∀ k < length, (m.readRange a length)[k]? = some (m.cellAt (a.toNat + k)) := by
  intro m
  have hcapacity : capacity = 3584 := rfl
  have hstart : start.toNat = 0x200 := rfl
  have hlength : m.romLength ≤ capacity := romLength_edited_le history
  refine ⟨Bare.edited_ok history, ?_, ?_, ?_, romLength_edited history, ?_, ?_, ?_⟩
  · intro a
    exact ⟨Bare.readByte_ok m a, cellAt_edited history a.toNat⟩
  · intro rom hrom
    rw [Bare.loadRom_ok, m.load_refused hrom, edited_append, m.edit_refused hrom]
    exact ⟨rfl, rfl⟩
  · intro rom hrom loaded
    have hloaded : loaded = m.edit (.load rom) := edited_append history (.load rom)
    rw [hloaded, Bare.loadRom_ok, m.load_fits hrom]
    refine ⟨rfl, ?_, ?_⟩
    · intro k hk
      have hplace : (0x200 + k) % 4096 = start.toNat + k := by omega
      rw [m.cellAt_edit_load hrom, hplace, if_pos (Nat.le_add_right _ _), Nat.add_sub_cancel_left,
        List.getElem?_eq_getElem hk, Option.getD_some]
    · intro j hj hother
      rw [m.cellAt_edit_load hrom, Nat.mod_eq_of_lt hj]
      rcases hother with hbefore | hbehind
      · rw [if_neg (by omega)]
      · rw [List.getElem?_eq_none (by omega), Option.getD_none, ite_self]
  · have hfits : 0x200 + m.romLength ≤ 4096 := by omega
    exact ⟨Bare.program_ok m hlength, m.length_readRange start m.romLength,
      m.readRange_eq_slice hfits⟩
  · intro a
    exact ⟨Bare.readWord_ok m a, Word.toNat_ofBytes _ _⟩
  · intro a length
    refine ⟨Bare.readRange_ok m a length, m.length_readRange a length, ?_⟩
    intro k hk
    rw [readRange_eq_cellAt, List.getElem?_map, List.getElem?_range hk]
    rfl

/-- Behind a shorter ROM the tail of a longer one shows, as it was written over. -/
example :
    let m := edited [.load [1, 2, 3], .write 0xF201 9, .load [7]]
    m.program = [7] ∧ m.read 0x201 = 9 ∧ m.read 0x1202 = 3 := by
  decide +kernel

end Memory
end ChipEight
