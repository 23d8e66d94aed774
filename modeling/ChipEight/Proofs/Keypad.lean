import ChipEight.Keypad

/-!
# ChipEight.Proofs.Keypad

Which keys are down, and when a press edge comes.

* `isDown_set`  — a key is where it was moved to.
* `set_pressed` — a press edge comes from a key that goes down and was up; `pressed_iff` says that
  it comes from every such key.
-/

namespace ChipEight
namespace Keypad

variable {k k' : Keypad} {key : Byte} {down : Bool} {edge : Option KeyEdge}

theorem set_keys (h : k.set key down = .ok (k', edge)) :
    ∃ hkey : key.toNat < 16, k' = ⟨k.keys.set key.toNat down hkey⟩ := by
  unfold set at h
  split at h
  case isTrue hkey =>
    cases h
    exact ⟨hkey, rfl⟩
  case isFalse => cases h

theorem isDown_set (h : k.set key down = .ok (k', edge)) (other : Byte) :
    k'.isDown other = if other = key then down else k.isDown other := by
  obtain ⟨hkey, rfl⟩ := set_keys h
  unfold isDown
  by_cases hsame : other = key
  · subst hsame
    simp [hkey]
  · have hne : key.toNat ≠ other.toNat := fun heq => hsame (BitVec.eq_of_toNat_eq heq.symm)
    simp [hsame, Vector.getElem?_set_ne, hne]

theorem isDown_eq (hkey : key.toNat < 16) : k.isDown key = k.keys[key.toNat] := by
  simp [isDown, hkey]

theorem set_pressed {digit : Key} (h : k.set key down = .ok (k', some (.pressed digit))) :
    digit.val = key.toNat ∧ down = true ∧ k.isDown key = false := by
  obtain ⟨hkey, -⟩ := set_keys h
  rw [isDown_eq hkey]
  unfold set at h
  rw [dif_pos hkey] at h
  cases hs : k.keys[key.toNat] <;> cases down <;> rw [hs] at h <;> cases h
  exact ⟨rfl, rfl, rfl⟩

theorem pressed_iff {digit : Key} :
    (∃ k', k.set key down = .ok (k', some (.pressed digit))) ↔
      digit.val = key.toNat ∧ down = true ∧ k.isDown key = false := by
  constructor
  · rintro ⟨k', h⟩
    exact set_pressed h
  · rintro ⟨hdigit, rfl, hup⟩
    have hkey : key.toNat < 16 := hdigit ▸ digit.isLt
    have hsame : digit = ⟨key.toNat, hkey⟩ := Fin.ext hdigit
    rw [isDown_eq hkey] at hup
    refine ⟨⟨k.keys.set key.toNat true hkey⟩, ?_⟩
    rw [set, dif_pos hkey, hup, hsame]

end Keypad
end ChipEight
