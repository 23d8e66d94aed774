import ChipEight.Screen

/-!
# ChipEight.Proofs.Picture

The pixels of a sprite's row on the 64 columns of a picture.

* `stripe_getMsbD` — the row moved to column `x`, bit by bit.
* `leading`        — the first bits of a row, to follow a row while it is drawn; one bit more is one
  column more (`stripe_leading_succ`).
-/

namespace ChipEight
namespace Picture

theorem row_ne_zero_iff {width : Nat} (r : BitVec width) :
    r ≠ 0 ↔ ∃ c, c < width ∧ r.getMsbD c = true := by
  constructor
  · intro h
    refine Decidable.byContradiction fun hno => h (BitVec.eq_of_getMsbD_eq fun c hc => ?_)
    show r.getMsbD c = (BitVec.ofNat width 0).getMsbD c
    rw [BitVec.getMsbD_zero]
    exact Bool.eq_false_iff.mpr fun hbit => hno ⟨c, hc, hbit⟩
  · rintro ⟨c, _, hbit⟩ rfl
    simp at hbit

/-- The row below, from the last one round to the first. -/
theorem next_row (y : Nat) : Fin.ofNat 32 y + 1 = Fin.ofNat 32 (y + 1) := by
  apply Fin.ext
  simp [Fin.val_add]

theorem stripe_getMsbD (bits : Byte) (x : Nat) {c : Nat} (hc : c < 64) :
    (stripe bits x).getMsbD c = bits.getMsbD ((c + 64 - x % 64) % 64) := by
  have hshift : ∀ k, (bits.setWidth 64 <<< 56).getMsbD k = bits.getMsbD k := by
    intro k
    simp
  rw [stripe, BitVec.getMsbD_rotateRight, hshift, hshift]
  have hx := Nat.mod_lt x (show 0 < 64 by decide)
  by_cases h : c < x % 64
  · rw [if_pos h, show 64 + c - x % 64 = c + 64 - x % 64 by omega]
    simp [hc]
  · rw [if_neg h, show (c + 64 - x % 64) % 64 = c - x % 64 by omega]
    simp [hc]

/-- The first `k` bits of a row, and no others. -/
def leading (k : Nat) (bits : Byte) : Byte := bits >>> (8 - k) <<< (8 - k)

theorem leading_getMsbD (k : Nat) (bits : Byte) (i : Nat) :
    (leading k bits).getMsbD i = (decide (i < k) && bits.getMsbD i) := by
  rw [leading, BitVec.getMsbD_shiftLeft, BitVec.getMsbD_ushiftRight]
  by_cases hk : i < k
  · by_cases hi : i < 8
    · simp [hk, show i + (8 - k) < 8 by omega]
    · simp [hk, show ¬ i + (8 - k) < 8 by omega, BitVec.getMsbD_of_ge bits i (by omega)]
  · simp [hk]
    omega

theorem leading_zero (bits : Byte) : leading 0 bits = 0 := by
  apply BitVec.eq_of_getMsbD_eq
  intro i _
  simp [leading_getMsbD]

theorem leading_eight (bits : Byte) : leading 8 bits = bits := by
  apply BitVec.eq_of_getMsbD_eq
  intro i hi
  simp [leading_getMsbD, hi]

theorem stripe_zero (x : Nat) : stripe 0 x = 0 := by
  apply BitVec.eq_of_getMsbD_eq
  intro c hc
  simp [stripe_getMsbD _ _ hc]

/-- In a column, the first `k + 1` bits of a row show what the first `k` do, and bit `k` too. -/
theorem stripe_leading_succ (bits : Byte) (x k : Nat) {c : Nat} (hc : c < 64) (hk : k < 8) :
    (stripe (leading (k + 1) bits) x).getMsbD c =
      ((stripe (leading k bits) x).getMsbD c || (bits.getMsbD k && c == (x + k) % 64)) := by
  rw [stripe_getMsbD _ _ hc, stripe_getMsbD _ _ hc, leading_getMsbD, leading_getMsbD]
  by_cases h : c = (x + k) % 64
  · have hbit : (c + 64 - x % 64) % 64 = k := by omega
    rw [hbit]
    simp [h]
  · have hbit : (c + 64 - x % 64) % 64 ≠ k := by omega
    simp only [beq_eq_false_iff_ne.mpr h, Bool.and_false, Bool.or_false]
    congr 1
    exact decide_eq_decide.mpr (by omega)

/-- The column of bit `k` is still free when the bits before it are drawn. -/
theorem stripe_leading_self (bits : Byte) (x k : Nat) (hk : k < 8) :
    (stripe (leading k bits) x).getMsbD ((x + k) % 64) = false := by
  rw [stripe_getMsbD _ _ (Nat.mod_lt _ (by decide)), leading_getMsbD]
  have hbit : ((x + k) % 64 + 64 - x % 64) % 64 = k := by omega
  simp [hbit]

/-- A row has a lit pixel under the first `k + 1` bits if it has one under the first `k`, or under
bit `k`. -/
theorem and_stripe_leading_succ (r : BitVec 64) (bits : Byte) (x k : Nat) (hk : k < 8) :
    (r &&& stripe (leading (k + 1) bits) x != 0) =
      ((r &&& stripe (leading k bits) x != 0) ||
        (bits.getMsbD k && r.getMsbD ((x + k) % 64))) := by
  rw [Bool.eq_iff_iff, Bool.or_eq_true, bne_iff_ne, bne_iff_ne, row_ne_zero_iff, row_ne_zero_iff,
    Bool.and_eq_true]
  constructor
  · rintro ⟨c, hc, hbit⟩
    rw [BitVec.getMsbD_and, stripe_leading_succ bits x k hc hk, Bool.and_eq_true,
      Bool.or_eq_true, Bool.and_eq_true, beq_iff_eq] at hbit
    rcases hbit with ⟨hr, hs | ⟨hk', rfl⟩⟩
    · exact .inl ⟨c, hc, by rw [BitVec.getMsbD_and, hr, hs]; rfl⟩
    · exact .inr ⟨hk', hr⟩
  · rintro (⟨c, hc, hbit⟩ | ⟨hk', hr⟩)
    · rw [BitVec.getMsbD_and, Bool.and_eq_true] at hbit
      refine ⟨c, hc, ?_⟩
      rw [BitVec.getMsbD_and, stripe_leading_succ bits x k hc hk, hbit.1, hbit.2]
      rfl
    · have hc : (x + k) % 64 < 64 := Nat.mod_lt _ (by decide)
      refine ⟨_, hc, ?_⟩
      rw [BitVec.getMsbD_and, stripe_leading_succ bits x k hc hk, hr, hk']
      simp

end Picture
end ChipEight
