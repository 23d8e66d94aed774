import ChipEight.Hex
import ChipEight.Proofs.Decoding

/-!
# ChipEight.Proofs.Hex

Hexadecimal text, read back.

* `Hex.digit?`, `Hex.value?` — the digit that a character is, and the number that digits spell.
* `Hex.Fits`          — whether a number has at most so many digits.
* `Hex.value?_fixed`  — such a number is what its digits spell; `Hex.toList_padded` is its text.
* `Hex.fixed_word`, `Hex.word_eq` — a word is told by its four digits.
-/

namespace ChipEight
namespace Hex

/-- The digit that a character is. -/
def digit? (c : Char) : Option (Fin 16) := (List.finRange 16).find? fun d => digit d == c

/-- The number that a text of digits spells; an empty one spells zero. -/
def value? (text : List Char) : Option Nat :=
  text.foldlM (fun n c => (digit? c).map fun d => n * 16 + d.val) 0

theorem digit?_digit : ∀ d : Fin 16, digit? (digit d) = some d := by
  decide

theorem digit_injective {d e : Fin 16} (h : digit d = digit e) : d = e := by
  have hd := digit?_digit d
  rw [h, digit?_digit] at hd
  exact (Option.some.inj hd).symm

theorem isAlphanum_digit : ∀ d : Fin 16, (digit d).isAlphanum = true := by
  decide

@[simp] theorem length_fixed (width n : Nat) : (fixed width n).length = width := by
  induction width generalizing n with
  | zero => rfl
  | succ width ih => rw [fixed, List.length_append, ih, List.length_singleton]

theorem isAlphanum_of_mem_fixed {width n : Nat} {c : Char} (h : c ∈ fixed width n) :
    c.isAlphanum = true := by
  induction width generalizing n with
  | zero => cases h
  | succ width ih =>
    rw [fixed, List.mem_append, List.mem_singleton] at h
    rcases h with h | rfl
    · exact ih h
    · exact isAlphanum_digit _

/-! ## Numbers of so many digits -/

/-- A number that `width` digits can spell. -/
def Fits (width n : Nat) : Prop := n >>> (4 * width) = 0

theorem fits_digit (d : Fin 16) : Fits 1 d.val := by
  rw [Fits, Nat.shiftRight_eq_div_pow]
  omega

theorem fits_byte (b : Byte) : Fits 2 b.toNat := by
  have := b.isLt
  rw [Fits, Nat.shiftRight_eq_div_pow]
  omega

theorem fits_three {n : Nat} (h : n < 4096) : Fits 3 n := by
  rw [Fits, Nat.shiftRight_eq_div_pow]
  omega

theorem fits_word (w : Word) : Fits 4 w.toNat := by
  have := w.isLt
  rw [Fits, Nat.shiftRight_eq_div_pow]
  omega

theorem fits_div {width n : Nat} (h : Fits (width + 1) n) : Fits width (n / 16) := by
  have hfirst : n / 16 = n >>> 4 := (Nat.shiftRight_eq_div_pow n 4).symm
  rw [Fits, hfirst, ← Nat.shiftRight_add, Nat.add_comm]
  exact h

theorem length_le {width n : Nat} (hwidth : 0 < width) (h : Fits width n) : length n ≤ width := by
  rw [length]
  by_cases hn : n = 0
  · rw [hn, Nat.log2_zero]
    omega
  · have hbits : n.log2 < 4 * width := by
      rw [Nat.log2_lt hn]
      rwa [Fits, Nat.shiftRight_eq_div_pow, Nat.div_eq_zero_iff_lt (Nat.two_pow_pos _)] at h
    omega

/-- A number that fits its column is written with no more digits than that. -/
theorem toList_padded {width n : Nat} (hwidth : 0 < width) (h : Fits width n) :
    (padded width n).toList = fixed width n := by
  rw [padded, Nat.max_eq_left (length_le hwidth h), String.toList_ofList]

theorem value?_append (text : List Char) (d : Fin 16) :
    value? (text ++ [digit d]) = (value? text).map fun n => n * 16 + d.val := by
  rw [value?, List.foldlM_append, value?]
  cases text.foldlM (fun n c => (digit? c).map fun d => n * 16 + d.val) 0 with
  | none => rfl
  | some n => simp [digit?_digit]

theorem value?_fixed {width n : Nat} (h : Fits width n) : value? (fixed width n) = some n := by
  induction width generalizing n with
  | zero =>
    have hzero : n = 0 := h
    rw [hzero]
    rfl
  | succ width ih =>
    rw [fixed, value?_append, ih (fits_div h), Option.map_some, div_nibble]

/-! ## Words -/

theorem fixed_word (w : Word) :
    fixed 4 w.toNat = [digit w.group, digit w.x, digit w.y, digit w.n] := by
  simp [fixed, nibble_div, Word.group, Word.x, Word.y, Word.n]

/-- Words are told apart by their digits. -/
theorem word_eq {v w : Word} (h : fixed 4 v.toNat = fixed 4 w.toNat) : v = w := by
  have hv := value?_fixed (fits_word v)
  rw [h, value?_fixed (fits_word w)] at hv
  exact BitVec.eq_of_toNat_eq (Option.some.inj hv).symm

end Hex
end ChipEight
