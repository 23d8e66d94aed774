import ChipEight.Word

/-!
# ChipEight.Proofs.Bare.Storage

Storage that no type keeps in bounds. Every index, and every sum, difference or product that has to
fit its width, is checked; a check that fails is a `Hazard`.

* `get`, `put`     — one element of an array; `slice`, `copy` — consecutive ones.
* `add`, `sub`, `mul`, `shiftRight` — arithmetic that must not overflow.
* `countUp`        — a loop over 0, 1, .., and `countUp_ok`, its invariant rule.
-/

namespace ChipEight
namespace Bare

inductive Hazard where
  /-- An index or a range reaches past the end of an array. -/
  | outOfBounds
  /-- A result does not fit its width. -/
  | overflow
  /-- A case that was ruled out. -/
  | unreachable
  deriving DecidableEq

abbrev Checked (α : Type) := Except Hazard α

variable {α β σ : Type} {n w : Nat}

@[simp] theorem ok_bind (a : α) (f : α → Checked β) : (Except.ok a >>= f : Checked β) = f a := rfl

@[simp] theorem pure_eq_ok (a : α) : (pure a : Checked α) = Except.ok a := rfl

/-! ## Arrays -/

def get (v : Vector α n) (i : Nat) : Checked α :=
  if h : i < n then .ok v[i] else .error .outOfBounds

def put (v : Vector α n) (i : Nat) (a : α) : Checked (Vector α n) :=
  if h : i < n then .ok (v.set i a h) else .error .outOfBounds

/-- `length` elements from `start` on. -/
def slice (v : Vector α n) (start length : Nat) : Checked (List α) :=
  if start + length ≤ n then .ok ((v.toList.drop start).take length) else .error .outOfBounds

/-- Puts a list in place of the elements from `start` on. -/
def copy (v : Vector α n) (start : Nat) (as : List α) : Checked (Vector α n) :=
  if start + as.length ≤ n then
    .ok (Vector.ofFn fun i => if start ≤ i.val then as[i.val - start]?.getD v[i] else v[i])
  else .error .outOfBounds

theorem get_ok {v : Vector α n} {i : Nat} (h : i < n) : get v i = .ok v[i] := by
  simp [get, h]

theorem put_ok {v : Vector α n} {i : Nat} (a : α) (h : i < n) :
    put v i a = .ok (v.set i a h) := by
  simp [put, h]

theorem slice_ok {v : Vector α n} {start length : Nat} (h : start + length ≤ n) :
    slice v start length = .ok ((v.toList.drop start).take length) := by
  simp [slice, h]

theorem copy_ok {v : Vector α n} {start : Nat} {as : List α} (h : start + as.length ≤ n) :
    copy v start as =
      .ok (Vector.ofFn fun i => if start ≤ i.val then as[i.val - start]?.getD v[i] else v[i]) := by
  simp [copy, h]

/-! ## Arithmetic -/

def add (a b : BitVec w) : Checked (BitVec w) :=
  if BitVec.uaddOverflow a b then .error .overflow else .ok (a + b)

def sub (a b : BitVec w) : Checked (BitVec w) :=
  if BitVec.usubOverflow a b then .error .overflow else .ok (a - b)

def mul (a b : BitVec w) : Checked (BitVec w) :=
  if BitVec.umulOverflow a b then .error .overflow else .ok (a * b)

/-- A shift must stay below the width. -/
def shiftRight (a : BitVec w) (k : Nat) : Checked (BitVec w) :=
  if k < w then .ok (a >>> k) else .error .overflow

theorem add_ok {a b : BitVec w} (h : BitVec.uaddOverflow a b = false) : add a b = .ok (a + b) := by
  simp [add, h]

theorem sub_ok {a b : BitVec w} (h : b.toNat ≤ a.toNat) : sub a b = .ok (a - b) := by
  simp [sub, BitVec.usubOverflow, Nat.not_lt.mpr h]

theorem mul_ok {a b : BitVec w} (h : BitVec.umulOverflow a b = false) : mul a b = .ok (a * b) := by
  simp [mul, h]

theorem shiftRight_ok {a : BitVec w} {k : Nat} (h : k < w) : shiftRight a k = .ok (a >>> k) := by
  simp [shiftRight, h]

/-! ## Loops -/

/-- Runs `body` at 0, 1, .., `n - 1`. -/
def countUp (body : Nat → σ → Checked σ) : Nat → σ → Checked σ
  | 0, s => .ok s
  | n + 1, s => do
    let s ← countUp body n s
    body n s

/-- A loop that is in state `f k` before round `k` ends in state `f n`. -/
theorem countUp_ok {body : Nat → σ → Checked σ} {n : Nat} (f : Nat → σ)
    (h : ∀ k, k < n → body k (f k) = .ok (f (k + 1))) : countUp body n (f 0) = .ok (f n) := by
  induction n with
  | zero => rfl
  | succ n ih =>
    have hn : countUp body n (f 0) = .ok (f n) := ih fun k hk => h k (by omega)
    simp only [countUp, hn, ok_bind]
    exact h n (by omega)

theorem mapM_ok {f : α → Checked β} {g : α → β} {as : List α} (h : ∀ a ∈ as, f a = .ok (g a)) :
    as.mapM f = .ok (as.map g) := by
  induction as with
  | nil => rfl
  | cons a rest ih =>
    rw [List.mapM_cons, h a List.mem_cons_self, ok_bind,
      ih fun b hb => h b (List.mem_cons_of_mem a hb)]
    rfl

end Bare
end ChipEight
