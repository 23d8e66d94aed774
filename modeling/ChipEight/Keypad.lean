import ChipEight.Error

/-!
# ChipEight.Keypad

Sixteen keys, each up or down. `Keypad.set` reports an edge only when a key changes.
-/

namespace ChipEight

inductive KeyEdge where
  | pressed (key : Key)
  | released (key : Key)
  deriving DecidableEq

structure Keypad where
  keys : Bank Bool
  deriving DecidableEq

namespace Keypad

abbrev size : Nat := 16

def released : Keypad := ⟨Vector.replicate size false⟩

/-- Numbers above F name no key and are never down. -/
def isDown (k : Keypad) (key : Byte) : Bool := k.keys[key.toNat]?.getD false

def set (k : Keypad) (key : Byte) (down : Bool) : Except Error (Keypad × Option KeyEdge) :=
  if h : key.toNat < size then
    let edge :=
      match k.keys[key.toNat], down with
      | false, true => some (.pressed ⟨key.toNat, h⟩)
      | true, false => some (.released ⟨key.toNat, h⟩)
      | _, _ => none
    .ok (⟨k.keys.set key.toNat down h⟩, edge)
  else .error (.invalidKey key)

end Keypad

end ChipEight
