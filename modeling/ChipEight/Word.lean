import ChipEight.Bank

/-!
# ChipEight.Word

The numbers the machine is built from, and the ways it cuts them up.

* `Byte`, `Word`, `Address` — 8, 16 and 12 bits; all arithmetic on them wraps.
* `nibble`        — the hexadecimal digit of a number at a given place, place 0 being the last.
* `Word.ofBytes`  — two bytes as one word, the high byte first, as opcodes lie in memory.
* `Word.x`, `Word.y`, `Word.n`, `Word.nn`, `Word.nnn` — the operand fields of an opcode.
-/

namespace ChipEight

abbrev Byte := BitVec 8

abbrev Word := BitVec 16

/-- A place in the 4096 cells of memory. -/
abbrev Address := BitVec 12

/-- One of the registers V0 to VF. -/
abbrev Register := Fin 16

/-- One of the keys 0 to F. -/
abbrev Key := Fin 16

/-- The hexadecimal digit of `n` at `place`, counted from the right. -/
def nibble (place n : Nat) : Fin 16 := Fin.ofNat 16 (n >>> (4 * place))

namespace Word

def ofBytes (high low : Byte) : Word := high ++ low

def high (w : Word) : Byte := w.extractLsb' 8 8

def low (w : Word) : Byte := w.extractLsb' 0 8

/-- The word that four hexadecimal digits spell. -/
def ofNibbles (a b c d : Fin 16) : Word :=
  BitVec.ofNat 16 (((a.val * 16 + b.val) * 16 + c.val) * 16 + d.val)

/-- The leading digit, which selects the family of an opcode. -/
def group (w : Word) : Fin 16 := nibble 3 w.toNat

def x (w : Word) : Register := nibble 2 w.toNat

def y (w : Word) : Register := nibble 1 w.toNat

def n (w : Word) : Fin 16 := nibble 0 w.toNat

def nn (w : Word) : Byte := w.setWidth 8

def nnn (w : Word) : Address := w.setWidth 12

end Word

end ChipEight
