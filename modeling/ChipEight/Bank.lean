/-!
# ChipEight.Bank

Sixteen of a kind, each named by a hexadecimal digit: the registers, the slots of the call stack,
the keys, and the words of a block of random bytes.
-/

namespace ChipEight

/-- There are digits, so numerals can name them. -/
instance digitsNeZero : @NeZero Nat Zero.ofOfNat0 16 := ⟨by decide⟩

abbrev Bank (α : Type) := Vector α 16

namespace Bank

variable {α : Type}

def read (b : Bank α) (i : Fin 16) : α := b[i.val]

def write (b : Bank α) (i : Fin 16) (a : α) : Bank α := Vector.set b i.val a i.isLt

theorem read_write (b : Bank α) (i j : Fin 16) (a : α) :
    (b.write i a).read j = if i = j then a else b.read j := by
  simp only [read, write, Vector.getElem_set, Fin.ext_iff]

end Bank

end ChipEight
