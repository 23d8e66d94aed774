import ChipEight.Word

/-!
# ChipEight.Host.Keyboard

The four left columns of the host's keyboard stand for the keypad.

```text
1 2 3 C      1 2 3 4
4 5 6 D  ->  Q W E R
7 8 9 E  ->  A S D F
A 0 B F      Z X C V
```
-/

namespace ChipEight
namespace Host

/-- The host's key for each key of the keypad, from 0 to F, by name. -/
def layout : Vector String 16 :=
  #v["X", "Num1", "Num2", "Num3", "Q", "W", "E", "A", "S", "D", "Z", "C", "Num4", "R", "F", "V"]

/-- The key of the keypad that a host's key stands for. -/
def keypadKey? (name : String) : Option Key := layout.finIdxOf? name

end Host
end ChipEight
