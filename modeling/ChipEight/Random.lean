import ChipEight.Bank

/-!
# ChipEight.Random

The random bytes of a machine: the keystream of ChaCha with 12 rounds.

* `Random.Key`   — the eight words that make a stream; `Key.ofSeed` draws them from a seed.
* `Random.block` — sixteen words of keystream by block number.
* `Random.byte`  — byte `k` of the stream: the low byte of its word `k`, so that each byte uses up a
  whole word.
* `Random.next`  — the stream as it is consumed.
-/

namespace ChipEight

abbrev Random.Key := Vector UInt32 8

structure Random where
  key : Random.Key
  /-- How many bytes were taken. -/
  drawn : Nat
  deriving DecidableEq

namespace Random

abbrev Block := Bank UInt32

def rotateLeft (w amount : UInt32) : UInt32 := (w <<< amount) ||| (w >>> (32 - amount))

def rotateRight (w amount : UInt32) : UInt32 := (w >>> amount) ||| (w <<< (32 - amount))

/-! ## The key -/

def advance (s : UInt64) : UInt64 := s * 6364136223846793005 + 11634580027462260723

/-- The key word that a generator state gives. -/
def permute (s : UInt64) : UInt32 :=
  rotateRight (((s >>> 18) ^^^ s) >>> 27).toUInt32 (s >>> 59).toUInt32

/-- The generator state behind key word `i`. -/
def keyState (seed : UInt64) : Nat → UInt64
  | 0 => advance seed
  | i + 1 => advance (keyState seed i)

def Key.ofSeed (seed : UInt64) : Key := Vector.ofFn fun i => permute (keyState seed i.val)

/-! ## The keystream -/

def quarterRound (s : Block) (a b c d : Fin 16) : Block :=
  let s := s.write a (s.read a + s.read b)
  let s := s.write d (rotateLeft (s.read d ^^^ s.read a) 16)
  let s := s.write c (s.read c + s.read d)
  let s := s.write b (rotateLeft (s.read b ^^^ s.read c) 12)
  let s := s.write a (s.read a + s.read b)
  let s := s.write d (rotateLeft (s.read d ^^^ s.read a) 8)
  let s := s.write c (s.read c + s.read d)
  s.write b (rotateLeft (s.read b ^^^ s.read c) 7)

def columnRound (s : Block) : Block :=
  let s := quarterRound s 0 4 8 12
  let s := quarterRound s 1 5 9 13
  let s := quarterRound s 2 6 10 14
  quarterRound s 3 7 11 15

def diagonalRound (s : Block) : Block :=
  let s := quarterRound s 0 5 10 15
  let s := quarterRound s 1 6 11 12
  let s := quarterRound s 2 7 8 13
  quarterRound s 3 4 9 14

/-- Constants, key and a 64-bit block number; the last two words stay 0. -/
def blockStart (key : Key) (number : Nat) : Block :=
  let constants : Vector UInt32 4 := #v[0x61707865, 0x3320646e, 0x79622d32, 0x6b206574]
  let counter : Vector UInt32 4 :=
    #v[UInt32.ofNat number, UInt32.ofNat (number >>> 32), 0, 0]
  constants ++ key ++ counter

def block (key : Key) (number : Nat) : Block :=
  let start := blockStart key number
  let mixed := Nat.repeat (fun s => diagonalRound (columnRound s)) 6 start
  Vector.zipWith (· + ·) start mixed

def byte (key : Key) (k : Nat) : BitVec 8 :=
  ((block key (k / 16)).read (Fin.ofNat 16 k)).toBitVec.setWidth 8

/-! ## The stream -/

def ofKey (key : Key) : Random := ⟨key, 0⟩

def ofSeed (seed : UInt64) : Random := .ofKey (.ofSeed seed)

def next (r : Random) : BitVec 8 × Random := (byte r.key r.drawn, { r with drawn := r.drawn + 1 })

end Random

end ChipEight
