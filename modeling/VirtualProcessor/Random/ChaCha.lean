/-!
# The ChaCha block function

Sixteen words are stirred by rounds of additions, exclusive ors and rotations, twice along the columns
and diagonals of a four by four square in each double round, and added to what they were at the start.
-/

namespace VirtualProcessor.Random

/-- The square of sixteen words. -/
abbrev Square := Vector UInt32 16

def rotateLeft (x : UInt32) (n : UInt32) : UInt32 := (x <<< n) ||| (x >>> (32 - n))

def quarterRound (s : Square) (a b c d : Fin 16) : Square :=
  let s := s.set a (s[a] + s[b])
  let s := s.set d (rotateLeft (s[d] ^^^ s[a]) 16)
  let s := s.set c (s[c] + s[d])
  let s := s.set b (rotateLeft (s[b] ^^^ s[c]) 12)
  let s := s.set a (s[a] + s[b])
  let s := s.set d (rotateLeft (s[d] ^^^ s[a]) 8)
  let s := s.set c (s[c] + s[d])
  s.set b (rotateLeft (s[b] ^^^ s[c]) 7)

/-- A round along the columns, then one along the diagonals. -/
def doubleRound (s : Square) : Square :=
  let s := quarterRound s 0 4 8 12
  let s := quarterRound s 1 5 9 13
  let s := quarterRound s 2 6 10 14
  let s := quarterRound s 3 7 11 15
  let s := quarterRound s 0 5 10 15
  let s := quarterRound s 1 6 11 12
  let s := quarterRound s 2 7 8 13
  quarterRound s 3 4 9 14

/-- Applies `n` double rounds. -/
def stir : Nat → Square → Square
  | 0, s => s
  | n + 1, s => stir n (doubleRound s)

/-- The square for a key of eight words and a block number: constants, key, number, and two zeros. -/
def start (key : Vector UInt32 8) (block : Nat) : Square :=
  #v[0x61707865, 0x3320646e, 0x79622d32, 0x6b206574,
    key[0], key[1], key[2], key[3], key[4], key[5], key[6], key[7],
    UInt32.ofNat (block % UInt32.size), UInt32.ofNat (block / UInt32.size), 0, 0]

/-- The words of a block, with twelve rounds. -/
def block (key : Vector UInt32 8) (number : Nat) : Square :=
  let s := start key number
  s.zipWith (· + ·) (stir 6 s)

end VirtualProcessor.Random
