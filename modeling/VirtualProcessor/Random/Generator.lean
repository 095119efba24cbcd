import VirtualProcessor.Random.ChaCha

/-!
# Random numbers

The stream of words of the ChaCha block function, taken two at a time. A draw from a range multiplies
by the size of the range instead of dividing, with one more draw where the product is too close to call.
-/

namespace VirtualProcessor.Random

/-- A key, and how many words of its stream have been drawn. -/
structure Generator where
  key : Vector UInt32 8
  drawn : Nat
deriving DecidableEq, Repr

namespace Generator

/-- One step of the sequence that fills the key from a seed. -/
def seedStep (s : UInt64) : UInt64 := s * 6364136223846793005 + 11634580027462260723

/-- The word that a state of the sequence yields: the upper bits, rotated by the uppermost. -/
def seedWord (s : UInt64) : UInt32 :=
  let x := (((s >>> 18) ^^^ s) >>> 27).toUInt32
  let r := (s >>> 59).toUInt32
  (x >>> r) ||| (x <<< ((32 - r) % 32))

/-- The state of the sequence after `n` more steps. -/
def seedAfter : Nat → UInt64 → UInt64
  | 0, s => s
  | n + 1, s => seedAfter n (seedStep s)

def ofSeed (seed : UInt64) : Generator :=
  ⟨Vector.ofFn fun i : Fin 8 => seedWord (seedAfter (i.val + 1) seed), 0⟩

/-- Word `n` of the stream. -/
def word (g : Generator) (n : Nat) : UInt32 :=
  (block g.key (n / 16))[n % 16]

/-- The next two words as one number below `2 ^ 64`, the lower word first. -/
def next (g : Generator) : Nat × Generator :=
  ((g.word g.drawn).toNat + UInt32.size * (g.word (g.drawn + 1)).toNat, { g with drawn := g.drawn + 2 })

/-- A number from 0 up to but not including 1, with fifty-three random bits. -/
def unit (g : Generator) : Float × Generator :=
  let (x, g) := g.next
  (Float.ofNat (x / 2048) * Float.ofBits 0x3CA0000000000000, g)

/-- A number below `n`, where `0 < n < 2 ^ 64`. -/
def below (g : Generator) (n : Nat) : Nat × Generator :=
  let (x, g) := g.next
  let high := x * n / UInt64.size
  let low := x * n % UInt64.size
  if UInt64.size - n < low then
    let (y, g) := g.next
    (if UInt64.size ≤ low + y * n / UInt64.size then high + 1 else high, g)
  else (high, g)

/-- An integer between two bounds of sixty-four bits, both included. Where the bounds leave every pattern
of bits possible, the bits are taken as they come. -/
def between (g : Generator) (low high : Int) : Int × Generator :=
  let size := (high - low + 1).toNat
  if UInt64.size ≤ size then
    let (x, g) := g.next
    (Int.bmod x UInt64.size, g)
  else
    let (x, g) := g.below size
    (low + x, g)

end Generator

end VirtualProcessor.Random
