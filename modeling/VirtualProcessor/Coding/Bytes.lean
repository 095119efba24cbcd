/-!
# Values as bytes

A compact form for values: natural numbers take one byte while they are small, texts and sequences are
preceded by their length, and nothing is named or padded. For each kind of value there is a writer,
`T → List UInt8`, and a reader that takes the value from the front of a byte string and hands back the
rest. A reader fails at the first byte that cannot be right and never looks behind what it reads.
-/

namespace VirtualProcessor.Coding

/-- Why bytes cannot be read. -/
inductive ReadError where
  /-- The bytes end inside a value. -/
  | unexpectedEnd
  /-- A number is announced wider than its type, or by a byte that announces none. -/
  | badWidth
  /-- The byte in front of an optional value is neither 0 nor 1. -/
  | badOption
  /-- An alternative is numbered beyond the last. -/
  | noAlternative
  /-- The bytes of a text are not UTF-8. -/
  | notText
deriving DecidableEq, Repr

/-- The word that names the failure in messages. -/
def ReadError.word : ReadError → String
  | unexpectedEnd => "UnexpectedEnd"
  | badWidth => "InvalidIntegerType"
  | badOption => "UnexpectedVariant"
  | noAlternative => "OtherString"
  | notText => "Utf8"

/-- Takes a value from the front of a byte string. -/
abbrev Reader := StateT (List UInt8) (Except ReadError)

namespace Reader

def fail {α : Type} (e : ReadError) : Reader α := throw e

/-- The next byte. -/
def byte : Reader UInt8 := fun bytes =>
  match bytes with
  | [] => .error .unexpectedEnd
  | b :: rest => .ok (b, rest)

/-- The next `n` bytes, all of them or none. -/
def take (n : Nat) : Reader (List UInt8) := fun bytes =>
  if n ≤ bytes.length then .ok (bytes.take n, bytes.drop n) else .error .unexpectedEnd

/-- `n` values one after the other. -/
def many {α : Type} (item : Reader α) : Nat → Reader (List α)
  | 0 => pure []
  | n + 1 => do
    let first ← item
    let others ← many item n
    pure (first :: others)

end Reader

/-! ## Natural numbers -/

/-- The lowest `k` bytes of a number, the least significant first. -/
def little : Nat → Nat → List UInt8
  | 0, _ => []
  | k + 1, n => UInt8.ofNat (n % 256) :: little k (n / 256)

/-- The number whose bytes these are, the least significant first. -/
def ofLittle : List UInt8 → Nat
  | [] => 0
  | b :: rest => b.toNat + 256 * ofLittle rest

/-- A number below 251 is its own byte; otherwise a marker tells how many bytes follow. -/
def writeNat (n : Nat) : List UInt8 :=
  if n < 251 then [UInt8.ofNat n]
  else if n < UInt16.size then 251 :: little 2 n
  else if n < UInt32.size then 252 :: little 4 n
  else 253 :: little 8 n

/-- How wide a number may be. -/
inductive Width where
  | half
  | word
  | double
deriving DecidableEq, Repr

/-- The number of bytes behind a marker, if numbers of the width may have that many. -/
def Width.bytes? (w : Width) (marker : UInt8) : Option Nat :=
  if marker = 251 then some 2
  else if marker = 252 then (if w = .half then none else some 4)
  else if marker = 253 then (if w = .double then some 8 else none)
  else none

/-- A number of the given width. A form longer than necessary is read too. -/
def readNat (w : Width) : Reader Nat := do
  let first ← Reader.byte
  if first < 251 then pure first.toNat
  else
    match w.bytes? first with
    | some k => do
      let bytes ← Reader.take k
      pure (ofLittle bytes)
    | none => Reader.fail .badWidth

/-! ## Signed numbers, bits and texts -/

/-- Signed numbers are counted outward from zero: 0, -1, 1, -2, 2 and so on. -/
def zigzag (i : Int64) : Nat :=
  if 0 ≤ i.toInt then 2 * i.toInt.toNat else 2 * (-i.toInt).toNat - 1

def unzigzag (n : Nat) : Int64 :=
  if n % 2 = 0 then Int64.ofInt (n / 2 : Nat) else Int64.ofInt (-((n / 2 : Nat) : Int) - 1)

def writeSigned (i : Int64) : List UInt8 := writeNat (zigzag i)

def readSigned : Reader Int64 := do
  let n ← readNat .double
  pure (unzigzag n)

def writeBits (bits : UInt64) : List UInt8 := little 8 bits.toNat

def readBits : Reader UInt64 := do
  let bytes ← Reader.take 8
  pure (UInt64.ofNat (ofLittle bytes))

def writeText (s : String) : List UInt8 :=
  writeNat s.toUTF8.size ++ s.toUTF8.data.toList

def readText : Reader String := do
  let size ← readNat .double
  let bytes ← Reader.take size
  match String.fromUTF8? ⟨bytes.toArray⟩ with
  | some s => pure s
  | none => Reader.fail .notText

/-! ## Optional values and sequences -/

def writeOption {α : Type} (write : α → List UInt8) : Option α → List UInt8
  | none => [0]
  | some a => 1 :: write a

def readOption {α : Type} (read : Reader α) : Reader (Option α) := do
  let tag ← Reader.byte
  if tag = 0 then pure none
  else if tag = 1 then do
    let a ← read
    pure (some a)
  else Reader.fail .badOption

def writeList {α : Type} (write : α → List UInt8) (items : List α) : List UInt8 :=
  writeNat items.length ++ items.flatMap write

def readList {α : Type} (read : Reader α) : Reader (List α) := do
  let n ← readNat .double
  Reader.many read n

end VirtualProcessor.Coding
