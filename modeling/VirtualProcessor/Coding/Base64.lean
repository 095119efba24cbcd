/-!
# Base64

Bytes as text over sixty-four letters, three bytes to a group of four letters, the last group filled
with `=`. Reading is strict: every letter belongs to the alphabet, the last group is filled exactly, and
the bits that carry no byte are zero. A fault is reported with the byte of the text and its offset.
-/

namespace VirtualProcessor.Coding.Base64

/-- What is wrong with a text. -/
inductive Fault where
  /-- A byte that cannot stand where it stands. -/
  | symbol (byte : UInt8) (offset : Nat)
  /-- The last group has fewer than two letters; the length counts the letters. -/
  | length (n : Nat)
  | padding
  /-- The last letter has bits that belong to no byte. -/
  | lastSymbol (byte : UInt8) (offset : Nat)
deriving DecidableEq, Repr

def Fault.message : Fault → String
  | symbol byte offset =>
    "Invalid symbol " ++ toString byte.toNat ++ ", offset " ++ toString offset ++ "."
  | length n => "Invalid input length: " ++ toString n
  | padding => "Invalid padding"
  | lastSymbol byte offset =>
    "Invalid last symbol " ++ toString byte.toNat ++ ", offset " ++ toString offset ++ "."

/-- The byte `=`. -/
def pad : UInt8 := 61

/-- The letter of a value below sixty-four. -/
def letter (v : Nat) : UInt8 :=
  if v < 26 then UInt8.ofNat (65 + v)
  else if v < 52 then UInt8.ofNat (71 + v)
  else if v < 62 then UInt8.ofNat (v - 4)
  else if v = 62 then 43
  else 47

def value? (b : UInt8) : Option Nat :=
  let n := b.toNat
  if 65 ≤ n ∧ n ≤ 90 then some (n - 65)
  else if 97 ≤ n ∧ n ≤ 122 then some (n - 71)
  else if 48 ≤ n ∧ n ≤ 57 then some (n + 4)
  else if n = 43 then some 62
  else if n = 47 then some 63
  else none

/-! ## Writing -/

def encode : List UInt8 → List UInt8
  | [] => []
  | [a] => [letter (a.toNat / 4), letter (a.toNat % 4 * 16), pad, pad]
  | [a, b] =>
    [letter (a.toNat / 4), letter (a.toNat % 4 * 16 + b.toNat / 16), letter (b.toNat % 16 * 4), pad]
  | a :: b :: c :: rest =>
    letter (a.toNat / 4) :: letter (a.toNat % 4 * 16 + b.toNat / 16) ::
      letter (b.toNat % 16 * 4 + c.toNat / 64) :: letter (c.toNat % 64) :: encode rest

/-- The text of bytes. Only letters of the alphabet and `=` occur in it. -/
def encodeText (bytes : List UInt8) : String :=
  String.ofList ((encode bytes).map fun b => Char.ofNat b.toNat)

/-! ## Reading -/

/-- The bytes of four values. -/
def joined (a b c d : Nat) : List UInt8 :=
  [UInt8.ofNat (a * 4 + b / 16), UInt8.ofNat (b % 16 * 16 + c / 4), UInt8.ofNat (c % 4 * 64 + d)]

/-- The value of a letter at an offset. -/
def valueAt (b : UInt8) (offset : Nat) : Except Fault Nat :=
  match value? b with
  | some v => .ok v
  | none => .error (.symbol b offset)

/-- The values of the last group: letters first, then `=`, which stands at the third place or later. The
offset of the first `=` and their number so far are carried along. -/
def lastGroup (start : Nat) : (position : Nat) → (fills : Nat) → List UInt8 →
    Except Fault (List Nat × Nat)
  | _, fills, [] => .ok ([], fills)
  | position, fills, b :: rest =>
    if b = pad then
      if position < 2 then .error (.symbol b (start + position))
      else lastGroup start (position + 1) (fills + 1) rest
    else if 0 < fills then .error (.symbol pad (start + position - fills))
    else do
      let v ← valueAt b (start + position)
      let (values, total) ← lastGroup start (position + 1) fills rest
      pure (v :: values, total)

/-- The bytes of the last group, once its letters are known. -/
def finish (start : Nat) (group : List UInt8) : Except Fault (List UInt8) := do
  let (values, fills) ← lastGroup start 0 0 group
  if values.length < 2 then .error (.length (start + values.length))
  else if (values.length + fills) % 4 ≠ 0 then .error .padding
  else
    match values with
    | [a, b] =>
      if b % 16 ≠ 0 then .error (.lastSymbol (letter b) (start + 1))
      else pure [UInt8.ofNat (a * 4 + b / 16)]
    | [a, b, c] =>
      if c % 4 ≠ 0 then .error (.lastSymbol (letter c) (start + 2))
      else pure [UInt8.ofNat (a * 4 + b / 16), UInt8.ofNat (b % 16 * 16 + c / 4)]
    | [a, b, c, d] => pure (joined a b c d)
    | _ => .error .padding

/-- Reads group by group. What is left when at most four bytes remain is the last group. -/
def groups (start : Nat) : List UInt8 → Except Fault (List UInt8)
  | [] => .ok []
  | a :: b :: c :: d :: e :: rest => do
    let va ← valueAt a start
    let vb ← valueAt b (start + 1)
    let vc ← valueAt c (start + 2)
    let vd ← valueAt d (start + 3)
    let others ← groups (start + 4) (e :: rest)
    pure (joined va vb vc vd ++ others)
  | group => finish start group

/-- The bytes of a text. A single byte behind the last full group is looked at before all others. -/
def decode (text : List UInt8) : Except Fault (List UInt8) :=
  match text.getLast? with
  | some last =>
    if text.length % 4 = 1 ∧ last ≠ pad ∧ value? last = none then
      .error (.symbol last (text.length - 1))
    else groups 0 text
  | none => .ok []

end VirtualProcessor.Coding.Base64
