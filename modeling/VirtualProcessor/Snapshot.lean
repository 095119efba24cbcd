import VirtualProcessor.Number.Layout
import VirtualProcessor.Text.Padding
import VirtualProcessor.Text.Quoted

/-!
# Snapshots

What a host sees of a machine right after an instruction, as a record, as one line of JSON, and as text
that marks what has changed since the snapshot before.
-/

namespace VirtualProcessor

structure Snapshot where
  frame : UInt32 := 0
  line : UInt32 := 0
  rawText : String := ""
  text : String := ""
  encoded : String := ""
  stackPointer : UInt32 := 0
  returnAddress : UInt32 := 0
  registers : Array Float := #[]
  stack : Array Float := #[]
  memory : Array Float := #[]
  blocks : Array Nat := #[]

namespace Snapshot

def sameNumbers (xs ys : Array Float) : Bool :=
  xs.size == ys.size && (xs.zip ys).all fun (x, y) => x == y

/-- Equality that compares numbers as numbers. -/
def same (a b : Snapshot) : Bool :=
  a.frame == b.frame && a.line == b.line && a.rawText == b.rawText && a.text == b.text &&
    a.encoded == b.encoded && a.stackPointer == b.stackPointer &&
    a.returnAddress == b.returnAddress && sameNumbers a.registers b.registers &&
    sameNumbers a.stack b.stack && sameNumbers a.memory b.memory && a.blocks == b.blocks

/-! ## JSON -/

/-- Numbers in JSON have a point or an exponent; powers of ten from -5 to 15 are written with all places,
and what is no finite number is `null`. -/
def numberLayout : Number.Layout where
  tie := .even
  places := some (-5, 16)
  pointZero := true
  notANumber := "null".toList
  infinity := "null".toList
  negativeInfinity := "null".toList

def jsonField (key value : String) : String := "\"" ++ key ++ "\":" ++ value

def jsonList (items : List String) : String := "[" ++ ",".intercalate items ++ "]"

def jsonNumbers (xs : Array Float) : String :=
  jsonList (xs.toList.map fun x => String.ofList (numberLayout.chars x))

/-- One line of JSON, without blanks, the fields in their order. -/
def toJson (s : Snapshot) : String :=
  let fields :=
    [jsonField "frame" (toString s.frame.toNat), jsonField "line" (toString s.line.toNat),
      jsonField "raw_instruction" (Text.quoted s.rawText),
      jsonField "preprocessed_instruction" (Text.quoted s.text),
      jsonField "encoded_instruction" (Text.quoted s.encoded),
      jsonField "stack_pointer" (toString s.stackPointer.toNat),
      jsonField "return_address" (toString s.returnAddress.toNat),
      jsonField "registers" (jsonNumbers s.registers), jsonField "stack" (jsonNumbers s.stack),
      jsonField "memory" (jsonNumbers s.memory),
      jsonField "memory_blocks" (jsonList (s.blocks.toList.map toString))]
  "\x7b" ++ ",".intercalate fields ++ "\x7d"

/-! ## Text -/

/-- A number as it stands in a trace: a whole number below `10 ^ 15` without sign of zero, any other in the
plain layout. -/
def number (x : Float) : String :=
  if Number.isWhole x && x.abs < 1e15 then toString (Number.toSignedWide x).toInt else Number.text x

def mark (changed : Bool) : String := if changed then "*" else ""

/-- Whether a cell differs from the snapshot before; a cell that was not there does. -/
def cellChanged (previous : Option (Array Float)) (index : Nat) (x : Float) : Bool :=
  match previous with
  | none => false
  | some cells =>
    match cells[index]? with
    | some y => !(x == y)
    | none => true

def cellTexts (letter : String) (cells : Array Float) (previous : Option (Array Float)) :
    List String :=
  cells.toList.zipIdx.map fun (x, index) =>
    letter ++ toString index ++ "=" ++ number x ++ mark (cellChanged previous index x)

/-- The snapshot as lines of text; a star marks what differs from the snapshot before. -/
def format (s : Snapshot) (previous : Option Snapshot) : String :=
  let statement := if s.text.isEmpty then s.encoded else s.text
  let moved (get : Snapshot → UInt32) : String :=
    mark (match previous with | some p => get p != get s | none => false)
  let head :=
    "[" ++ Text.zeroPadded 6 s.frame.toNat ++ "] line " ++
      Text.padRight 4 (toString s.line.toNat) ++ " " ++ statement
  let pointers :=
    "         sp=" ++ toString s.stackPointer.toNat ++ moved (·.stackPointer) ++ " ra=" ++
      toString s.returnAddress.toNat ++ moved (·.returnAddress)
  let registers :=
    "         regs  " ++ " ".intercalate (cellTexts "r" s.registers (previous.map (·.registers)))
  let stack :=
    if s.stack.isEmpty then []
    else
      ["         stack " ++ " ".intercalate (cellTexts "s" s.stack (previous.map (·.stack)))]
  "\n".intercalate (head :: pointers :: registers :: stack)

end Snapshot

/-- How a host has snapshots written. -/
inductive Tracer.Mode where
  | json
  | text
deriving DecidableEq, Repr

/-- Writes snapshots one after the other; a text looks back at the snapshot before. -/
structure Tracer where
  mode : Tracer.Mode
  previous : Option Snapshot := none

namespace Tracer

def write (t : Tracer) (s : Snapshot) : String × Tracer :=
  match t.mode with
  | .json => (s.toJson, t)
  | .text => (s.format t.previous, { t with previous := some s })

def writeAll (t : Tracer) : List Snapshot → List String × Tracer
  | [] => ([], t)
  | s :: rest =>
    let (text, next) := t.write s
    let (texts, last) := next.writeAll rest
    (text :: texts, last)

end Tracer

end VirtualProcessor
