import VirtualProcessor.Operand
import VirtualProcessor.Operation

/-!
# Instructions
-/

namespace VirtualProcessor

/-- One statement of a program. The line is its place in the source and the address of jumps to it; the
two texts, as it was written and with aliases and labels replaced, serve diagnostics only. -/
structure Instruction where
  operation : Operation
  destination : Option Operand := none
  left : Option Operand := none
  right : Option Operand := none
  line : UInt32
  rawText : String := ""
  text : String := ""
deriving DecidableEq, Repr

namespace Instruction

/-- The operands that are present, in the order destination, left, right. -/
def operands (i : Instruction) : List Operand :=
  [i.destination, i.left, i.right].filterMap id

def encodedOperand : Option Operand → String
  | some op => ":" ++ toString op.typeCode ++ "." ++ Number.text op.packed
  | none => ":0.0"

/-- The compact form: the code of the operation, then kind and value of each operand. -/
def encoded (i : Instruction) : String :=
  toString i.operation.code ++ encodedOperand i.destination ++ encodedOperand i.left ++
    encodedOperand i.right

/-- The mnemonic followed by the operands that are present. -/
def decoded (i : Instruction) : String :=
  " ".intercalate (i.operation.mnemonic :: i.operands.map Operand.text)

/-- The instruction without its texts. -/
def stripped (i : Instruction) : Instruction := { i with rawText := "", text := "" }

def sameOperand : Option Operand → Option Operand → Bool
  | some a, some b => a.same b
  | none, none => true
  | _, _ => false

/-- Equality that compares numbers as numbers. -/
def same (a b : Instruction) : Bool :=
  a.operation == b.operation && sameOperand a.destination b.destination &&
    sameOperand a.left b.left && sameOperand a.right b.right && a.line == b.line &&
    a.rawText == b.rawText && a.text == b.text

end Instruction

end VirtualProcessor
