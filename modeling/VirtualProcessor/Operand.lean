import VirtualProcessor.Number.Layout
import VirtualProcessor.Number.Stored

/-!
# Operands

Where an instruction reads a value from or writes a value to.
-/

namespace VirtualProcessor

open Number (Stored)

inductive Operand where
  /-- A number written in decimal. -/
  | literal (value : Stored)
  /-- A number written in hexadecimal. -/
  | hexLiteral (value : Int64)
  | register (index : UInt32)
  | stackPointer
  | returnAddress
  /-- A register of the device in a slot. -/
  | device (slot index : UInt16)
deriving DecidableEq, Repr

namespace Operand

/-- The kind of an operand in the encoded form of an instruction, where 0 stands for none. -/
def typeCode : Operand → Nat
  | literal _ => 1
  | hexLiteral _ => 2
  | register _ => 3
  | stackPointer => 4
  | returnAddress => 5
  | device .. => 6

/-- The value of an operand in the encoded form of an instruction. The two halves of a device operand
share a word, the slot in the upper half. -/
def packed : Operand → Float
  | literal value => value.toFloat
  | hexLiteral value => Float.ofInt value.toInt
  | register index => index.toFloat
  | stackPointer => 0
  | returnAddress => 0
  | device slot index => Float.ofNat (slot.toNat * 65536 + index.toNat)

def isDevice : Operand → Bool
  | device .. => true
  | _ => false

def isLiteral : Operand → Bool
  | literal _ => true
  | hexLiteral _ => true
  | _ => false

/-- The operand as it is written in source. A negative hexadecimal number is written by its
sixty-four bits. -/
def text : Operand → String
  | literal value => Number.text value.toFloat
  | hexLiteral value => "0x" ++ String.ofList (Numeral.hexadecimal value.toUInt64.toNat)
  | register index => "r" ++ toString index.toNat
  | stackPointer => "sp"
  | returnAddress => "ra"
  | device slot index => "d" ++ toString slot.toNat ++ "." ++ toString index.toNat

/-- Equality that compares numbers as numbers. -/
def same : Operand → Operand → Bool
  | literal a, literal b => a.same b
  | a, b => a == b

end Operand

end VirtualProcessor
