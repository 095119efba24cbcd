import VirtualProcessor.Operand

/-!
# Reading operands

The words that are operands: `ra`, `sp`, `r` with a number, `d` with a slot and a register number around
`.` or `_`, `0x` with hexadecimal digits, and decimal numbers with an optional sign and an optional
fraction. No other word is one. The kinds below narrow the choice for one place of an instruction.
-/

namespace VirtualProcessor

open Number (Stored Decimal)

namespace Operand

def register? (cs : List Char) : Option Operand :=
  (Numeral.below? UInt32.size (Numeral.decimal? cs)).map fun n => register (UInt32.ofNat n)

def isSeparator (c : Char) : Bool := c == '.' || c == '_'

def half? (cs : List Char) : Option UInt16 :=
  (Numeral.below? UInt16.size (Numeral.decimal? cs)).map UInt16.ofNat

/-- Slot and register number, parted by the first separator. -/
def device? (cs : List Char) : Option Operand :=
  match cs.dropWhile (!isSeparator ·) with
  | [] => none
  | _ :: after =>
    match half? (cs.takeWhile (!isSeparator ·)), half? after with
    | some slot, some index => some (device slot index)
    | _, _ => none

def hexLiteral? (cs : List Char) : Option Operand :=
  (Numeral.below? (Int64.size / 2) (Numeral.hexadecimal? cs)).map fun n => hexLiteral (Int64.ofNat n)

/-- A decimal number without its sign: digits, then perhaps a point and more digits, which may be none. -/
def magnitude? (cs : List Char) : Option Float :=
  let whole := cs.takeWhile (· != '.')
  let fraction := (cs.dropWhile (· != '.')).drop 1
  if whole.isEmpty then none
  else
    (Numeral.run? Numeral.decimalDigit? 10 (whole ++ fraction)).map fun n =>
      (Decimal.mk n (-(fraction.length : Int))).toFloat

def decimal? : List Char → Option Float
  | '-' :: cs => (magnitude? cs).map Float.neg
  | cs => magnitude? cs

def ofChars? : List Char → Option Operand
  | ['r', 'a'] => some returnAddress
  | ['s', 'p'] => some stackPointer
  | 'r' :: cs => register? cs
  | 'd' :: cs => device? cs
  | '0' :: 'x' :: cs => hexLiteral? cs
  | cs => (decimal? cs).map fun x => literal (Stored.ofFloat x)

/-- The operand that a word is. -/
def ofWord? (w : String) : Option Operand := ofChars? w.toList

/-- What may stand at a place of an instruction. -/
inductive Kind where
  /-- Anything a value can be read from. -/
  | source
  /-- A value that is not a device register. -/
  | plain
  /-- Anything a value can be written to. -/
  | writable
  /-- A place for a value that is not a device register. -/
  | onboard
  | device
deriving DecidableEq, Repr

def Kind.admits : Kind → Operand → Bool
  | source, _ => true
  | plain, op => !op.isDevice
  | writable, op => !op.isLiteral
  | onboard, op => !op.isLiteral && !op.isDevice
  | device, op => op.isDevice

/-- The operand that a word is, if it may stand at a place of the kind. -/
def ofWordAs? (kind : Kind) (w : String) : Option Operand :=
  (ofWord? w).filter kind.admits

end Operand

/-- A name: a letter or an underscore, then letters, digits and underscores. -/
def isIdentifier : List Char → Bool
  | [] => false
  | c :: cs => (c.isAlpha || c == '_') && cs.all fun d => d.isAlphanum || d == '_'

end VirtualProcessor
