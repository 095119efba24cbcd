import VirtualProcessor.Number.Decimal
import VirtualProcessor.Number.Numeral

/-!
# How a number is written

Which digits stand for a number is decided by `Decimal.shortest`; where the point goes and what is
written for zero, infinities and what is not a number is decided by a `Layout`.
-/

namespace VirtualProcessor.Number

/-- The decisions of one output format. -/
structure Layout where
  tie : Tie
  /-- Exponents of the leading digit, from the first up to but not including the second, are written with
  all places; the others with an exponent. Without bounds there is no exponent at all. -/
  places : Option (Int × Int)
  /-- Write `12.0` rather than `12`. -/
  pointZero : Bool
  notANumber : List Char
  infinity : List Char
  negativeInfinity : List Char

namespace Layout

/-- The way numbers stand in programs, listings and summaries: every place, no exponent. -/
def plain : Layout where
  tie := .up
  places := none
  pointZero := false
  notANumber := "NaN".toList
  infinity := "inf".toList
  negativeInfinity := "-inf".toList

/-- All places of `digits * 10 ^ exponent`. -/
def positional (pointZero : Bool) (d : Decimal) : List Char :=
  let digits := Numeral.decimal d.digits
  if 0 ≤ d.exponent then
    digits ++ List.replicate d.exponent.toNat '0' ++ (if pointZero then ".0".toList else [])
  else
    let behind := (-d.exponent).toNat
    let padded := List.replicate (behind + 1 - digits.length) '0' ++ digits
    padded.take (padded.length - behind) ++ '.' :: padded.drop (padded.length - behind)

/-- One digit, the others behind the point, and the power of ten; a positive power has its sign. -/
def scientific (d : Decimal) : List Char :=
  let digits := Numeral.decimal d.digits
  let power := d.exponent + digits.length - 1
  let mantissa :=
    match digits with
    | [] => []
    | [c] => [c]
    | c :: cs => c :: '.' :: cs
  let mark := if power < 0 then ['e', '-'] else ['e', '+']
  mantissa ++ mark ++ Numeral.decimal power.natAbs

def decimal (f : Layout) (d : Decimal) : List Char :=
  match f.places with
  | none => positional f.pointZero d
  | some (first, last) =>
    let power := d.exponent + (Numeral.decimal d.digits).length - 1
    if first ≤ power ∧ power < last then positional f.pointZero d else scientific d

def signChars : Float.Model.UnpackedFloat.Sign → List Char
  | .positive => []
  | .negative => ['-']

/-- The characters of a number. -/
def chars (f : Layout) (x : Float) : List Char :=
  match exact x with
  | .notANumber => f.notANumber
  | .infinity .positive => f.infinity
  | .infinity .negative => f.negativeInfinity
  | .zero sign => signChars sign ++ f.decimal ⟨0, 0⟩
  | .finite sign m e _ => signChars sign ++ f.decimal (Decimal.shortest f.tie x.abs m e)

end Layout

/-- The text of a number, in the plain layout. -/
def text (x : Float) : String := String.ofList (Layout.plain.chars x)

end VirtualProcessor.Number
