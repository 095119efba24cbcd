import VirtualProcessor.Number.Exact

/-!
# Decimals that stand for a number

A decimal is written with the fewest digits that read back to the number. The search tries one digit,
then two, and so on. On each grid the two neighbours of the exact value are read by the same function
that reads decimals from text, so whatever is chosen reads back because it was read back.
-/

namespace VirtualProcessor.Number

/-- The decimal `digits * 10 ^ exponent`. -/
structure Decimal where
  digits : Nat
  exponent : Int
deriving DecidableEq, Repr

/-- Where the digits go when two decimals of the same length are equally near. -/
inductive Tie where
  | up
  | even
deriving DecidableEq, Repr

namespace Decimal

/-- The number nearest to a decimal, ties to an even significand. -/
def toFloat (d : Decimal) : Float :=
  if 0 ≤ d.exponent then Float.ofScientific (d.digits * Nat.pow 10 d.exponent.toNat) false 0
  else Float.ofScientific d.digits true (-d.exponent).toNat

/-- The same decimal with a trailing zero moved to the exponent, up to `fuel` times. -/
def stripZeros : Nat → Decimal → Decimal
  | 0, d => d
  | fuel + 1, d =>
    if d.digits % 10 = 0 ∧ d.digits ≠ 0 then stripZeros fuel ⟨d.digits / 10, d.exponent + 1⟩ else d

def readsBack (x : Float) (d : Decimal) : Bool := d.toFloat.toBits == x.toBits

/-- `10 ^ scale` is the least power of ten above `m * 2 ^ e`. The estimate from the binary logarithm is at
most one off and is mended by exact comparison. -/
def scale (m : Nat) (e : Int) : Int :=
  let estimate := (((Nat.log2 m : Int) + e) * 1233).fdiv 4096
  let below (k : Int) : Bool :=
    m * Nat.pow 2 e.toNat * Nat.pow 10 (-k).toNat < Nat.pow 10 k.toNat * Nat.pow 2 (-e).toNat
  if below (estimate - 1) then estimate - 1
  else if below estimate then estimate
  else if below (estimate + 1) then estimate + 1
  else estimate + 2

/-- The decimal of the grid `10 ^ g` that reads back to `x = m * 2 ^ e`, if one of the two neighbours of the
value does; of two the nearer. -/
def onGrid? (tie : Tie) (x : Float) (m : Nat) (e : Int) (g : Int) : Option Decimal :=
  let numerator := m * Nat.pow 2 e.toNat * Nat.pow 10 (-g).toNat
  let denominator := Nat.pow 2 (-e).toNat * Nat.pow 10 g.toNat
  let low := numerator / denominator
  let rest := numerator % denominator
  let lower := stripZeros 18 ⟨low, g⟩
  let upper := stripZeros 18 ⟨low + 1, g⟩
  let preferUpper :=
    denominator < 2 * rest ||
      (denominator == 2 * rest && (match tie with | .up => true | .even => low % 2 == 1))
  let first := if preferUpper then upper else lower
  let second := if preferUpper then lower else upper
  if readsBack x first then some first
  else if readsBack x second then some second
  else none

/-- The first grid with a decimal that reads back, starting at `g` and going finer. -/
def search (tie : Tie) (x : Float) (m : Nat) (e : Int) : Nat → Int → Option Decimal
  | 0, _ => none
  | fuel + 1, g =>
    match onGrid? tie x m e g with
    | some d => some d
    | none => search tie x m e fuel (g - 1)

/-- The value of `m * 2 ^ e` with all its digits. -/
def expansion (m : Nat) (e : Int) : Decimal :=
  if 0 ≤ e then ⟨m * Nat.pow 2 e.toNat, 0⟩ else ⟨m * Nat.pow 5 (-e).toNat, e⟩

/-- The shortest decimal for `x = m * 2 ^ e`. Seventeen digits always suffice; the expansion stands in
where they would not. -/
def shortest (tie : Tie) (x : Float) (m : Nat) (e : Int) : Decimal :=
  (search tie x m e 17 (scale m e - 1)).getD (expansion m e)

end Decimal

end VirtualProcessor.Number
