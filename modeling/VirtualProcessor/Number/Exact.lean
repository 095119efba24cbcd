/-!
# Numbers read exactly

The machine computes with binary64 numbers. Where an operation needs more than the rounded arithmetic
of `Float` (a whole part, a remainder, a conversion to a machine word), the number is read exactly, as a
signed infinity, a signed zero, `± m * 2 ^ e` or not a number, and the operation is carried out on
integers:

* `isWhole`, `natural?`, `wholePart?`: integers among the numbers;
* `toWord`, `toSigned`: conversions that drop the fraction and stop at the ends of the range;
* `roundHalfEven`, `remainder`: rounding to an integer and the remainder of a division, both exact.
-/

namespace VirtualProcessor.Number

/-- What a number stands for. A finite number other than zero is `± m * 2 ^ e`. -/
abbrev Exact := Float.Model.UnpackedFloat

def exact (x : Float) : Exact := x.toModel.unpack

/-- The number nearest to `± m * 2 ^ e`, ties to an even significand. -/
def nearest (sign : Float.Model.UnpackedFloat.Sign) (m : Nat) (e : Int) : Float :=
  .ofModel (.pack (.round .binary64 sign m e))

/-- The quotient and the remainder of `m * 2 ^ e` by one. -/
def splitPoint (m : Nat) (e : Int) : Nat × Nat :=
  if 0 ≤ e then (m * Nat.pow 2 e.toNat, 0) else (m / Nat.pow 2 (-e).toNat, m % Nat.pow 2 (-e).toNat)

/-- A finite number without a fraction. -/
def isWhole (x : Float) : Bool :=
  match exact x with
  | .zero _ => true
  | .finite _ m e _ => (splitPoint m e).2 == 0
  | _ => false

/-- The natural number that `x` is, if it is one. -/
def natural? (x : Float) : Option Nat :=
  match exact x with
  | .zero _ => some 0
  | .finite .positive m e _ => if (splitPoint m e).2 = 0 then some (splitPoint m e).1 else none
  | _ => none

/-- The whole part of a finite number that is not below zero. -/
def wholePart? (x : Float) : Option Nat :=
  match exact x with
  | .zero _ => some 0
  | .finite .positive m e _ => some (splitPoint m e).1
  | _ => none

/-- The 32-bit word of `x`: the fraction is dropped, a value beyond an end becomes that end, and what is
not a number becomes 0. -/
def toWord (x : Float) : UInt32 := x.toUInt32

/-- The signed 32-bit word of `x`, by the rules of `toWord`. -/
def toSigned (x : Float) : Int32 := x.toModel.toInt32

/-- The signed 64-bit integer of `x`, by the rules of `toWord`. -/
def toSignedWide (x : Float) : Int64 := x.toModel.toInt64

/-- The integer nearest to `x`, a half going to the even one. The sign of a zero result is that of `x`. -/
def roundHalfEven (x : Float) : Float :=
  match exact x with
  | .finite sign m e _ =>
    if 0 ≤ e then x
    else
      let unit := Nat.pow 2 (-e).toNat
      let whole := m / unit
      let fraction := m % unit
      let rounded :=
        if 2 * fraction < unit then whole
        else if unit < 2 * fraction then whole + 1
        else whole + whole % 2
      nearest sign rounded 0
  | _ => x

/-- What is left of `x` after taking away `y` a whole number of times, toward zero. The result has the sign
of `x` and is exact. -/
def remainder (x y : Float) : Float :=
  match exact x, exact y with
  | .finite sign m e _, .finite _ n f _ =>
    let base := min e f
    nearest sign (m * Nat.pow 2 (e - base).toNat % (n * Nat.pow 2 (f - base).toNat)) base
  | .zero _, .finite .. => x
  | .zero _, .infinity _ => x
  | .finite .., .infinity _ => x
  | _, _ => 0.0 / 0.0

/-- The lesser of two numbers. One that is not a number gives way to the other. -/
def lesser (x y : Float) : Float :=
  if x.isNaN then y else if y.isNaN then x else if y < x then y else x

/-- The greater of two numbers. One that is not a number gives way to the other. -/
def greater (x y : Float) : Float :=
  if x.isNaN then y else if y.isNaN then x else if x < y then y else x

/-- The number 1 for true, 0 for false. -/
def ofBool (b : Bool) : Float := if b then 1.0 else 0.0

end VirtualProcessor.Number
