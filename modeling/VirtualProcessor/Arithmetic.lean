import VirtualProcessor.Fault
import VirtualProcessor.Number.Exact

/-!
# What the operations compute
-/

namespace VirtualProcessor

/-- The distance below which two numbers count as equal: `2 ^ -52`. -/
def equalityTolerance : Float := Float.ofBits 0x3CB0000000000000

/-- The distance below which two numbers count as approximately equal. -/
def approximationTolerance : Float := 1e-5

/-- The distance that an assertion allows. -/
def assertionTolerance : Float := 1e-3

def Comparison.holds (c : Comparison) (x y : Float) : Bool :=
  match c with
  | equal => (x - y).abs < equalityTolerance
  | notEqual => (x - y).abs ≥ equalityTolerance
  | greater => x > y
  | greaterEqual => x ≥ y
  | less => x < y
  | lessEqual => x ≤ y

/-- Rounds to a number of decimal places from 0 to 15, a half going to the even digit. -/
def roundPlaces (x places : Float) : Except Fault.Cause Float :=
  match Number.natural? places with
  | some n =>
    if n ≤ 15 then
      let scale := Float.ofNat (Nat.pow 10 n)
      .ok (Number.roundHalfEven (x * scale) / scale)
    else .error .badArguments
  | none => .error .badArguments

/-- The number of a signed word. -/
def ofSigned (w : Int32) : Float := Float.ofInt w.toInt

/-- Applies an operation of signed words to the words of two numbers. -/
def onWords (f : Int32 → Int32 → Int32) (x y : Float) : Float :=
  ofSigned (f (Number.toSigned x) (Number.toSigned y))

def Unary.eval (f : Unary) (x : Float) : Except Fault.Cause Float :=
  match f with
  | move => .ok x
  | squareRoot => if x < 0 then .error .notANumber else .ok x.sqrt
  | sine => .ok x.sin
  | cosine => .ok x.cos
  | tangent => .ok x.tan
  | arcSine => if -1 ≤ x ∧ x ≤ 1 then .ok x.asin else .error .badArguments
  | arcCosine => if -1 ≤ x ∧ x ≤ 1 then .ok x.acos else .error .badArguments
  | arcTangent => .ok x.atan
  | absolute => .ok x.abs
  | complement => .ok (ofSigned (~~~ Number.toSigned x))

def Binary.eval (f : Binary) (x y : Float) : Except Fault.Cause Float :=
  match f with
  | round => roundPlaces x y
  | add => .ok (x + y)
  | subtract => .ok (x - y)
  | multiply => .ok (x * y)
  | divide => if y == 0 then .error .divisionByZero else .ok (x / y)
  | modulo => if y == 0 then .error .divisionByZero else .ok (Number.remainder x y)
  | power => .ok (x.pow y)
  | approximate => .ok (Number.ofBool ((x - y).abs < approximationTolerance))
  | minimum => .ok (Number.lesser x y)
  | maximum => .ok (Number.greater x y)
  | compare c => .ok (Number.ofBool (c.holds x y))
  | bitAnd => .ok (onWords (· &&& ·) x y)
  | bitOr => .ok (onWords (· ||| ·) x y)
  | bitXor => .ok (onWords (· ^^^ ·) x y)
  | shiftLeft => .ok (onWords (· <<< ·) x y)
  | shiftRight => .ok (onWords (· >>> ·) x y)

end VirtualProcessor
