/-!
# Numerals

Natural numbers in a base, as characters with the most significant digit first. Reading takes a
non-empty run of digits and nothing else: no sign, no separator, no blank.
-/

namespace VirtualProcessor.Numeral

/-- The character of a digit below sixteen; letters are upper case. -/
def digitChar (d : Nat) : Char :=
  if d < 10 then Char.ofNat (48 + d) else Char.ofNat (55 + d)

/-- The digits of `n` in base `b + 2`. -/
def digits (b : Nat) (n : Nat) : List Char :=
  if n < b + 2 then [digitChar n] else digits b (n / (b + 2)) ++ [digitChar (n % (b + 2))]
termination_by n
decreasing_by exact Nat.div_lt_self (by omega) (by omega)

def decimal (n : Nat) : List Char := digits 8 n

def hexadecimal (n : Nat) : List Char := digits 14 n

/-- The value of a decimal digit. -/
def decimalDigit? (c : Char) : Option Nat :=
  if '0' ≤ c ∧ c ≤ '9' then some (c.toNat - 48) else none

/-- The value of a hexadecimal digit, in either case. -/
def hexDigit? (c : Char) : Option Nat :=
  if '0' ≤ c ∧ c ≤ '9' then some (c.toNat - 48)
  else if 'a' ≤ c ∧ c ≤ 'f' then some (c.toNat - 87)
  else if 'A' ≤ c ∧ c ≤ 'F' then some (c.toNat - 55)
  else none

/-- The value of a run of digits that continues one of value `n`. -/
def continue? (digit? : Char → Option Nat) (base : Nat) (n : Nat) : List Char → Option Nat
  | [] => some n
  | c :: cs =>
    match digit? c with
    | some d => continue? digit? base (base * n + d) cs
    | none => none

/-- The value of a run of digits, which may be empty. -/
def run? (digit? : Char → Option Nat) (base : Nat) (cs : List Char) : Option Nat :=
  continue? digit? base 0 cs

/-- The value of a non-empty run of decimal digits. -/
def decimal? (cs : List Char) : Option Nat :=
  if cs.isEmpty then none else run? decimalDigit? 10 cs

/-- The value of a non-empty run of hexadecimal digits. -/
def hexadecimal? (cs : List Char) : Option Nat :=
  if cs.isEmpty then none else run? hexDigit? 16 cs

/-- A numeral that has to lie below a bound. -/
def below? (bound : Nat) (value : Option Nat) : Option Nat :=
  value.filter (· < bound)

end VirtualProcessor.Numeral
