import VirtualProcessor.Number.Numeral
import VirtualProcessor.Text.Padding

/-!
# Spans of time

A span is written in the largest unit of which it has at least one, with as many decimal places as it
needs.
-/

namespace VirtualProcessor.CommandLine

/-- A count of units of which each is `10 ^ places` nanoseconds, with its unit. -/
def spanIn (places : Nat) (unit : String) (nanoseconds : Nat) : String :=
  let whole := toString (nanoseconds / Nat.pow 10 places)
  let part := Text.zeroPadded places (nanoseconds % Nat.pow 10 places)
  let digits := (part.toList.reverse.dropWhile (· == '0')).reverse
  whole ++ (if digits.isEmpty || places == 0 then "" else "." ++ String.ofList digits) ++ unit

/-- The text of a span of time. -/
def spanText (nanoseconds : Nat) : String :=
  if nanoseconds < 1000 then spanIn 0 "ns" nanoseconds
  else if nanoseconds < 1000000 then spanIn 3 "µs" nanoseconds
  else if nanoseconds < 1000000000 then spanIn 6 "ms" nanoseconds
  else spanIn 9 "s" nanoseconds

end VirtualProcessor.CommandLine
