/-!
# Columns

Text filled up to a width, counted in characters. A text that is longer already stays as it is.
-/

namespace VirtualProcessor.Text

def padRight (width : Nat) (s : String) : String :=
  s ++ String.ofList (List.replicate (width - s.length) ' ')

/-- A number with leading zeros. -/
def zeroPadded (width n : Nat) : String :=
  let digits := toString n
  String.ofList (List.replicate (width - digits.length) '0') ++ digits

end VirtualProcessor.Text
