/-!
# Places in a source
-/

namespace VirtualProcessor

/-- A line of a source, with its text where that is known. -/
structure Location where
  line : UInt32
  text : String
deriving DecidableEq, Repr

def Location.message (l : Location) : String :=
  "line " ++ toString l.line ++ (if l.text.isEmpty then "" else ": '" ++ l.text ++ "'")

end VirtualProcessor
