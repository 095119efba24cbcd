/-!
# Numbers at rest

A literal of a program is kept by its sixty-four bits, so that a program that is written out and read
again is the same to the last bit, also where the bits are not a number. Two stored numbers are compared
as numbers by `same`, which tells neither zero from the other and finds nothing equal to what is not a
number.
-/

namespace VirtualProcessor.Number

/-- The bits of a binary64 number. -/
structure Stored where
  bits : UInt64
deriving DecidableEq, Repr, Inhabited

namespace Stored

def toFloat (s : Stored) : Float := Float.ofBits s.bits

def ofFloat (x : Float) : Stored := ⟨x.toBits⟩

/-- Equality of the numbers rather than of their bits. -/
def same (a b : Stored) : Bool := a.toFloat == b.toFloat

end Stored

end VirtualProcessor.Number
