import VirtualProcessor.Number.Exact

/-!
# Sleeping

A program says in milliseconds how long it wants to sleep; a clock counts nanoseconds. A sleep so long
that its seconds do not fit sixty-three bits is refused.
-/

namespace VirtualProcessor.Machine

/-- The nanoseconds nearest to a number of seconds, a half going to the even one. -/
def nanoseconds? (seconds : Float) : Option Nat :=
  match Number.exact seconds with
  | .zero _ => some 0
  | .finite .positive m e _ =>
    let scaled := m * 1000000000
    if 0 ≤ e then some (scaled * Nat.pow 2 e.toNat)
    else
      let unit := Nat.pow 2 (-e).toNat
      let whole := scaled / unit
      let rest := scaled % unit
      some (if 2 * rest < unit then whole else if unit < 2 * rest then whole + 1 else whole + whole % 2)
  | _ => none

/-- The nanoseconds of a sleep given in milliseconds, unless it is refused. -/
def pause? (milliseconds : Float) : Option Nat :=
  (nanoseconds? (milliseconds / 1000)).filter (· < Int64.size / 2 * 1000000000)

end VirtualProcessor.Machine
