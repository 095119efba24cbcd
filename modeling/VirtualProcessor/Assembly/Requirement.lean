import VirtualProcessor.Assembly.Line
import VirtualProcessor.Number.Numeral
import VirtualProcessor.Program

/-!
# Requirements

A line `.require resource count` says how much of a resource the program needs. The last word on a
resource counts.
-/

namespace VirtualProcessor.Assembly

/-- The number behind `0x`, which may have a plus sign in front. -/
def hexCount? : List Char → Option Nat
  | '+' :: cs => Numeral.hexadecimal? cs
  | cs => Numeral.hexadecimal? cs

/-- A count: decimal digits, or `0x` and a hexadecimal number, below `2 ^ 32`. -/
def count? (w : String) : Option UInt32 :=
  let value :=
    match w.toList with
    | '0' :: 'x' :: cs => hexCount? cs
    | cs => Numeral.decimal? cs
  (Numeral.below? UInt32.size value).map UInt32.ofNat

def resource? (w : String) : Option Resource :=
  if w = "registers" then some .registers
  else if w = "stack" then some .stack
  else if w = "devices" then some .devices
  else if w = "memory" then some .memory
  else none

structure Requirement where
  resource : Resource
  count : UInt32
deriving DecidableEq, Repr

def Requirement.ofWords? : List String → Option Requirement
  | [directive, resource, count] =>
    if directive = ".require" ∨ directive = "@req" then
      match resource? resource, count? count with
      | some r, some n => some ⟨r, n⟩
      | _, _ => none
    else none
  | _ => none

/-- The requirement that a line states, if it is not dealt with yet. -/
def Line.requirement? (l : Line) : Option Requirement :=
  if l.consumed then none else Requirement.ofWords? l.words

/-- What a source requires in all. -/
def requirements (lines : List Line) : Requirements :=
  lines.foldl (fun total l =>
    match l.requirement? with
    | some r => total.set r.count r.resource
    | none => total) {}

/-- The lines that state requirements are dealt with. -/
def consumeRequirements (lines : List Line) : List Line :=
  lines.map fun l => { l with consumed := l.consumed || l.requirement?.isSome }

end VirtualProcessor.Assembly
