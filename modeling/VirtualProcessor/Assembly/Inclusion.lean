import VirtualProcessor.Assembly.Line
import VirtualProcessor.Assembly.Notice

/-!
# Inclusion of other files

A line `.include name` puts the lines of the named file behind all others, a line `.patch name` puts them
right behind itself. Lines that come in may ask for more. How many files may be asked for is limited, so
that a file that asks for itself comes to an end.

The lines are visited in the order in which they stand at the end: what comes in stands behind the line
that asked for it. So the expansion runs from one asking line to the next and recurs on the number of
files that may still be asked for.
-/

namespace VirtualProcessor.Assembly

/-- A line that asks for the lines of another file. -/
structure Inclusion where
  kind : InclusionKind
  name : String
deriving DecidableEq, Repr

/-- Answers requests for other files. The answer may depend on how many requests came before. -/
structure Resolver where
  find : (request : Nat) → (name : String) → Reported Notice Unit String

namespace Inclusion

def kind? (directive : String) : Option InclusionKind :=
  if directive = ".include" then some .atEnd
  else if directive = ".patch" then some .inPlace
  else none

def isQuote (c : Char) : Bool := c == '"'

/-- A name may stand between quotes. -/
def unquoted (name : String) : String :=
  String.ofList ((name.toList.dropWhile isQuote).reverse.dropWhile isQuote).reverse

/-- The request that a line makes. The name is all that follows the first word. -/
def ofWords? : List String → Option Inclusion
  | directive :: first :: others =>
    match kind? directive with
    | some kind =>
      let name := unquoted (textOf (first :: others))
      if name.isEmpty then none else some ⟨kind, name⟩
    | none => none
  | _ => none

end Inclusion

/-- The lines up to the first that asks for another file, and that line with what it asks for and the
lines behind it. -/
def scan : List (List Char) → List Line × Option (List String × Inclusion × List (List Char))
  | [] => ([], none)
  | cs :: rest =>
    match Inclusion.ofWords? (wordsOf cs) with
    | some inclusion => ([], some (wordsOf cs, inclusion, rest))
    | none =>
      let found := scan rest
      (Line.ofWords (wordsOf cs) :: found.1, found.2)

/-- The lines that still have to be visited once the lines of a file have come in. -/
def Inclusion.place (i : Inclusion) (incoming rest : List (List Char)) : List (List Char) :=
  match i.kind with
  | .atEnd => rest ++ incoming
  | .inPlace => incoming ++ rest

/-- Brings in what the pending lines ask for. `request` files were asked for before, `placed` lines stand
in front, and `allowance` more files may be asked for. -/
def expandFrom (resolver : Option Resolver) (request placed : Nat) (allowance : Nat)
    (pending : List (List Char)) : Pass (List Line) :=
  match scan pending with
  | (lines, none) => pure lines
  | (lines, some (words, inclusion, rest)) =>
    let number := placed + lines.length + 1
    let location : Location := ⟨UInt32.ofNat number, textOf words⟩
    match resolver with
    | none => .fail ⟨.noResolver, location⟩
    | some r =>
      match allowance with
      | 0 => .fail ⟨.inclusionLimit, location⟩
      | allowance + 1 =>
        match r.find request inclusion.name with
        | ⟨notices, .error ()⟩ => ⟨notices, .error ⟨.fileNotFound, location⟩⟩
        | ⟨notices, .ok source⟩ =>
          let incoming := splitLines source
          let after := expandFrom resolver (request + 1) number allowance (inclusion.place incoming rest)
          ⟨notices ++ .included inclusion.kind inclusion.name number incoming.length :: after.notices,
            after.result.map fun others => lines ++ ⟨words, words, true⟩ :: others⟩

/-- The lines of a source with everything they ask for, and at most `limit` files asked for. -/
def expand (resolver : Option Resolver) (limit : Nat) (source : String) : Pass (List Line) :=
  expandFrom resolver 0 0 limit (splitLines source)

end VirtualProcessor.Assembly
