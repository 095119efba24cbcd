import VirtualProcessor.Assembly.Line
import VirtualProcessor.Assembly.Notice
import VirtualProcessor.Operand.Reading

/-!
# Aliases

A line `.define $name operand` gives an operand a name for the whole source. The names are replaced word
by word, in the order of the definitions; a definition is read as the definitions before it have left
it.
-/

namespace VirtualProcessor.Assembly

structure Alias where
  name : String
  value : String
deriving DecidableEq, Repr

namespace Alias

/-- A dollar sign, then letters, digits and underscores, at least one. -/
def isName : List Char → Bool
  | '$' :: cs => !cs.isEmpty && cs.all fun c => c.isAlphanum || c == '_'
  | _ => false

def ofWords? : List String → Option Alias
  | [directive, name, value] =>
    if (directive = ".define" ∨ directive = "alias") ∧ isName name.toList ∧
        (Operand.ofWord? value).isSome then
      some ⟨name, value⟩
    else none
  | _ => none

def replace (a : Alias) (words : List String) : List String :=
  words.map fun w => if w = a.name then a.value else w

/-- Replaces the names one after the other. -/
def replaceAll (aliases : List Alias) (words : List String) : List String :=
  aliases.foldl (fun ws a => a.replace ws) words

end Alias

/-- An alias and the position of the line that defines it. -/
structure Definition where
  target : Alias
  position : Nat
deriving DecidableEq, Repr

/-- Finds the definitions. `known` were found before, and the first line stands at `position`. -/
def findDefinitions (known : List Alias) (position : Nat) : List Line → List Definition
  | [] => []
  | l :: rest =>
    if l.consumed then findDefinitions known (position + 1) rest
    else
      match Alias.ofWords? (Alias.replaceAll known l.words) with
      | some a => ⟨a, position⟩ :: findDefinitions (known ++ [a]) (position + 1) rest
      | none => findDefinitions known (position + 1) rest

/-- A line of the source once the aliases are replaced; the line of a definition is dealt with. -/
def Line.replaceAliases (definitions : List Definition) (l : Line) (position : Nat) : Line :=
  if l.consumed then l
  else if definitions.any (·.position == position) then { l with consumed := true }
  else { l with words := Alias.replaceAll (definitions.map (·.target)) l.words }

/-- How many lines hold the name of a definition when its turn comes: `earlier` definitions have been
replaced by then, and their lines are dealt with. -/
def occurrences (lines : List Line) (earlier : List Definition) (d : Definition) : Nat :=
  lines.zipIdx.countP fun (l, position) =>
    !l.consumed && position != d.position && !earlier.any (·.position == position) &&
      (Alias.replaceAll (earlier.map (·.target)) l.words).contains d.target.name

def aliasNotices (lines : List Line) (earlier : List Definition) : List Definition → List Notice
  | [] => []
  | d :: later =>
    .aliased d.target.name d.target.value (d.position + 1) (occurrences lines earlier d) ::
      aliasNotices lines (earlier ++ [d]) later

def applyAliases (lines : List Line) : Pass (List Line) :=
  let definitions := findDefinitions [] 0 lines
  ⟨aliasNotices lines [] definitions,
    .ok (lines.zipIdx.map fun (l, position) => l.replaceAliases definitions position)⟩

end VirtualProcessor.Assembly
