import VirtualProcessor.Assembly.Error
import VirtualProcessor.Journal
import VirtualProcessor.Program

/-!
# What the assembler reports
-/

namespace VirtualProcessor.Assembly

/-- Where the lines of another file go: behind all others, or right behind the line that asks for them. -/
inductive InclusionKind where
  | atEnd
  | inPlace
deriving DecidableEq, Repr

def InclusionKind.name : InclusionKind → String
  | atEnd => "Include"
  | inPlace => "Patch"

inductive Notice where
  | unreadable (path reason : String)
  | included (kind : InclusionKind) (name : String) (line count : Nat)
  | aliased (name value : String) (line count : Nat)
  | labelled (name : String) (line : UInt32)
  | parsed (line : UInt32) (family text : String)
  | assembled (instructions lines labels : Nat) (target : BuildTarget)
deriving DecidableEq, Repr

namespace Notice

def level : Notice → Level
  | unreadable .. => .warn
  | included .. => .debug
  | aliased .. => .debug
  | labelled .. => .debug
  | parsed .. => .trace
  | assembled .. => .info

def message : Notice → String
  | unreadable path reason => "Could not read inclusion '" ++ path ++ "': " ++ reason
  | included kind name line count =>
    kind.name ++ " '" ++ name ++ "' at line " ++ toString line ++ " expanded to " ++
      toString count ++ " lines"
  | aliased name value line count =>
    "Alias " ++ name ++ " = " ++ value ++ " defined at line " ++ toString line ++
      ", substituted on " ++ toString count ++ " lines"
  | labelled name line => "Label '" ++ name ++ "' bound to line " ++ toString line
  | parsed line family text =>
    "Line " ++ toString line ++ " parsed as " ++ family ++ " '" ++ text ++ "'"
  | assembled instructions lines labels target =>
    "Compiled " ++ toString instructions ++ " instructions from " ++ toString lines ++
      " lines (" ++ toString labels ++ " labels, " ++ target.name ++ ")"

end Notice

/-- The outcome of a pass, with what was reported on the way. -/
abbrev Pass := Reported Notice Error

end VirtualProcessor.Assembly
