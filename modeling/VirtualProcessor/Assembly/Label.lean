import VirtualProcessor.Assembly.Form
import VirtualProcessor.Assembly.Line
import VirtualProcessor.Assembly.Notice

/-!
# Labels

A line `name:` names the first line behind it that will be an instruction. Where a jump or a branch names
a label, the number of that line takes its place.
-/

namespace VirtualProcessor.Assembly

/-- The label that a text defines. -/
def labelName? (text : String) : Option String :=
  match text.toList.reverse with
  | ':' :: cs =>
    let name := (cs.dropWhile Text.isBlank).reverse
    if isIdentifier name then some (String.ofList name) else none
  | _ => none

namespace Line

/-- The label that a line defines, if it is not dealt with yet. -/
def label? (l : Line) : Option String :=
  if l.consumed then none else labelName? l.text

/-- Whether a line will be an instruction. -/
def isStatement (l : Line) : Bool := !l.consumed && (labelName? l.text).isNone

end Line

/-- The number of the first instruction line among those behind line `number`, or one past the last. -/
def nextStatement (number : Nat) : List Line → Nat
  | [] => number + 1
  | l :: rest => if l.isStatement then number + 1 else nextStatement (number + 1) rest

/-- Names with the numbers of their lines, which are words as the lines of instructions are. -/
abbrev LabelTable := List (String × UInt32)

/-- Finds the labels. `known` were found before, and `placed` lines stand in front. -/
def collectLabels (known : LabelTable) (placed : Nat) : List Line → Pass LabelTable
  | [] => pure known
  | l :: rest =>
    match l.label? with
    | none => collectLabels known (placed + 1) rest
    | some name =>
      if (known.lookup name).isSome then .fail ⟨.duplicateLabel, l.location (placed + 1)⟩
      else do
        let target := UInt32.ofNat (nextStatement (placed + 1) rest)
        Reported.note (.labelled name target)
        collectLabels (known ++ [(name, target)]) (placed + 1) rest

/-- The lines that define labels are dealt with. -/
def consumeLabels (lines : List Line) : List Line :=
  lines.map fun l => { l with consumed := l.consumed || l.label?.isSome }

/-- The label that a line jumps to. -/
def Line.target? (l : Line) : Option String :=
  if l.consumed then none
  else
    match l.words with
    | word :: target :: _ =>
      if isJumpWord word ∧ isIdentifier target.toList ∧ Operand.ofWord? target = none then some target
      else none
    | _ => none

/-- The line with its target replaced by a number. -/
def Line.retarget (l : Line) (number : UInt32) : Line :=
  match l.words with
  | word :: _ :: rest => { l with words := word :: toString number.toNat :: rest }
  | _ => l

/-- Replaces labels by numbers. `placed` lines stand in front. -/
def resolveLabels (labels : LabelTable) (placed : Nat) : List Line → Pass (List Line)
  | [] => pure []
  | l :: rest =>
    match l.target? with
    | none => do
      let others ← resolveLabels labels (placed + 1) rest
      pure (l :: others)
    | some name =>
      match labels.lookup name with
      | none => .fail ⟨.labelNotFound, l.location (placed + 1)⟩
      | some number => do
        let others ← resolveLabels labels (placed + 1) rest
        pure (l.retarget number :: others)

end VirtualProcessor.Assembly
