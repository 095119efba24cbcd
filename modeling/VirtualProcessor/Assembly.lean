import VirtualProcessor.Assembly.Alias
import VirtualProcessor.Assembly.Inclusion
import VirtualProcessor.Assembly.Label
import VirtualProcessor.Assembly.Requirement

/-!
# Assembling a source

The passes in order: inclusion, aliases, requirements, labels, statements. The first fault ends the work.
A program always ends in `ret`; where the source does not, one is added.
-/

namespace VirtualProcessor

namespace Assembly

/-- Asks the families in order for the statement of a line. -/
def readWith (word : String) (operands : List String) : List Family → Option (String × Reading)
  | [] => none
  | f :: others =>
    match f.read word operands with
    | .unclaimed => readWith word operands others
    | reading => some (f.name, reading)

/-- The instruction of line `number`. -/
def readLine (families : List Family) (number : Nat) (l : Line) : Pass Instruction :=
  match l.words with
  | [] => .fail ⟨.malformed, l.location number⟩
  | word :: operands =>
    match readWith word operands families with
    | some (family, .statement s) => do
      Reported.note (.parsed (UInt32.ofNat number) family l.text)
      pure
        { operation := s.operation, destination := s.destination, left := s.left, right := s.right,
          line := UInt32.ofNat number, rawText := textOf l.raw, text := l.text }
    | some _ => .fail ⟨.malformed, l.location number⟩
    | none =>
      if families.any (·.knows word) ∨ word = "alias" ∨ isIdentifier word.toList = false then
        .fail ⟨.malformed, l.location number⟩
      else .fail ⟨.unsupported, l.location number⟩

/-- The instructions of the lines that are not dealt with. `placed` lines stand in front. -/
def readLines (families : List Family) (placed : Nat) : List Line → Pass (List Instruction)
  | [] => pure []
  | l :: rest =>
    if l.consumed then readLines families (placed + 1) rest
    else do
      let i ← readLine families (placed + 1) l
      let others ← readLines families (placed + 1) rest
      pure (i :: others)

/-- The distance between the last line of a source and a `ret` that is added. -/
def returnGap : UInt32 := 3

/-- The `ret` that a list of instructions lacks at its end. -/
def missingReturn (instructions : List Instruction) : List Instruction :=
  match instructions.getLast? with
  | none => [{ operation := .ret, line := 0, rawText := "ret", text := "ret" }]
  | some last =>
    if last.operation = .ret then []
    else [{ operation := .ret, line := last.line + returnGap, rawText := "ret", text := "ret" }]

/-- The lines of a source as the passes up to the labels leave them, with what it requires. -/
structure Prepared where
  lines : List Line
  requirements : Requirements
  labels : LabelTable

end Assembly

/-- Turns source text into programs. -/
structure Assembler where
  /-- Who is asked for other files. -/
  resolver : Option Assembly.Resolver := none
  /-- How many files one source may ask for. -/
  limit : Nat := 64
  families : List Assembly.Family := Assembly.Family.standard

namespace Assembler

open Assembly

/-- All passes but the last: what is left are statements. -/
def prepare (a : Assembler) (source : String) : Pass Prepared := do
  let expanded ← expand a.resolver a.limit source
  let lines ← applyAliases expanded
  let stated := consumeRequirements lines
  let labels ← collectLabels [] 0 stated
  let resolved ← resolveLabels labels 0 (consumeLabels stated)
  pure ⟨resolved, requirements lines, labels⟩

def assemble (a : Assembler) (source : String) (target : BuildTarget) : Pass Program := do
  let prepared ← a.prepare source
  let instructions ← readLines a.families 0 prepared.lines
  let complete := instructions ++ missingReturn instructions
  let program : Program :=
    { target, requirements := prepared.requirements, instructions := complete.toArray }
  Reported.note (.assembled complete.length prepared.lines.length prepared.labels.length target)
  pure (match target with | .debug => program | .release => program.stripped)

end Assembler

end VirtualProcessor
