import VirtualProcessor.Location

/-!
# Why a source does not assemble
-/

namespace VirtualProcessor.Assembly

inductive Cause where
  /-- The line is no statement. -/
  | malformed
  /-- The line names an operation that nobody knows. -/
  | unsupported
  | labelNotFound
  | duplicateLabel
  | fileNotFound
  /-- The line asks for another file, and there is nobody to ask. -/
  | noResolver
  /-- The line asks for one file more than is allowed. -/
  | inclusionLimit
deriving DecidableEq, Repr

structure Error where
  cause : Cause
  location : Location
deriving DecidableEq, Repr

def Error.message (e : Error) : String :=
  match e.cause with
  | .malformed => "Syntax error at " ++ e.location.message
  | .unsupported => "Operation not supported at " ++ e.location.message
  | .labelNotFound => "Label not found at " ++ e.location.message
  | .duplicateLabel => "Label defined more than once at " ++ e.location.message
  | .fileNotFound => "Included file not found at " ++ e.location.message
  | .noResolver =>
    "Inclusion directive at " ++ e.location.message ++ " but no inclusion resolver was provided"
  | .inclusionLimit => "Too many nested inclusions at " ++ e.location.message

end VirtualProcessor.Assembly
