import VirtualProcessor.CommandLine.Elapsed
import VirtualProcessor.CommandLine.Session

/-!
# The command line

Reads and writes files, prints, and keeps the time. What is read, written and printed is decided
elsewhere.
-/

namespace VirtualProcessor.CommandLine

/-- Why the system refuses to read or write a file. -/
def reasonOf : IO.Error → String
  | .noFileOrDirectory _ _ _ => "No such file or directory (os error 2)"
  | .inappropriateType _ code _ =>
    if code = 21 ∨ code = 0 - 21 then "Is a directory (os error 21)"
    else "Not a directory (os error 20)"
  | .permissionDenied _ _ _ => "Permission denied (os error 13)"
  | e => toString e

/-- The bytes of a file, or the reason why there are none. -/
def readFile (path : String) : IO (Except String (List UInt8)) := do
  match ← (IO.FS.readBinFile path).toBaseIO with
  | .ok bytes => pure (.ok bytes.data.toList)
  | .error e => pure (.error (reasonOf e))

def writeFile (path : String) (bytes : List UInt8) : IO (Except String Unit) := do
  match ← (IO.FS.writeBinFile path ⟨bytes.toArray⟩).toBaseIO with
  | .ok () => pure (.ok ())
  | .error e => pure (.error (reasonOf e))

/-- Files that have been read, or tried to be read. -/
abbrev Known := List (String × Except String (List UInt8))

def Known.files (known : Known) : Files where
  bytes path := (known.lookup path).getD (.error "No such file or directory (os error 2)")

/-- The first file that an assembly asks for and that was not tried yet. -/
def Known.wanted? (known : Known) (source : Source) (text : String) : Option String :=
  (source.assemble known.files text).notices.findSome? fun
    | .unreadable path _ => if (known.lookup path).isSome then none else some path
    | _ => none

/-- Reads the files that an assembly asks for, until it asks for no other. -/
partial def gather (source : Source) (text : String) (known : Known) : IO Known :=
  match known.wanted? source text with
  | some path => do
    let content ← readFile path
    gather source text ((path, content) :: known)
  | none => pure known

/-- All files that a command reads. -/
def filesFor (source : Source) : IO Files := do
  let known : Known := [(source.input, ← readFile source.input)]
  if source.compiled then pure known.files
  else
    match known.files.text source.input with
    | .ok text => do
      let known ← gather source text known
      pure known.files
    | .error _ => pure known.files

/-- Calls the machine until the program is done. -/
partial def finishSession (s : Session) : IO (Session × Next) := do
  let (after, printed, next) := s.call (← IO.monoNanosNow)
  IO.print printed
  match next with
  | .again => finishSession after
  | .pause => do
    IO.sleep 1
    finishSession after
  | _ => pure (after, next)

/-- A number that nobody knows beforehand. -/
def freshSeed : IO UInt64 := do
  let bytes ← IO.getRandomBytes 8
  pure (bytes.data.toList.foldl (fun n b => n * 256 + b.toUInt64) 0)

def seedFor (work : Work) : IO UInt64 :=
  match work.seed? with
  | some seed => pure seed
  | none => freshSeed

def carryOut : Task → IO Conclusion
  | .conclude c => pure c
  | .store path content => do
    let written ← writeFile path content
    pure (storedConclusion path written)
  | .run session => do
    IO.print opening
    let begun ← IO.monoNanosNow
    let (last, next) ← finishSession session
    let ended ← IO.monoNanosNow
    pure (last.conclude ("      " ++ spanText (ended - begun)) next)

def perform : Command → IO Conclusion
  | .help => pure (informed Command.usage)
  | .version => pure (informed Command.versionText)
  | .program source work => do
    let files ← filesFor source
    let begun ← IO.monoNanosNow
    match source.prepare files with
    | .error complaint => pure (.failed complaint)
    | .ok prepared => do
      let ended ← IO.monoNanosNow
      IO.print (prepared.announcement (" in " ++ spanText (ended - begun)))
      carryOut (work.task source.input prepared.program (← seedFor work))

end VirtualProcessor.CommandLine

open VirtualProcessor.CommandLine in
def main (arguments : List String) : IO UInt32 := do
  let conclusion ←
    match Command.ofArguments arguments with
    | .error refusal => pure (.refused refusal)
    | .ok command => perform command
  IO.print conclusion.output
  (← IO.getStdout).flush
  IO.eprint conclusion.complaintText
  pure conclusion.exitCode
