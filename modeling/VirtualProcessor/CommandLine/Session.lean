import VirtualProcessor.Assembly
import VirtualProcessor.Assembly.Resolver
import VirtualProcessor.CommandLine.Command
import VirtualProcessor.Device
import VirtualProcessor.Machine.Run
import VirtualProcessor.Program.Listing
import VirtualProcessor.Program.Storage

/-!
# What commands do

A command first gets its program. `disasm` prints it and `build` stores it. `run` starts a session that
calls the machine again and again until the program is done; each call says what is printed and what comes
next. At the end there is a conclusion. The outer layer only reads and writes files, prints, and keeps the
time.
-/

namespace VirtualProcessor.CommandLine

def line (text : String) : String := text ++ "\n"

/-- How a command ends: what is printed last, what it complains about, and its exit code. -/
structure Conclusion where
  exitCode : UInt32 := 0
  output : String := ""
  complaint : Option String := none
deriving DecidableEq, Repr

namespace Conclusion

def failed (complaint : String) : Conclusion := { exitCode := 1, complaint := some complaint }

def refused (r : Refusal) : Conclusion := { exitCode := 2, complaint := some r.message }

/-- How the complaint is printed. -/
def complaintText (c : Conclusion) : String :=
  match c.complaint with
  | some complaint => line ("\nError: " ++ complaint)
  | none => ""

end Conclusion

/-! ## Getting the program -/

/-- A program, and whether it was assembled just now. -/
structure Prepared where
  program : Program
  assembled : Bool

def Source.target (s : Source) : BuildTarget := if s.release then .release else .debug

def Source.directory (s : Source) : String :=
  s.includeDirectory.getD (Files.directoryOf s.input)

/-- Assembles the text of the input. -/
def Source.assemble (s : Source) (files : Files) (text : String) : Assembly.Pass Program :=
  let assembler : Assembler := { resolver := some (.ofDirectory files s.directory) }
  assembler.assemble text s.target

/-- The program of a command, or what to complain about. -/
def Source.prepare (s : Source) (files : Files) : Except String Prepared :=
  if s.compiled then
    match Program.ofFileWith Program.ofContent files s.input with
    | .ok program => .ok ⟨program, false⟩
    | .error e => .error ("Failed to load program '" ++ s.input ++ "': " ++ e.message)
  else
    match files.text s.input with
    | .error reason => .error ("Failed to read source file '" ++ s.input ++ "': " ++ reason)
    | .ok text =>
      match (s.assemble files text).result with
      | .ok program => .ok ⟨program, true⟩
      | .error e => .error ("Compilation failed: " ++ e.message)

/-- What is printed of a program that was assembled; `took` tells how long it took. -/
def Prepared.announcement (p : Prepared) (took : String) : String :=
  if p.assembled then
    line ("Compilation successful! " ++ toString p.program.size ++ " instructions" ++ took)
  else ""

/-! ## Storing it -/

/-- What `build` writes. -/
def contentOf (p : Program) (base64 : Bool) : List UInt8 :=
  if base64 then p.toBase64.toUTF8.data.toList else p.toBytes

/-- How `build` ends once the writing was tried. -/
def storedConclusion (path : String) : Except String Unit → Conclusion
  | .ok () => { output := line ("Program written to '" ++ path ++ "'") }
  | .error reason =>
    .failed ("Failed to write program: " ++ (CarrierError.file path reason).message)

/-! ## Running it -/

def eepromSlot : Nat := 0

def screenSlot : Nat := 1

/-- A program on its way through a machine. -/
structure Session where
  machine : Machine Device
  tracer : Tracer
  budget : Nat
  /-- How often the machine was called. -/
  calls : Nat := 0

/-- The machine before a program is loaded: the lasting cells and the screen are plugged in. -/
def RunOptions.machine (o : RunOptions) (seed : UInt64) : Machine Device :=
  let devices : Array (Option Device) :=
    #[some (.eeprom (Eeprom.new o.eepromSize)),
      some (.screen (Screen.new o.screenWidth o.screenHeight))]
  { Machine.new ⟨o.registers, o.stack, o.memory, 2⟩ seed { devices } with
    slots := #[some eepromSlot, some screenSlot], observed := o.trace || o.jsonTrace }

/-- Loads a program, as a host does that got it as text. -/
def RunOptions.start (o : RunOptions) (seed : UInt64) (p : Program) : Except String Session :=
  match Program.ofBase64 p.toBase64 with
  | .error e => .error ("Program transport failed: " ++ e.message)
  | .ok p =>
    match (o.machine seed).load p { watchdog := o.watchdog } with
    | (_, some fault, _) => .error ("Load failed: " ++ fault.message)
    | (machine, none, _) =>
      .ok { machine, tracer := { mode := if o.jsonTrace then .json else .text }, budget := o.budget }

/-- What is printed before the first call. -/
def opening : String := line "\nRunning program..."

/-- What comes after a call. -/
inductive Next where
  | again
  /-- The program sleeps; call again in a while. -/
  | pause
  | finish
  | fail (complaint : String)
  | breakdown
deriving DecidableEq, Repr, Inhabited

/-- Calls the machine once, at a time: the session after it, what is printed, and what comes next. A
breakpoint turns the trace on. -/
def Session.call (s : Session) (now : Nat) : Session × String × Next :=
  let r := s.machine.run now s.budget
  let (texts, tracer) := s.tracer.writeAll r.snapshots
  let traced := String.join (texts.map line)
  let after := { s with machine := r.machine, tracer, calls := s.calls + 1 }
  match r.ending with
  | .outcome .finished => (after, traced, .finish)
  | .outcome .breakpoint =>
    ({ after with machine := { r.machine with observed := true } },
      traced ++ line "-> Breakpoint reached, tracing enabled", .again)
  | .outcome .sleeping => (after, traced, .pause)
  | .outcome _ => (after, traced, .again)
  | .fault f => (after, traced, .fail ("Execution failed: " ++ f.message))
  | .breakdown => (after, traced, .breakdown)

def Session.screenText (s : Session) : String :=
  match s.machine.bench.get? screenSlot with
  | some (.screen screen) => screen.render
  | _ => ""

def registerLines (registers : Array Float) : String :=
  String.join (registers.toList.zipIdx.map fun (x, index) =>
    line ("r" ++ Text.padRight 3 (toString index) ++ " = " ++ Number.text x))

/-- What is printed after the last call; `took` tells how long the calls took. -/
def Session.summary (s : Session) (took : String) : String :=
  line "\n--- Screen ---" ++ line s.screenText ++
    line "\n--- Machine Summary ---" ++ registerLines s.machine.registers ++
    line ("sp   = " ++ toString s.machine.stackPointer.toNat) ++
    line ("ra   = " ++ toString s.machine.returnAddress.toNat) ++
    line "\n--- Performance Summary ---" ++
    line ("Instructions:   " ++ toString s.machine.frame.toNat) ++
    line ("Run calls:      " ++ toString s.calls) ++
    line ("Execution:" ++ took) ++ line ""

/-- How `run` ends after the last call. A breakdown leaves no time for a summary. -/
def Session.conclude (s : Session) (took : String) : Next → Conclusion
  | .breakdown => { exitCode := 101, complaint := some "cannot draw a number from an empty range" }
  | .fail complaint => { exitCode := 1, output := s.summary took, complaint := some complaint }
  | _ => { output := s.summary took }

/-! ## Doing the work -/

/-- What is left to do once the program is there. -/
inductive Task where
  | conclude (c : Conclusion)
  | store (path : String) (content : List UInt8)
  | run (session : Session)

/-- The task for the program that was got from `input`. -/
def Work.task (w : Work) (input : String) (p : Program) (seed : UInt64) : Task :=
  match w with
  | .disasm => .conclude { output := p.listing input }
  | .build output base64 => .store output (contentOf p base64)
  | .run options =>
    match options.start seed p with
    | .ok session => .run session
    | .error complaint => .conclude (.failed complaint)

/-- How the commands end that need no program. -/
def informed (text : String) : Conclusion := { output := text }

/-- The seed that is asked for. -/
def Work.seed? : Work → Option UInt64
  | .run options => options.seed.map UInt64.ofNat
  | _ => none

end VirtualProcessor.CommandLine
