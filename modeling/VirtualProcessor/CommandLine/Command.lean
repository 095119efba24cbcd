import VirtualProcessor.CommandLine.Arguments

/-!
# Commands

`run` runs a program to its end, `build` stores an assembled program in a file, and `disasm` lists a
program.
-/

namespace VirtualProcessor.CommandLine

/-- Where the program of a command comes from. -/
structure Source where
  input : String
  /-- The input is a stored program, not a source. -/
  compiled : Bool := false
  /-- Where other files are looked for, if not beside the input. -/
  includeDirectory : Option String := none
  release : Bool := false
deriving DecidableEq, Repr

/-- The machine and the devices a program runs with. -/
structure RunOptions where
  registers : Nat := 16
  stack : Nat := 64
  memory : Nat := 256
  watchdog : Option Nat := none
  /-- Instructions per run. -/
  budget : Nat := 256
  seed : Option Nat := none
  eepromSize : Nat := 64
  screenWidth : UInt64 := 40
  screenHeight : UInt64 := 12
  trace : Bool := false
  jsonTrace : Bool := false
deriving DecidableEq, Repr

/-- What is done with a program. -/
inductive Work where
  | run (options : RunOptions)
  | build (output : String) (base64 : Bool)
  | disasm
deriving DecidableEq, Repr

inductive Command where
  | help
  | version
  | program (source : Source) (work : Work)
deriving DecidableEq, Repr

namespace Command

def sourceSwitches : List Switch :=
  [{ name := "compiled" }, { name := "include-dir", letter := some 'I', values := 1 },
    { name := "release" }]

def runSwitches : List Switch :=
  sourceSwitches ++
    [{ name := "registers", values := 1 }, { name := "stack", values := 1 },
      { name := "memory", values := 1 }, { name := "watchdog", values := 1 },
      { name := "budget", values := 1 }, { name := "seed", values := 1 },
      { name := "eeprom-size", values := 1 }, { name := "screen", values := 2, repeatable := true },
      { name := "trace" }, { name := "json-trace" }]

def buildSwitches : List Switch :=
  sourceSwitches ++ [{ name := "output", letter := some 'o', values := 1 }, { name := "base64" }]

/-- Where the program comes from, if there is an operand that says so. -/
def source? (g : Given) : Except Refusal (Option Source) := do
  let includeDirectory ← g.path? "include-dir"
  match g.operands with
  | [] => .ok none
  | [input] => do
    let input ← checkPath "input" input
    .ok (some { input, compiled := g.has "compiled", includeDirectory, release := g.has "release" })
  | _ :: extra :: _ => .error (.unexpected extra)

def runOptionsOf (g : Given) : Except Refusal RunOptions := do
  let registers ← g.number? word? "registers"
  let stack ← g.number? word? "stack"
  let memory ← g.number? word? "memory"
  let watchdog ← g.number? word? "watchdog"
  let budget ← g.number? word? "budget"
  let seed ← g.number? wide? "seed"
  let eepromSize ← g.number? wide? "eeprom-size"
  let screen ← g.numbers wide? "screen"
  .ok
    { registers := registers.getD 16, stack := stack.getD 64, memory := memory.getD 256, watchdog,
      budget := budget.getD 256, seed, eepromSize := eepromSize.getD 64,
      screenWidth := UInt64.ofNat (screen.getD 0 40), screenHeight := UInt64.ofNat (screen.getD 1 12),
      trace := g.has "trace", jsonTrace := g.has "json-trace" }

/-- What is built, if there is an option that says where it goes. -/
def build? (g : Given) : Except Refusal (Option Work) := do
  let output ← g.path? "output"
  .ok (output.map (.build · (g.has "base64")))

/-- Reads the arguments behind the name of a command. All that is given is looked at before a request for
help is met, but with such a request nothing need be there. -/
def readWith (switches : List Switch) (work? : Given → Except Refusal (Option Work))
    (arguments : List String) : Except Refusal Command := do
  let g ← sort switches arguments
  g.checkUses switches
  let source ← source? g
  let work ← work? g
  if g.help then .ok .help
  else
    match source, work with
    | some source, some work => .ok (.program source work)
    | none, _ => .error (.missing "input")
    | _, none => .error (.missing "output")

def names : List String := ["run", "build", "disasm", "help"]

/-- Reads what stands where the name of a command is expected and is none. -/
def readOption (argument : String) : Except Refusal Command :=
  let written := Written.ofText argument
  if written.asksForHelp then .ok .help
  else if written.is "version" 'V' then .ok .version
  else .error (.unexpected argument)

def ofArguments : List String → Except Refusal Command
  | "run" :: arguments => readWith runSwitches (fun g => (runOptionsOf g).map (some <| .run ·)) arguments
  | "build" :: arguments => readWith buildSwitches build? arguments
  | "disasm" :: arguments => readWith sourceSwitches (fun _ => .ok (some .disasm)) arguments
  | ["help"] => .ok .help
  | ["help", name] => if name ∈ names then .ok .help else .error (.unexpected name)
  | "help" :: _ :: extra :: _ => .error (.unexpected extra)
  | argument :: _ => readOption argument
  | [] => .error (.missing "command")

/-- The version of the program, as a line. -/
def versionText : String := "0.3.2\n"

def usage : String :=
  "Compile and run assembly programs\n\n" ++
    "run <input> [--compiled] [-I <dir>] [--release] [--registers <n>] [--stack <n>] [--memory <n>]\n" ++
    "    [--watchdog <n>] [--budget <n>] [--seed <n>] [--eeprom-size <n>] [--screen <width> <height>]\n" ++
    "    [--trace] [--json-trace]\n" ++
    "build <input> -o <output> [--base64] [--compiled] [-I <dir>] [--release]\n" ++
    "disasm <input> [--compiled] [-I <dir>] [--release]\n"

end Command

end VirtualProcessor.CommandLine
