import VirtualProcessor.Instruction

/-!
# Programs
-/

namespace VirtualProcessor

/-- A debug program stops at breakpoints, checks assertions and keeps the texts of its lines. -/
inductive BuildTarget where
  | debug
  | release
deriving DecidableEq, Repr

def BuildTarget.name : BuildTarget → String
  | debug => "Debug"
  | release => "Release"

/-- What a machine can be short of. -/
inductive Resource where
  | registers
  | stack
  | devices
  | memory
deriving DecidableEq, Repr

def Resource.name : Resource → String
  | registers => "registers"
  | stack => "stack"
  | devices => "devices"
  | memory => "memory"

/-- How much of each resource a program asks for. -/
structure Requirements where
  registers : UInt32 := 0
  stack : UInt32 := 0
  devices : UInt32 := 0
  memory : UInt32 := 0
deriving DecidableEq, Repr

namespace Requirements

def get (r : Requirements) : Resource → UInt32
  | .registers => r.registers
  | .stack => r.stack
  | .devices => r.devices
  | .memory => r.memory

def set (r : Requirements) (count : UInt32) : Resource → Requirements
  | .registers => { r with registers := count }
  | .stack => { r with stack := count }
  | .devices => { r with devices := count }
  | .memory => { r with memory := count }

end Requirements

structure Program where
  target : BuildTarget
  requirements : Requirements := {}
  instructions : Array Instruction := #[]
deriving DecidableEq, Repr

namespace Program

def size (p : Program) : Nat := p.instructions.size

def isRelease (p : Program) : Bool := p.target == .release

/-- The program without the texts of its lines. -/
def stripped (p : Program) : Program :=
  { p with instructions := p.instructions.map Instruction.stripped }

/-- Equality that compares numbers as numbers. -/
def same (a b : Program) : Bool :=
  a.target == b.target && a.requirements == b.requirements && a.size == b.size &&
    (a.instructions.zip b.instructions).all fun (i, j) => i.same j

end Program

end VirtualProcessor
