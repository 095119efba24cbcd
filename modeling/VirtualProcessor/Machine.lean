import VirtualProcessor.Bench
import VirtualProcessor.Journal
import VirtualProcessor.LineIndex
import VirtualProcessor.Random.Generator
import VirtualProcessor.Snapshot

/-!
# The machine

A machine has registers, a stack, block memory and slots for devices, all of fixed size, and runs one
program at a time. A host loads a program and then has it run piece by piece.
-/

namespace VirtualProcessor

/-- Why a run has come back to the host without an error. -/
inductive Outcome where
  /-- As many instructions as allowed are done; the next run goes on behind them. -/
  | budgetExhausted
  | yielded
  | sleeping
  | breakpoint
  | finished
deriving DecidableEq, Repr

def Outcome.name : Outcome → String
  | budgetExhausted => "BudgetExhausted"
  | yielded => "Yielded"
  | sleeping => "Sleeping"
  | breakpoint => "Breakpoint"
  | finished => "Finished"

/-- What a host is told of the life of a program. -/
inductive Status where
  | unloaded
  | loaded
  | running
  | yielded
  | sleeping
  | breakpoint
  | finished
  | errored
deriving DecidableEq, Repr

def Status.name : Status → String
  | unloaded => "Unloaded"
  | loaded => "Loaded"
  | running => "Running"
  | yielded => "Yielded"
  | sleeping => "Sleeping"
  | breakpoint => "Breakpoint"
  | finished => "Finished"
  | errored => "Errored"

/-- What a machine reports. -/
inductive Machine.Notice where
  | loaded (instructions : Nat) (target : BuildTarget) (watchdog : Option Nat)
  | step (frame : UInt32) (instruction : Instruction)
  | barked (line : UInt32)
  | halted (fault : Fault)

namespace Machine.Notice

def level : Notice → Level
  | loaded .. => .info
  | step .. => .trace
  | barked _ => .warn
  | halted _ => .debug

def message : Notice → String
  | loaded instructions target watchdog =>
    "Loaded program: " ++ toString instructions ++ " instructions, " ++ target.name ++
      ", watchdog " ++
      (match watchdog with | some n => "Some(" ++ toString n ++ ")" | none => "None")
  | step frame i =>
    "frame " ++ toString frame.toNat ++ " line " ++ toString i.line.toNat ++ ": " ++ i.encoded
  | barked line => "Watchdog bark at line " ++ toString line.toNat
  | halted fault => "Processor halted: " ++ fault.message

end Machine.Notice

/-- A machine and the devices it can reach. Time is counted in nanoseconds by a clock of the host. -/
structure Machine (δ : Type) where
  registers : Array Float
  stack : Array Float
  memory : Arena
  /-- The places on the bench of the devices that are plugged in. -/
  slots : Array (Option Nat)
  stackPointer : UInt32 := 0
  returnAddress : UInt32 := 0
  /-- The position of the next instruction. -/
  position : Nat := 0
  /-- How many instructions have been completed since the program was loaded. -/
  frame : UInt32 := 0
  /-- When a pending sleep ends. -/
  wakeAt : Option Nat := none
  /-- How many more instructions may be completed before the one that is too many. -/
  watchdog : Option Nat := none
  breakpointReached : Bool := false
  lastOutcome : Option Outcome := none
  failure : Option Fault := none
  program : Option Program := none
  lineIndex : LineIndex := ∅
  random : Random.Generator
  /-- Whether the host wants to see a snapshot after each instruction. -/
  observed : Bool := false
  bench : Bench δ := {}

/-- The sizes of a machine. -/
structure Capacities where
  registers : Nat
  stack : Nat
  memory : Nat
  slots : Nat
deriving DecidableEq, Repr

def Capacities.available (c : Capacities) : Resource → Nat
  | .registers => c.registers
  | .stack => c.stack
  | .devices => c.slots
  | .memory => c.memory

namespace Machine

variable {δ : Type}

def new (c : Capacities) (seed : UInt64) (bench : Bench δ) : Machine δ where
  registers := Array.replicate c.registers 0
  stack := Array.replicate c.stack 0
  memory := Arena.new c.memory
  slots := Array.replicate c.slots none
  random := .ofSeed seed
  bench := bench

def capacities (m : Machine δ) : Capacities :=
  ⟨m.registers.size, m.stack.size, m.memory.size, m.slots.size⟩

/-! ## What a host sees -/

def hasFailed (m : Machine δ) : Bool := m.failure.isSome

/-- Whether the program is at its end. -/
def atEnd (m : Machine δ) : Bool :=
  match m.program with
  | some p => p.size ≤ m.position
  | none => false

def isFinished (m : Machine δ) : Bool := m.hasFailed || m.atEnd

def status (m : Machine δ) : Status :=
  if m.program.isNone then .unloaded
  else if m.hasFailed then .errored
  else if m.atEnd then .finished
  else
    match m.lastOutcome with
    | none => .loaded
    | some .budgetExhausted => .running
    | some .yielded => .yielded
    | some .sleeping => .sleeping
    | some .breakpoint => .breakpoint
    | some .finished => .finished

def register? (m : Machine δ) (index : Nat) : Option Float := m.registers[index]?

def snapshot (m : Machine δ) (i : Instruction) : Snapshot where
  frame := m.frame
  line := i.line
  rawText := i.rawText
  text := i.text
  encoded := i.encoded
  stackPointer := m.stackPointer
  returnAddress := m.returnAddress
  registers := m.registers
  stack := m.stack
  memory := m.memory.cells
  blocks := m.memory.tags

/-! ## What a host does -/

/-- Pushes a value, if the stack has room. -/
def push (m : Machine δ) (value : Float) : Option (Machine δ) :=
  if m.stackPointer.toNat < m.stack.size then
    some
      { m with
        stack := m.stack.setIfInBounds m.stackPointer.toNat value
        stackPointer := m.stackPointer + 1 }
  else none

/-- The value on top of the stack, if the stack pointer is inside the stack. -/
def top? (m : Machine δ) : Option Float :=
  if m.stackPointer = 0 then none else m.stack[m.stackPointer.toNat - 1]?

def pop (m : Machine δ) : Option (Float × Machine δ) :=
  m.top?.map fun value => (value, { m with stackPointer := m.stackPointer - 1 })

/-- Puts a device of the bench into a slot, if there is such a slot. -/
def plug (m : Machine δ) (slot place : Nat) : Option (Machine δ) :=
  if slot < m.slots.size then some { m with slots := m.slots.setIfInBounds slot (some place) }
  else none

def unplug (m : Machine δ) (slot : Nat) : Option (Machine δ) :=
  if slot < m.slots.size then some { m with slots := m.slots.setIfInBounds slot none } else none

/-! ## Loading -/

structure LoadOptions where
  watchdog : Option Nat := none
  unplugDevices : Bool := false

/-- The first resource a program asks more of than a machine has. -/
def shortage? (c : Capacities) (r : Requirements) : Option Fault :=
  [Resource.registers, .stack, .devices, .memory].findSome? fun resource =>
    if c.available resource < (r.get resource).toNat then
      some (.shortage resource (r.get resource).toNat (c.available resource))
    else none

/-- The machine as it is before the first instruction of a program. Only the generator, the devices and
what the host wants to see are kept. -/
def reset (m : Machine δ) (p : Program) (options : LoadOptions) : Machine δ where
  registers := Array.replicate m.registers.size 0
  stack := Array.replicate m.stack.size 0
  memory := m.memory.clear
  slots := if options.unplugDevices then Array.replicate m.slots.size none else m.slots
  watchdog := options.watchdog
  program := some p
  lineIndex := .ofProgram p
  random := m.random
  observed := m.observed
  bench := m.bench

/-- Loads a program. A machine that is too small for it keeps that as its failure. -/
def load (m : Machine δ) (p : Program) (options : LoadOptions) :
    Machine δ × Option Fault × List Notice :=
  let ready := m.reset p options
  let notice := Notice.loaded p.size p.target options.watchdog
  match shortage? ready.capacities p.requirements with
  | some fault => ({ ready with failure := some fault }, some fault, [notice, .halted fault])
  | none => (ready, none, [notice])

end Machine

end VirtualProcessor
