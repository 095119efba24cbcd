import VirtualProcessor.Arena
import VirtualProcessor.Location
import VirtualProcessor.Program

/-!
# Why a machine stops with an error
-/

namespace VirtualProcessor

/-- What can go wrong in an instruction. -/
inductive Fault.Cause where
  | notImplemented
  | registerOutOfBounds
  | divisionByZero
  | notANumber
  | badArguments
  | stackOverflow
  | invalidJump
  | deviceOutOfBounds
  | deviceUnplugged
  | deviceFailed
  | outOfMemory
  | memoryViolation
  | unallocatedMemory
  | nullPointer
  | doubleFree
  | died
  | assertFailed
  | watchdogBark
deriving DecidableEq, Repr

namespace Fault.Cause

def title : Cause → String
  | notImplemented => "Operation not implemented"
  | registerOutOfBounds => "Register out of bounds"
  | divisionByZero => "Division by zero"
  | notANumber => "Result is not a number"
  | badArguments => "Bad arguments"
  | stackOverflow => "Stack overflow"
  | invalidJump => "Invalid jump"
  | deviceOutOfBounds => "Device slot out of bounds"
  | deviceUnplugged => "Device unplugged"
  | deviceFailed => "Device failed"
  | outOfMemory => "Out of memory"
  | memoryViolation => "Memory violation"
  | unallocatedMemory => "Access to unallocated memory"
  | nullPointer => "Null pointer"
  | doubleFree => "Double free"
  | died => "Died in pain"
  | assertFailed => "Assertion failed"
  | watchdogBark => "Watchdog bark"

def ofRefusal : Arena.Refusal → Cause
  | .badLength => badArguments
  | .outOfMemory => outOfMemory
  | .violation => memoryViolation
  | .unallocated => unallocatedMemory
  | .null => nullPointer
  | .doubleFree => doubleFree

end Fault.Cause

/-- An error that a machine keeps until the next program is loaded. -/
inductive Fault where
  | notLoaded
  | shortage (resource : Resource) (required available : Nat)
  | failed (cause : Fault.Cause) (location : Location)
deriving DecidableEq, Repr

namespace Fault

def location? : Fault → Option Location
  | failed _ location => some location
  | _ => none

def message : Fault → String
  | notLoaded => "No program loaded"
  | shortage resource required available =>
    "Program requires " ++ toString required ++ " " ++ resource.name ++
      ", but the processor only has " ++ toString available
  | failed cause location => cause.title ++ " at " ++ location.message

end Fault

end VirtualProcessor
