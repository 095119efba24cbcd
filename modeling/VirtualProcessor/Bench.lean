import VirtualProcessor.Fault

/-!
# The devices within reach

Devices belong to the host, which keeps them on a bench and may take one away or be busy with one. A
machine reaches them by their place on the bench. Any type of devices will do that answers reads and
writes of numbered registers.
-/

namespace VirtualProcessor

/-- Devices with numbered registers. A read gives a value unless it is refused, a write says whether it was
accepted, and both may change the device. -/
class Peripheral (δ : Type) where
  read : δ → UInt16 → δ × Option Float
  write : δ → UInt16 → Float → δ × Bool

/-- The devices of a host by their places; a device that was taken away leaves its place empty. -/
structure Bench (δ : Type) where
  devices : Array (Option δ) := #[]
  /-- The device that the host is busy with. -/
  held : Option Nat := none

namespace Bench

variable {δ : Type}

def get? (b : Bench δ) (place : Nat) : Option δ := (b.devices[place]?).join

def put (b : Bench δ) (place : Nat) (d : δ) : Bench δ :=
  { b with devices := b.devices.setIfInBounds place (some d) }

/-- Takes a device away for good. -/
def drop (b : Bench δ) (place : Nat) : Bench δ :=
  { b with devices := b.devices.setIfInBounds place none }

variable [Peripheral δ]

/-- Reads a register of the device at a place. -/
def read (b : Bench δ) (place : Nat) (index : UInt16) : Bench δ × Except Fault.Cause Float :=
  match b.get? place with
  | none => (b, .error .deviceUnplugged)
  | some d =>
    if b.held = some place then (b, .error .deviceFailed)
    else
      let (d, value) := Peripheral.read d index
      (b.put place d, match value with | some x => .ok x | none => .error .deviceFailed)

/-- Writes a register of the device at a place. -/
def write (b : Bench δ) (place : Nat) (index : UInt16) (value : Float) :
    Bench δ × Except Fault.Cause Unit :=
  match b.get? place with
  | none => (b, .error .deviceUnplugged)
  | some d =>
    if b.held = some place then (b, .error .deviceFailed)
    else
      let (d, accepted) := Peripheral.write d index value
      (b.put place d, if accepted then .ok () else .error .deviceFailed)

end Bench

end VirtualProcessor
