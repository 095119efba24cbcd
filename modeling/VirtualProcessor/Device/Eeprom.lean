import VirtualProcessor.Bench

/-!
# Lasting cells

A row of cells that keep their values. Register 0 chooses a cell, register 1 is its value, register 2 the
number of cells, and register 3 locks the cells against writing.
-/

namespace VirtualProcessor

structure Eeprom where
  cells : Array Float
  index : Nat := 0
  readOnly : Bool := false

namespace Eeprom

def new (size : Nat) : Eeprom := ⟨Array.replicate size 0, 0, false⟩

def read (e : Eeprom) (register : UInt16) : Option Float :=
  match register.toNat with
  | 1 => e.cells[e.index]?
  | 2 => some (Float.ofNat e.cells.size)
  | 3 => some (Number.ofBool e.readOnly)
  | _ => none

/-- The device after a write, unless the write is refused. -/
def write? (e : Eeprom) (register : UInt16) (value : Float) : Option Eeprom :=
  match register.toNat with
  | 0 =>
    match Number.wholePart? value with
    | some index => if index < e.cells.size then some { e with index } else none
    | none => none
  | 1 =>
    if e.index < e.cells.size ∧ !e.readOnly then
      some { e with cells := e.cells.setIfInBounds e.index value }
    else none
  | 3 => some { e with readOnly := value > 0 }
  | _ => none

instance : Peripheral Eeprom where
  read e register := (e, e.read register)
  write e register value :=
    match e.write? register value with
    | some e => (e, true)
    | none => (e, false)

end Eeprom

end VirtualProcessor
