import Std.Data.HashMap
import VirtualProcessor.Program

/-!
# Lines and positions

A jump names a line. The index of a program tells the position of the first instruction that carries a
line: a look-up in it is a search from the front (`getElem?_ofProgram`).
-/

namespace VirtualProcessor

/-- Lines with the positions of the first instructions that carry them. -/
abbrev LineIndex := Std.HashMap UInt32 Nat

namespace LineIndex

/-- Enters the lines of instructions, the first of which stands at `position`. A line that is there already
keeps its position. -/
def enter (index : LineIndex) (position : Nat) : List Instruction → LineIndex
  | [] => index
  | i :: rest => enter (index.insertIfNew i.line position) (position + 1) rest

def ofProgram (p : Program) : LineIndex := enter ∅ 0 p.instructions.toList

/-- A line that was entered before keeps its position; another one gets the position of the first
instruction that carries it. -/
theorem getElem?_enter (index : LineIndex) (position : Nat) (is : List Instruction) (line : UInt32) :
    (enter index position is)[line]? =
      index[line]?.or ((is.findIdx? (·.line == line)).map (· + position)) := by
  induction is generalizing index position with
  | nil => simp [enter]
  | cons i rest ih =>
    rw [enter, ih, Std.HashMap.getElem?_insertIfNew, List.findIdx?_cons]
    by_cases h : i.line = line
    · subst h
      by_cases hm : i.line ∈ index <;> simp [hm]
    · cases index[line]? <;> cases rest.findIdx? (·.line == line) <;> simp [h]
      omega

theorem getElem?_ofProgram (p : Program) (line : UInt32) :
    (ofProgram p)[line]? = p.instructions.toList.findIdx? (·.line == line) := by
  simp [ofProgram, getElem?_enter]

end LineIndex

namespace Program

/-- The line of the first instruction from `position` on, among `count`, whose line is greater than the
given one; 0 if there is none. -/
def lineAfter (p : Program) (line : UInt32) (position : Nat) : (count : Nat) → UInt32
  | 0 => 0
  | count + 1 =>
    match p.instructions[position]? with
    | some i => if line < i.line then i.line else p.lineAfter line (position + 1) count
    | none => 0

/-- The line at which a subroutine called from a position goes on; 0 if there is none. -/
def returnLine (p : Program) (position : Nat) (line : UInt32) : UInt32 :=
  p.lineAfter line (position + 1) (p.size - (position + 1))

end Program

end VirtualProcessor
