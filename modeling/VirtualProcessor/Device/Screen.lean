import VirtualProcessor.Bench

/-!
# A screen of characters

A grid of characters, each with a colour. Register 0 moves the cursor, register 1 is the character under
it, register 2 sets its colour, register 3 clears the grid, register 4 lets the cursor move on by itself
after each character, and registers 5 and 6 are the width and the height.
-/

namespace VirtualProcessor

structure Screen where
  width : UInt64
  height : UInt64
  characters : Array Char
  /-- The codes of the colours. -/
  colours : Array UInt8
  cursor : Nat := 0
  autoIncrement : Bool := false
deriving DecidableEq, Repr

namespace Screen

/-- A blank screen. The number of its cells is a word as its sizes are: it wraps around if they are too great. -/
def new (width height : UInt64) : Screen where
  width := width
  height := height
  characters := Array.replicate (width * height).toNat ' '
  colours := Array.replicate (width * height).toNat 0

/-- The name of a colour. -/
def colourName (code : UInt8) : String :=
  match code.toNat with
  | 1 => "Red"
  | 2 => "Green"
  | 3 => "Blue"
  | 4 => "Cyan"
  | 5 => "Magenta"
  | 6 => "Yellow"
  | 10 => "Black"
  | 11 => "White"
  | 12 => "Gray"
  | 13 => "DarkGray"
  | _ => "Default"

def colourAt? (s : Screen) (index : Nat) : Option String := s.colours[index]?.map colourName

/-- The rows of a list of cells, each of `width` cells. -/
def rows (width : Nat) (cells : List Char) : List (List Char) :=
  match cells with
  | [] => []
  | c :: rest => (c :: rest.take (width - 1)) :: rows width (rest.drop (width - 1))
termination_by cells.length
decreasing_by simp only [List.length_drop, List.length_cons]; omega

@[simp] theorem rows_nil (width : Nat) : rows width [] = [] := by rw [rows]

theorem rows_cons (width : Nat) (c : Char) (rest : List Char) :
    rows width (c :: rest) = (c :: rest.take (width - 1)) :: rows width (rest.drop (width - 1)) := by
  rw [rows]

/-- The grid as text, row by row. -/
def render (s : Screen) : String :=
  "\n".intercalate ((rows s.width.toNat s.characters.toList).map String.ofList)

/-- The character of a code, or a blank where the code is of none. -/
def characterOf (code : UInt32) : Char :=
  if h : code.isValidChar then ⟨code, h⟩ else ' '

def read (s : Screen) (register : UInt16) : Option Float :=
  match register.toNat with
  | 1 => s.characters[s.cursor]?.map fun c => c.val.toFloat
  | 5 => some s.width.toFloat
  | 6 => some s.height.toFloat
  | _ => none

/-- Moves the cursor on; the next cell takes over the colour. -/
def moveOn (s : Screen) : Screen :=
  { s with
    colours := s.colours.setIfInBounds (s.cursor + 1) (s.colours[s.cursor]?.getD 0)
    cursor := s.cursor + 1 }

/-- The device after a write, unless the write is refused. -/
def write? (s : Screen) (register : UInt16) (value : Float) : Option Screen :=
  match register.toNat with
  | 0 =>
    match Number.wholePart? value with
    | some cursor => if cursor < s.characters.size then some { s with cursor } else none
    | none => none
  | 1 =>
    if s.cursor < s.characters.size then
      let written :=
        { s with characters := s.characters.setIfInBounds s.cursor (characterOf (Number.toWord value)) }
      some (if s.autoIncrement then written.moveOn else written)
    else none
  | 2 =>
    if s.cursor < s.colours.size then
      some { s with colours := s.colours.setIfInBounds s.cursor value.toUInt8 }
    else none
  | 3 =>
    some
      { s with
        characters := Array.replicate s.characters.size ' '
        colours := Array.replicate s.colours.size 0 }
  | 4 => some { s with autoIncrement := value > 0 }
  | _ => none

instance : Peripheral Screen where
  read s register := (s, s.read register)
  write s register value :=
    match s.write? register value with
    | some s => (s, true)
    | none => (s, false)

end Screen

end VirtualProcessor
