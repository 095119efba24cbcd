import VirtualProcessor.Number.Exact

/-!
# Block memory

Cells that a program allocates in blocks. Every cell has a tag: 0 while it is free, otherwise the base
address of the block it belongs to. Address 0 is never handed out. Blocks are taken at the lowest address
where they fit.
-/

namespace VirtualProcessor

structure Arena where
  cells : Array Float
  tags : Array Nat

namespace Arena

/-- Why a request is refused. -/
inductive Refusal where
  /-- The length of a block is not a number of cells. -/
  | badLength
  | outOfMemory
  /-- The address is no address, or lies inside a block where its base is needed. -/
  | violation
  | unallocated
  | null
  | doubleFree
deriving DecidableEq, Repr

def new (size : Nat) : Arena := ⟨Array.replicate size 0, Array.replicate size 0⟩

def size (a : Arena) : Nat := a.cells.size

/-- Gives back every block. -/
def clear (a : Arena) : Arena :=
  ⟨Array.replicate a.cells.size 0, Array.replicate a.tags.size 0⟩

/-- The tag of a cell; cells that do not exist are free. -/
def tag (tags : Array Nat) (address : Nat) : Nat := tags[address]?.getD 0

/-- Puts a value into every place from `base` up to but not including `stop`. -/
def fill {α : Type} (xs : Array α) (base stop : Nat) (value : α) : Array α :=
  xs.mapIdx fun i x => if base ≤ i ∧ i < stop then value else x

/-! ## Allocation -/

/-- The offset of the last taken cell among the `length` cells from `base` on. -/
def lastTaken? (tags : Array Nat) (base : Nat) : Nat → Option Nat
  | 0 => none
  | length + 1 => if tag tags (base + length) = 0 then lastTaken? tags base length else some length

/-- The first base from `base` on where `length` cells are free. A window with a taken cell rules out every
base up to that cell, so the search goes on behind the last taken one. -/
def search? (tags : Array Nat) (length : Nat) : (fuel : Nat) → (base : Nat) → Option Nat
  | 0, _ => none
  | fuel + 1, base =>
    if base + length ≤ tags.size then
      match lastTaken? tags base length with
      | none => some base
      | some taken => search? tags length fuel (base + taken + 1)
    else none

/-- The lowest base at which `length` cells are free. -/
def firstFit? (tags : Array Nat) (length : Nat) : Option Nat := search? tags length tags.size 1

/-- Takes a block of zeros. The fraction of the length does not count. -/
def allocate (a : Arena) (length : Float) : Except Refusal (Nat × Arena) :=
  match Number.wholePart? length with
  | none | some 0 => .error .badLength
  | some cells =>
    if a.tags.size ≤ cells then .error .outOfMemory
    else
      match firstFit? a.tags cells with
      | none => .error .outOfMemory
      | some base =>
        .ok (base, ⟨fill a.cells base (base + cells) 0, fill a.tags base (base + cells) base⟩)

/-! ## Access -/

/-- The address that a number is. -/
def address (a : Arena) (pointer : Float) : Except Refusal Nat :=
  match Number.natural? pointer with
  | some 0 => .error .null
  | some n => if n < a.size then .ok n else .error .violation
  | none => .error .violation

/-- How many cells from an address on carry a tag without a break. -/
def runLength (tags : Array Nat) (address : Nat) (value : Nat) : Nat :=
  ((tags.toList.drop address).takeWhile (· == value)).length

/-- Gives back the block that starts at an address. -/
def free (a : Arena) (pointer : Float) : Except Refusal Arena := do
  let base ← a.address pointer
  let owner := tag a.tags base
  if owner = 0 then .error .doubleFree
  else if owner ≠ base then .error .violation
  else
    let stop := base + runLength a.tags base owner
    .ok ⟨fill a.cells base stop 0, fill a.tags base stop 0⟩

/-- An address inside a block. -/
def allocated (a : Arena) (pointer : Float) : Except Refusal Nat := do
  let n ← a.address pointer
  if tag a.tags n = 0 then .error .unallocated else .ok n

def load (a : Arena) (pointer : Float) : Except Refusal Float := do
  let n ← a.allocated pointer
  .ok (a.cells[n]?.getD 0)

def store (a : Arena) (pointer value : Float) : Except Refusal Arena := do
  let n ← a.allocated pointer
  .ok { a with cells := a.cells.setIfInBounds n value }

end Arena

end VirtualProcessor
