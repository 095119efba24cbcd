import VirtualProcessor.Arithmetic
import VirtualProcessor.Machine
import VirtualProcessor.Machine.Pause

/-!
# One instruction

An instruction reads its two source operands, left before right, does its work, and writes its result.
Each step may fail; what was done before the failure stays done.
-/

namespace VirtualProcessor.Machine

/-- Where a program goes on after an instruction. -/
inductive Flow where
  | next
  | jump (position : Nat)
  /-- Goes on behind the instruction, but not in this run. -/
  | suspend (outcome : Outcome)
  | finish
deriving DecidableEq, Repr

/-- What keeps an instruction from being completed. -/
inductive Trouble where
  | fault (cause : Fault.Cause)
  /-- A random integer is wanted where the bounds leave none. No machine survives it. -/
  | emptyRange
deriving DecidableEq, Repr

/-- Part of an instruction: it may change the machine and may fail, in which case the changes stay. -/
abbrev Action (δ : Type) := EStateM Trouble (Machine δ)

variable {δ : Type}

def fail {α : Type} (cause : Fault.Cause) : Action δ α := throw (.fault cause)

def attemptTo {α : Type} : Except Fault.Cause α → Action δ α
  | .ok a => pure a
  | .error cause => fail cause

/-! ## Operands -/

section Operands

variable [Peripheral δ]

/-- The place on the bench of the device in a slot. -/
def placeOf (slot : UInt16) : Action δ Nat := do
  match (← get).slots[slot.toNat]? with
  | none => fail .deviceOutOfBounds
  | some none => fail .deviceUnplugged
  | some (some place) => pure place

def read : Operand → Action δ Float
  | .literal value => pure value.toFloat
  | .hexLiteral value => pure (Float.ofInt value.toInt)
  | .register index => do
    match (← get).registers[index.toNat]? with
    | some x => pure x
    | none => fail .registerOutOfBounds
  | .stackPointer => do pure (← get).stackPointer.toFloat
  | .returnAddress => do pure (← get).returnAddress.toFloat
  | .device slot index => do
    let place ← placeOf slot
    let (bench, value) := (← get).bench.read place index
    modify fun m => { m with bench }
    attemptTo value

/-- The value of a source operand; one that is missing is 0. -/
def readSource : Option Operand → Action δ Float
  | some op => read op
  | none => pure 0

/-- The value of the place that the instruction names as its destination. -/
def readDestination : Option Operand → Action δ Float
  | some op => read op
  | none => fail .badArguments

def write (value : Float) : Option Operand → Action δ Unit
  | some (.register index) => do
    if index.toNat < (← get).registers.size then
      modify fun m => { m with registers := m.registers.setIfInBounds index.toNat value }
    else fail .registerOutOfBounds
  | some .stackPointer => modify fun m => { m with stackPointer := Number.toWord value }
  | some .returnAddress => modify fun m => { m with returnAddress := Number.toWord value }
  | some (.device slot index) => do
    let place ← placeOf slot
    let (bench, done) := (← get).bench.write place index value
    modify fun m => { m with bench }
    attemptTo done
  | some (.literal _) => fail .badArguments
  | some (.hexLiteral _) => fail .badArguments
  | none => fail .badArguments

end Operands

/-! ## Jumps -/

/-- The line that a number names. -/
def lineOf? (target : Float) : Option UInt32 :=
  if 0 ≤ target ∧ target ≤ 4294967295 then some (Number.toWord target) else none

/-- The position of the line that a number names. -/
def destination? (index : LineIndex) (target : Float) : Option Nat :=
  (lineOf? target).bind fun line => index[line]?

section Work

variable [Peripheral δ]

/-- Goes on at the line that the destination names, if the jump is taken. The destination has to be right in
any case. A jump that links leaves the line behind it as the return address, if there is one. -/
def jumpTo (p : Program) (position : Nat) (i : Instruction) (links taken : Bool) : Action δ Flow := do
  let target ← readDestination i.destination
  match destination? (← get).lineIndex target with
  | none => fail .invalidJump
  | some next =>
    if taken then do
      let line := p.returnLine position i.line
      if links && 0 < line then modify fun m => { m with returnAddress := line }
      pure (.jump next)
    else pure .next

/-! ## Results -/

def popValue : Action δ Float := do
  match (← get).pop with
  | some (value, m) => do
    set m
    pure value
  | none => fail .stackOverflow

def peekValue : Action δ Float := do
  match (← get).top? with
  | some value => pure value
  | none => fail .stackOverflow

def pushValue (value : Float) : Action δ Unit := do
  match (← get).push value with
  | some m => set m
  | none => fail .stackOverflow

def drawReal (low high : Float) : Action δ Float := do
  if low > high then fail .badArguments
  else do
    let (x, random) := (← get).random.unit
    modify fun m => { m with random }
    pure (low + x * (high - low))

def drawInteger (low high : Float) : Action δ Float := do
  if low > high then fail .badArguments
  else if (Number.toSignedWide high).toInt < (Number.toSignedWide low).toInt then throw .emptyRange
  else do
    let (x, random) :=
      (← get).random.between (Number.toSignedWide low).toInt (Number.toSignedWide high).toInt
    modify fun m => { m with random }
    pure (Float.ofInt x)

def allocateBlock (length : Float) : Action δ Float := do
  match (← get).memory.allocate length with
  | .ok (base, memory) => do
    modify fun m => { m with memory }
    pure (Float.ofNat base)
  | .error refusal => fail (.ofRefusal refusal)

/-- What an operation that has a result computes from its operands. -/
def compute (i : Instruction) (left right : Float) : Action δ Float :=
  match i.operation with
  | .pop => popValue
  | .peek => peekValue
  | .increment => do pure ((← readDestination i.destination) + 1)
  | .decrement => do pure ((← readDestination i.destination) - 1)
  | .unary f => attemptTo (f.eval left)
  | .binary f => attemptTo (f.eval left right)
  | .randomReal => drawReal left right
  | .randomInteger => drawInteger left right
  | .transfer => pure left
  | .allocate => allocateBlock left
  | .load => do attemptTo (((← get).memory.load left).mapError .ofRefusal)
  | _ => fail .notImplemented

/-! ## Work -/

def sleepFor (now : Nat) (milliseconds : Float) : Action δ Unit := do
  if 0 < milliseconds then
    match pause? milliseconds with
    | some pause => modify fun m => { m with wakeAt := some (now + pause) }
    | none => fail .badArguments

def check (i : Instruction) (expected : Float) : Action δ Unit := do
  let actual ← readDestination i.destination
  if (actual - expected).abs > assertionTolerance then fail .assertFailed

/-- The work of an instruction, once its source operands are read. -/
def perform (p : Program) (position : Nat) (now : Nat) (i : Instruction) (left right : Float) :
    Action δ Flow :=
  match i.operation with
  | .nop => pure .next
  | .yield => pure (.suspend .yielded)
  | .ret => pure .finish
  | .die => fail .died
  | .breakpoint => pure (if p.isRelease then .next else .suspend .breakpoint)
  | .sleep => do
    sleepFor now left
    pure (.suspend .sleeping)
  | .jump links => jumpTo p position i links true
  | .branch c links => jumpTo p position i links (c.holds left right)
  | .push => do
    pushValue left
    pure .next
  | .assert => do
    if !p.isRelease then check i left
    pure .next
  | .free => do
    let memory ← attemptTo (((← get).memory.free left).mapError .ofRefusal)
    modify fun m => { m with memory }
    pure .next
  | .store => do
    let memory ← attemptTo (((← get).memory.store left right).mapError .ofRefusal)
    modify fun m => { m with memory }
    pure .next
  | _ => do
    let value ← compute i left right
    write value i.destination
    pure .next

/-- Carries out the instruction at a position. -/
def execute (p : Program) (position : Nat) (now : Nat) (i : Instruction) : Action δ Flow := do
  let left ← readSource i.left
  let right ← readSource i.right
  perform p position now i left right

end Work

end VirtualProcessor.Machine
