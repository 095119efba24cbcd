import VirtualProcessor.Operand.Reading
import VirtualProcessor.Operation

/-!
# The forms of statements

A statement is a word and its operands. Which words there are, how many operands each takes, what may
stand at each place and where it goes in the instruction is a table of forms. Forms that look alike make
a family. An assembler is given a list of families and asks them in order; a host may add families of
its own behind the standard ones.
-/

namespace VirtualProcessor.Assembly

/-- An operation with the operands it was written with. -/
structure Statement where
  operation : Operation
  destination : Option Operand := none
  left : Option Operand := none
  right : Option Operand := none
deriving DecidableEq, Repr

/-- What a family says of a word and its operands. -/
inductive Reading where
  /-- The family has no form with this word and this many operands. -/
  | unclaimed
  /-- The family has the form, but an operand does not fit. -/
  | malformed
  | statement (s : Statement)
deriving DecidableEq, Repr

structure Family where
  name : String
  /-- The words of the family, with however many operands. -/
  knows : String → Bool
  read : (word : String) → (operands : List String) → Reading

/-- Where an operand goes. -/
inductive Place where
  | destination
  | left
  | right
deriving DecidableEq, Repr

def Statement.put (s : Statement) (op : Operand) : Place → Statement
  | .destination => { s with destination := some op }
  | .left => { s with left := some op }
  | .right => { s with right := some op }

/-- A word, its operation, and for each operand where it goes and what it may be. -/
structure Form where
  word : String
  operation : Operation
  slots : List (Place × Operand.Kind)

namespace Form

/-- Puts operands into their places; `none` if one does not fit. -/
def fill (s : Statement) : List (Place × Operand.Kind) → List String → Option Statement
  | (place, kind) :: slots, w :: words =>
    match Operand.ofWordAs? kind w with
    | some op => fill (s.put op place) slots words
    | none => none
  | _, _ => some s

def statement? (f : Form) (operands : List String) : Option Statement :=
  fill { operation := f.operation } f.slots operands

def matchesWord (f : Form) (word : String) (arity : Nat) : Bool :=
  f.word == word && f.slots.length == arity

end Form

/-- The family of a table of forms. -/
def Family.ofForms (name : String) (forms : List Form) : Family where
  name := name
  knows word := forms.any (·.word == word)
  read word operands :=
    match forms.find? (·.matchesWord word operands.length) with
    | some f =>
      match f.statement? operands with
      | some s => .statement s
      | none => .malformed
    | none => .unclaimed

/-! ## The standard tables -/

def bareForms : List Form :=
  [⟨"nop", .nop, []⟩, ⟨"ret", .ret, []⟩, ⟨"yield", .yield, []⟩, ⟨"die", .die, []⟩,
    ⟨"brk", .breakpoint, []⟩, ⟨"breakpoint", .breakpoint, []⟩]

def sleepForms : List Form := [⟨"sleep", .sleep, [(.left, .plain)]⟩]

def jumpForms : List Form :=
  [⟨"j", .jump false, [(.destination, .plain)]⟩, ⟨"jal", .jump true, [(.destination, .plain)]⟩]

def branchForm (word : String) (c : Comparison) (links : Bool) : Form :=
  ⟨word, .branch c links, [(.destination, .plain), (.left, .source), (.right, .source)]⟩

def branchForms : List Form :=
  [branchForm "beq" .equal false, branchForm "beqal" .equal true,
    branchForm "bne" .notEqual false, branchForm "bneq" .notEqual false,
    branchForm "bneal" .notEqual true, branchForm "bneqal" .notEqual true,
    branchForm "bgt" .greater false, branchForm "bgtal" .greater true,
    branchForm "bgte" .greaterEqual false, branchForm "bgteal" .greaterEqual true,
    branchForm "blt" .less false, branchForm "bltal" .less true,
    branchForm "blte" .lessEqual false, branchForm "blteal" .lessEqual true]

def stackForms : List Form :=
  [⟨"push", .push, [(.left, .source)]⟩, ⟨"pop", .pop, [(.destination, .writable)]⟩,
    ⟨"peek", .peek, [(.destination, .writable)]⟩]

def destinationForms : List Form :=
  [⟨"inc", .increment, [(.destination, .writable)]⟩, ⟨"dec", .decrement, [(.destination, .writable)]⟩]

def unaryForm (word : String) (op : Operation) : Form :=
  ⟨word, op, [(.destination, .writable), (.left, .source)]⟩

def unaryForms : List Form :=
  [unaryForm "mov" (.unary .move), unaryForm "sqrt" (.unary .squareRoot),
    unaryForm "sin" (.unary .sine), unaryForm "cos" (.unary .cosine),
    unaryForm "tan" (.unary .tangent), unaryForm "asin" (.unary .arcSine),
    unaryForm "acos" (.unary .arcCosine), unaryForm "atan" (.unary .arcTangent),
    unaryForm "abs" (.unary .absolute), unaryForm "round" (.binary .round),
    unaryForm "assert" .assert, unaryForm "not" (.unary .complement)]

def binaryForm (word : String) (op : Operation) : Form :=
  ⟨word, op, [(.destination, .writable), (.left, .source), (.right, .source)]⟩

def binaryForms : List Form :=
  [binaryForm "add" (.binary .add), binaryForm "sub" (.binary .subtract),
    binaryForm "mul" (.binary .multiply), binaryForm "div" (.binary .divide),
    binaryForm "mod" (.binary .modulo), binaryForm "pow" (.binary .power),
    binaryForm "rnd" .randomReal, binaryForm "rndi" .randomInteger,
    binaryForm "round" (.binary .round), binaryForm "apx" (.binary .approximate),
    binaryForm "min" (.binary .minimum), binaryForm "max" (.binary .maximum),
    binaryForm "eq" (.binary (.compare .equal)), binaryForm "ne" (.binary (.compare .notEqual)),
    binaryForm "neq" (.binary (.compare .notEqual)), binaryForm "gt" (.binary (.compare .greater)),
    binaryForm "gte" (.binary (.compare .greaterEqual)), binaryForm "lt" (.binary (.compare .less)),
    binaryForm "lte" (.binary (.compare .lessEqual)), binaryForm "and" (.binary .bitAnd),
    binaryForm "or" (.binary .bitOr), binaryForm "xor" (.binary .bitXor),
    binaryForm "shl" (.binary .shiftLeft), binaryForm "shr" (.binary .shiftRight)]

/-- A device register is read into a place of the machine and written from a value of the machine. Both
are one operation; the side of the device register tells the direction. -/
def deviceForms : List Form :=
  [⟨"rd", .transfer, [(.destination, .onboard), (.left, .device)]⟩,
    ⟨"rdev", .transfer, [(.destination, .onboard), (.left, .device)]⟩,
    ⟨"wd", .transfer, [(.destination, .device), (.left, .plain)]⟩,
    ⟨"wdev", .transfer, [(.destination, .device), (.left, .plain)]⟩]

def memoryForms : List Form :=
  [⟨"malloc", .allocate, [(.destination, .writable), (.left, .plain)]⟩,
    ⟨"free", .free, [(.left, .plain)]⟩,
    ⟨"store", .store, [(.left, .plain), (.right, .source)]⟩,
    ⟨"load", .load, [(.destination, .writable), (.left, .plain)]⟩]

/-- The families of the instruction set, in the order in which they are asked. -/
def Family.standard : List Family :=
  [ofForms "self" bareForms, ofForms "sleep" sleepForms, ofForms "jump" jumpForms,
    ofForms "branch" branchForms, ofForms "stack" stackForms, ofForms "destination" destinationForms,
    ofForms "unary" unaryForms, ofForms "binary" binaryForms, ofForms "device" deviceForms,
    ofForms "memory" memoryForms]

/-- The words whose first operand is where to go on. -/
def isJumpWord (word : String) : Bool :=
  (jumpForms ++ branchForms).any (·.word == word)

end VirtualProcessor.Assembly
