/-!
# Operations

What an instruction can do. Every operation has a code, its position in the instruction set, and a
mnemonic, its name in listings.
-/

namespace VirtualProcessor

/-- How two numbers are compared, by a branch or by an operation that yields 1 or 0. -/
inductive Comparison where
  | equal
  | notEqual
  | greater
  | greaterEqual
  | less
  | lessEqual
deriving DecidableEq, Repr

namespace Comparison

/-- The position among the comparisons of the instruction set. -/
def rank : Comparison → Nat
  | equal => 0
  | notEqual => 1
  | greater => 2
  | greaterEqual => 3
  | less => 4
  | lessEqual => 5

def word : Comparison → String
  | equal => "eq"
  | notEqual => "ne"
  | greater => "gt"
  | greaterEqual => "gte"
  | less => "lt"
  | lessEqual => "lte"

end Comparison

/-- A value computed from one operand. -/
inductive Unary where
  | move
  | squareRoot
  | sine
  | cosine
  | tangent
  | arcSine
  | arcCosine
  | arcTangent
  | absolute
  | complement
deriving DecidableEq, Repr

/-- A value computed from two operands. -/
inductive Binary where
  | round
  | add
  | subtract
  | multiply
  | divide
  | modulo
  | power
  | approximate
  | minimum
  | maximum
  | compare (c : Comparison)
  | bitAnd
  | bitOr
  | bitXor
  | shiftLeft
  | shiftRight
deriving DecidableEq, Repr

/-- The instruction set. A jump or branch that links leaves a return address when it is taken. -/
inductive Operation where
  | nop
  | yield
  | ret
  | die
  | breakpoint
  | sleep
  | jump (links : Bool)
  | branch (c : Comparison) (links : Bool)
  | push
  | pop
  | peek
  | increment
  | decrement
  | unary (f : Unary)
  | assert
  | binary (f : Binary)
  | randomReal
  | randomInteger
  | transfer
  | allocate
  | free
  | store
  | load
deriving DecidableEq, Repr

namespace Unary

def code : Unary → Nat
  | move => 25
  | squareRoot => 26
  | sine => 27
  | cosine => 28
  | tangent => 29
  | arcSine => 30
  | arcCosine => 31
  | arcTangent => 32
  | absolute => 33
  | complement => 36

def mnemonic : Unary → String
  | move => "mov"
  | squareRoot => "sqrt"
  | sine => "sin"
  | cosine => "cos"
  | tangent => "tan"
  | arcSine => "asin"
  | arcCosine => "acos"
  | arcTangent => "atan"
  | absolute => "abs"
  | complement => "not"

end Unary

namespace Binary

def code : Binary → Nat
  | round => 34
  | add => 37
  | subtract => 38
  | multiply => 39
  | divide => 40
  | modulo => 41
  | power => 42
  | approximate => 45
  | minimum => 46
  | maximum => 47
  | compare c => 48 + c.rank
  | bitAnd => 54
  | bitOr => 55
  | bitXor => 56
  | shiftLeft => 57
  | shiftRight => 58

def mnemonic : Binary → String
  | round => "round"
  | add => "add"
  | subtract => "sub"
  | multiply => "mul"
  | divide => "div"
  | modulo => "mod"
  | power => "pow"
  | approximate => "apx"
  | minimum => "min"
  | maximum => "max"
  | compare c => c.word
  | bitAnd => "and"
  | bitOr => "or"
  | bitXor => "xor"
  | shiftLeft => "shl"
  | shiftRight => "shr"

end Binary

namespace Operation

/-- The instruction set in the order of the codes. -/
def all : List Operation :=
  [nop, yield, ret, die, breakpoint, sleep, jump false, jump true,
    branch .equal false, branch .equal true, branch .notEqual false, branch .notEqual true,
    branch .greater false, branch .greater true, branch .greaterEqual false, branch .greaterEqual true,
    branch .less false, branch .less true, branch .lessEqual false, branch .lessEqual true,
    push, pop, peek, increment, decrement,
    unary .move, unary .squareRoot, unary .sine, unary .cosine, unary .tangent, unary .arcSine,
    unary .arcCosine, unary .arcTangent, unary .absolute, binary .round, assert, unary .complement,
    binary .add, binary .subtract, binary .multiply, binary .divide, binary .modulo, binary .power,
    randomReal, randomInteger, binary .approximate, binary .minimum, binary .maximum,
    binary (.compare .equal), binary (.compare .notEqual), binary (.compare .greater),
    binary (.compare .greaterEqual), binary (.compare .less), binary (.compare .lessEqual),
    binary .bitAnd, binary .bitOr, binary .bitXor, binary .shiftLeft, binary .shiftRight,
    transfer, allocate, free, store, load]

def code : Operation → Nat
  | nop => 0
  | yield => 1
  | ret => 2
  | die => 3
  | breakpoint => 4
  | sleep => 5
  | jump links => 6 + links.toNat
  | branch c links => 8 + 2 * c.rank + links.toNat
  | push => 20
  | pop => 21
  | peek => 22
  | increment => 23
  | decrement => 24
  | unary f => f.code
  | assert => 35
  | binary f => f.code
  | randomReal => 43
  | randomInteger => 44
  | transfer => 59
  | allocate => 60
  | free => 61
  | store => 62
  | load => 63

def ofCode? (n : Nat) : Option Operation := all[n]?

theorem ofCode?_code (op : Operation) : ofCode? op.code = some op := by
  cases op with
  | jump links => cases links <;> rfl
  | branch c links => cases c <;> cases links <;> rfl
  | unary f => cases f <;> rfl
  | binary f =>
    cases f with
    | compare c => cases c <;> rfl
    | _ => rfl
  | _ => rfl

def linkSuffix (links : Bool) : String := if links then "al" else ""

def mnemonic : Operation → String
  | nop => "nop"
  | yield => "yield"
  | ret => "ret"
  | die => "die"
  | breakpoint => "brk"
  | sleep => "sleep"
  | jump links => "j" ++ linkSuffix links
  | branch c links => "b" ++ c.word ++ linkSuffix links
  | push => "push"
  | pop => "pop"
  | peek => "peek"
  | increment => "inc"
  | decrement => "dec"
  | unary f => f.mnemonic
  | assert => "assert"
  | binary f => f.mnemonic
  | randomReal => "rnd"
  | randomInteger => "rndi"
  | transfer => "rw"
  | allocate => "malloc"
  | free => "free"
  | store => "store"
  | load => "load"

def isBranch : Operation → Bool
  | branch .. => true
  | _ => false

/-- Whether control may pass to a line other than the next. -/
def isJump : Operation → Bool
  | jump _ => true
  | op => op.isBranch

/-- Whether a taken jump leaves a return address. -/
def links : Operation → Bool
  | jump links => links
  | branch _ links => links
  | _ => false

end Operation

end VirtualProcessor
