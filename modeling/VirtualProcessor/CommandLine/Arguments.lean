import VirtualProcessor.Number.Numeral

/-!
# Arguments

Arguments are options with their values, and operands. An option is written `--name`, or `-x` if it has a
letter. One value may be attached to it, as in `--name=value`, `-x=value` or `-xvalue`; otherwise its values
are the arguments behind it, which must not look like options themselves. Behind `--` there are only
operands. Arguments are read from the front, and a request for help ends the reading: what stands behind it
may be anything, what stands in front of it has to be right.
-/

namespace VirtualProcessor.CommandLine

/-- Why arguments are refused. -/
inductive Refusal where
  | unexpected (argument : String)
  | missing (what : String)
  | repeated (option : String)
  | invalid (option value : String)
deriving DecidableEq, Repr

def Refusal.message : Refusal → String
  | unexpected argument => "unexpected argument '" ++ argument ++ "'"
  | missing what => "missing " ++ what
  | repeated option => "option '--" ++ option ++ "' is given more than once"
  | invalid option value => "invalid value '" ++ value ++ "' for '" ++ option ++ "'"

/-- An option: its name, its letter, how many values it takes, and whether it may be given more than
once. -/
structure Switch where
  name : String
  letter : Option Char := none
  values : Nat := 0
  repeatable : Bool := false
deriving DecidableEq, Repr

/-- How one argument is written. -/
inductive Written where
  | operand
  | divider
  | named (name : String) (attached : Option String)
  | lettered (letter : Char) (attached : Option String)
deriving DecidableEq, Repr

/-- What stands behind a letter: nothing, or a value with or without an equals sign. -/
def attachedTo : List Char → Option String
  | [] => none
  | '=' :: cs => some (String.ofList cs)
  | cs => some (String.ofList cs)

def Written.ofText (argument : String) : Written :=
  match argument.toList with
  | ['-', '-'] => .divider
  | '-' :: '-' :: cs =>
    .named (String.ofList (cs.takeWhile (· != '=')))
      (match cs.dropWhile (· != '=') with
        | [] => none
        | _ :: value => some (String.ofList value))
  | '-' :: letter :: cs => .lettered letter (attachedTo cs)
  | _ => .operand

/-- The option that an argument names, with the value attached to it. -/
def Written.switch? (switches : List Switch) : Written → Option (Switch × Option String)
  | named name attached => (switches.find? (·.name == name)).map (·, attached)
  | lettered letter attached => (switches.find? (·.letter == some letter)).map (·, attached)
  | _ => none

/-- Arguments sorted into options with their values, and operands; and whether they end in a request for
help. -/
structure Given where
  options : List (String × List String) := []
  operands : List String := []
  help : Bool := false
deriving DecidableEq, Repr

def Given.withOption (g : Given) (name : String) (values : List String) : Given :=
  { g with options := (name, values) :: g.options }

/-- Whether an argument is the option of this name or letter. Nothing may be attached to the name; behind the
letter nothing is read any more. -/
def Written.is (name : String) (letter : Char) : Written → Bool
  | named n none => n == name
  | lettered l _ => l == letter
  | _ => false

/-- Whether an argument asks for help. -/
def Written.asksForHelp (w : Written) : Bool := w.is "help" 'h'

def isOperand (argument : String) : Bool := Written.ofText argument == .operand

/-- Sorts arguments. -/
def sort (switches : List Switch) : List String → Except Refusal Given
  | [] => .ok {}
  | argument :: rest =>
    match Written.ofText argument with
    | .divider => .ok { operands := rest }
    | .operand => do
      let g ← sort switches rest
      .ok { g with operands := argument :: g.operands }
    | written =>
      if written.asksForHelp then .ok { help := true }
      else
        match written.switch? switches with
        | none => .error (.unexpected argument)
        | some (s, attached) =>
          match s.values, attached, rest with
          | 0, none, rest => do
            let g ← sort switches rest
            .ok (g.withOption s.name [])
          | 0, some _, _ => .error (.unexpected argument)
          | 1, some value, rest => do
            let g ← sort switches rest
            .ok (g.withOption s.name [value])
          | 1, none, value :: rest =>
            if isOperand value then do
              let g ← sort switches rest
              .ok (g.withOption s.name [value])
            else .error (.missing s.name)
          | 2, none, first :: second :: rest =>
            if isOperand first && isOperand second then do
              let g ← sort switches rest
              .ok (g.withOption s.name [first, second])
            else .error (.missing s.name)
          | _, _, _ => .error (.missing s.name)

/-- The values of all uses of an option, in order. -/
def Given.valuesOf (g : Given) (name : String) : List String :=
  (g.options.filter (·.1 == name)).flatMap (·.2)

def Given.uses (g : Given) (name : String) : Nat := g.options.countP (·.1 == name)

def Given.has (g : Given) (name : String) : Bool := 0 < g.uses name

/-- Refuses an option that is given too often. -/
def Given.checkUses (g : Given) (switches : List Switch) : Except Refusal Unit :=
  match switches.find? fun s => !s.repeatable && 1 < g.uses s.name with
  | some s => .error (.repeated s.name)
  | none => .ok ()

/-! ## Values -/

/-- A numeral below a bound, with a plus sign or without. -/
def unsigned? (bound : Nat) : List Char → Option Nat
  | '+' :: cs => Numeral.below? bound (Numeral.decimal? cs)
  | cs => Numeral.below? bound (Numeral.decimal? cs)

/-- A count of thirty-two bits. Zero may have a minus sign. -/
def word? : List Char → Option Nat
  | '-' :: cs => Numeral.below? 1 (Numeral.decimal? cs)
  | cs => unsigned? UInt32.size cs

/-- A count of sixty-four bits. -/
def wide? (cs : List Char) : Option Nat := unsigned? UInt64.size cs

/-- The numbers that are given for an option. -/
def Given.numbers (g : Given) (read? : List Char → Option Nat) (name : String) :
    Except Refusal (List Nat) :=
  (g.valuesOf name).mapM fun value =>
    match read? value.toList with
    | some n => .ok n
    | none => .error (.invalid name value)

/-- The number that is given for an option, if one is. -/
def Given.number? (g : Given) (read? : List Char → Option Nat) (name : String) :
    Except Refusal (Option Nat) := do
  let numbers ← g.numbers read? name
  .ok numbers.head?

/-- A path must not be empty. -/
def checkPath (what path : String) : Except Refusal String :=
  if path.isEmpty then .error (.invalid what path) else .ok path

def Given.path? (g : Given) (name : String) : Except Refusal (Option String) :=
  match (g.valuesOf name).head? with
  | some path => do
    let path ← checkPath name path
    .ok (some path)
  | none => .ok none

end VirtualProcessor.CommandLine
