/-!
Arguments of a command: options with values, flags, and operands. Reading stops at the first
argument that is wrong or that asks for help.
-/

namespace CoverageCounters

namespace CommandLine

/-- What an option takes. A path is a text that is not empty. -/
inductive OptionKind where
  | flag
  | text
  | path
  deriving DecidableEq, Repr

structure OptionSpec where
  name : String
  kind : OptionKind
  repeatable : Bool := false
  deriving DecidableEq, Repr

/-- What a command takes: options, and a number of operands that are paths. -/
structure Spec where
  options : List OptionSpec
  operands : Nat := 0

inductive Stop where
  | usage
  | help
  deriving DecidableEq, Repr

/-- Options and operands read so far, in order. -/
structure Arguments where
  options : List (String × String) := []
  operands : List String := []
  deriving DecidableEq, Repr

namespace Arguments

def value? (a : Arguments) (name : String) : Option String :=
  (a.options.find? (·.1 = name)).map (·.2)

/-- The values of an option that may be given many times. -/
def values (a : Arguments) (name : String) : List String :=
  (a.options.filter (·.1 = name)).map (·.2)

def hasFlag (a : Arguments) (name : String) : Bool := (a.value? name).isSome

def addOption (a : Arguments) (o : OptionSpec) (value : String) : Except Stop Arguments :=
  if o.kind = .path && value.isEmpty then .error .usage
  else if !o.repeatable && a.hasFlag o.name then .error .usage
  else .ok { a with options := a.options ++ [(o.name,value)] }

def addOperand (a : Arguments) (spec : Spec) (value : String) : Except Stop Arguments :=
  if value.isEmpty || spec.operands ≤ a.operands.length then .error .usage
  else .ok { a with operands := a.operands ++ [value] }

end Arguments

inductive Shape where
  | separator
  /-- Two hyphens and a name, with the value behind an equals sign if there is one. -/
  | long (name : String) (value : Option String)
  /-- One hyphen and letters. -/
  | short (letters : List Char)
  | operand
  deriving DecidableEq, Repr

def shape (argument : String) : Shape :=
  match argument.toList with
  | ['-','-'] => .separator
  | '-' :: '-' :: rest =>
    let name := String.ofList (rest.takeWhile (· ≠ '='))
    match rest.dropWhile (· ≠ '=') with
    | [] => .long name none
    | _ :: value => .long name (some (String.ofList value))
  | '-' :: letter :: letters => .short (letter :: letters)
  | _ => .operand

/-- Read operands only, as behind a separator. -/
def readOperands (spec : Spec) (a : Arguments) : List String → Except Stop Arguments
  | [] => .ok a
  | value :: rest => do readOperands spec (← a.addOperand spec value) rest

/-- Read arguments. An option's value is what follows an equals sign, or the next argument unless
that looks like an option. -/
def readArguments (spec : Spec) (a : Arguments) : List String → Except Stop Arguments
  | [] => .ok a
  | argument :: rest =>
    match shape argument with
    | .separator => readOperands spec a rest
    | .operand => do readArguments spec (← a.addOperand spec argument) rest
    | .short letters => .error (if letters.head? = some 'h' then .help else .usage)
    | .long name attached =>
      match spec.options.find? (·.name = name), attached with
      | none, none => .error (if name = "help" then .help else .usage)
      | none, some _ => .error .usage
      | some o, some value =>
        if o.kind = .flag then .error .usage
        else do readArguments spec (← a.addOption o value) rest
      | some o, none =>
        if o.kind = .flag then do readArguments spec (← a.addOption o "") rest
        else match rest with
          | [] => .error .usage
          | value :: rest =>
            if shape value = .operand then do readArguments spec (← a.addOption o value) rest
            else .error .usage

/-- Read all arguments of a command, whose operands must all be there. -/
def Spec.read (spec : Spec) (arguments : List String) : Except Stop Arguments := do
  let a ← readArguments spec {} arguments
  if a.operands.length = spec.operands then return a else throw .usage

end CommandLine
end CoverageCounters
