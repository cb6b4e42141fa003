import CoverageCounters.CommandLine.Arguments

/-!
The commands of the program and how arguments spell them.
-/

namespace CoverageCounters

namespace CommandLine

inductive Topic where
  | program
  | instrument
  | config
  | configValidate
  | configShow
  | help
  | configHelp
  deriving DecidableEq, Repr

structure InstrumentCommand where
  path : String
  config : Option String := none
  coverageVariable : Option String := none
  ignoredMethods : List String := []
  output : Option String := none
  gitInfo : Bool := false
  relative : Bool := false
  pathLead : Option String := none
  incrementDir : Option String := none
  deriving DecidableEq, Repr

inductive Command where
  | instrument (command : InstrumentCommand)
  | validateConfig (path : Option String)
  | showConfig (path : Option String)
  | version
  | help (topic : Topic)
  deriving DecidableEq, Repr

def instrumentSpec : Spec :=
  { options := [⟨"config",.path,false⟩,⟨"coverage-variable",.text,false⟩,
      ⟨"ignore-class-method",.text,true⟩,⟨"output",.path,false⟩,⟨"git-info",.flag,false⟩,
      ⟨"relative",.flag,false⟩,⟨"path-prefix",.text,false⟩,
      ⟨"increment-coverage-dir",.text,false⟩]
    operands := 1 }

def configSpec : Spec := { options := [⟨"path",.path,false⟩] }

def InstrumentCommand.ofArguments (a : Arguments) : InstrumentCommand :=
  { path := a.operands.headD "", config := a.value? "config",
    coverageVariable := a.value? "coverage-variable",
    ignoredMethods := a.values "ignore-class-method", output := a.value? "output",
    gitInfo := a.hasFlag "git-info", relative := a.hasFlag "relative",
    pathLead := a.value? "path-prefix", incrementDir := a.value? "increment-coverage-dir" }

/-- Read the arguments of a command with a help topic of its own; without a command the usage was
wrong. -/
def Spec.command (spec : Spec) (topic : Topic) (f : Arguments → Command) (arguments : List String) :
    Option Command :=
  match spec.read arguments with
  | .ok a => some (f a)
  | .error .help => some (.help topic)
  | .error .usage => none

def Topic.ofNames? : List String → Option Topic
  | [] => some program
  | ["instrument"] => some instrument
  | ["config"] => some config
  | ["config","validate"] => some configValidate
  | ["config","show"] => some configShow
  | ["config","help"] => some configHelp
  | ["help"] => some help
  | _ => none

/-- Whether an argument, standing where a command is due, asks for help. -/
def asksHelp (argument : String) : Bool :=
  match shape argument with
  | .short letters => letters.head? = some 'h'
  | .long name value => name = "help" && value.isNone
  | _ => false

/-- Whether an argument, standing where a command is due, asks for the version. -/
def asksVersion (argument : String) : Bool :=
  match shape argument with
  | .short letters => letters.head? = some 'V'
  | .long name value => name = "version" && value.isNone
  | _ => false

def parseConfig : List String → Option Command
  | "validate" :: rest =>
    configSpec.command .configValidate (.validateConfig <| ·.value? "path") rest
  | "show" :: rest => configSpec.command .configShow (.showConfig <| ·.value? "path") rest
  | "help" :: names => (Topic.ofNames? ("config" :: names)).map .help
  | argument :: _ => if asksHelp argument then some (.help .config) else none
  | [] => none

/-- The command that arguments spell; without one the usage was wrong. -/
def parse : List String → Option Command
  | "instrument" :: rest =>
    instrumentSpec.command .instrument (.instrument ∘ InstrumentCommand.ofArguments) rest
  | "config" :: rest => parseConfig rest
  | "help" :: names => (Topic.ofNames? names).map .help
  | argument :: _ =>
    if asksHelp argument then some (.help .program)
    else if asksVersion argument then some .version
    else none
  | [] => none

end CommandLine
end CoverageCounters
