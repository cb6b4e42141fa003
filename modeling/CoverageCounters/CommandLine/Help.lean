import CoverageCounters.CommandLine.Command

/-!
The texts of the program about itself.
-/

namespace CoverageCounters

namespace CommandLine

def programName : String := "covinst"

def versionText : String := programName ++ " 0.1.0"

def about : String := "Instrument JavaScript and TypeScript sources with coverage counters"

def helpOfHelp : List String :=
  ["Arguments:","  [COMMAND]...  Print help for the subcommand(s)"]

/-- An option and, on the next line, what it is for. -/
def optionLines (entry : String × String) : List String :=
  ["      " ++ entry.1,"          " ++ entry.2]

def instrumentOptions : List (String × String) :=
  [("--config <CONFIG>","Path to config file (default: auto-discover)"),
   ("--coverage-variable <COVERAGE_VARIABLE>",
    "Global variable holding the coverage registry (overrides config file)"),
   ("--ignore-class-method <IGNORE_CLASS_METHODS>",
    "Class method name never counted (repeatable, added to config file names)"),
   ("--output <OUTPUT>","Write JSON to this file instead of stdout"),
   ("--git-info","Embed git metadata in the first instrumented file and wrap the output in a "
    ++ "report carrying it"),
   ("--relative","Record paths relative to the instrumented root"),
   ("--path-prefix <PATH_PREFIX>","Template put in front of relative paths, e.g. "
    ++ "'store/$\x7bproject_name\x7d/$\x7bbranch\x7d/code' (implies --relative)"),
   ("--increment-coverage-dir <INCREMENT_COVERAGE_DIR>",
    "Baseline directory for incremental coverage, recorded in the report")]

def configPathLines : List String :=
  ["Options:",
   "      --path <PATH>  Path to config file (default: auto-discover from current directory)",
   "  -h, --help         Print help"]

def commandHelp : String := "Print this message or the help of the given subcommand(s)"

def Topic.lines : Topic → List String
  | program =>
    [about,"","Usage: " ++ programName ++ " <COMMAND>","","Commands:",
     "  instrument  Instrument source files and print their initial coverage maps as JSON",
     "  config      Validate or inspect a configuration file",
     "  help        " ++ commandHelp,"","Options:",
     "  -h, --help     Print help","  -V, --version  Print version"]
  | instrument =>
    ["Instrument source files and print their initial coverage maps as JSON","",
     "Usage: " ++ programName ++ " instrument [OPTIONS] <PATH>","","Arguments:",
     "  <PATH>  Path to source file or directory","","Options:"]
    ++ instrumentOptions.flatMap optionLines ++ ["  -h, --help","          Print help"]
  | config =>
    ["Validate or inspect a configuration file","",
     "Usage: " ++ programName ++ " config <COMMAND>","","Commands:",
     "  validate  Validate a config file without instrumenting anything",
     "  show      Show the resolved configuration (merged defaults + config file)",
     "  help      " ++ commandHelp,"","Options:","  -h, --help  Print help"]
  | configValidate =>
    ["Validate a config file without instrumenting anything","",
     "Usage: " ++ programName ++ " config validate [OPTIONS]",""] ++ configPathLines
  | configShow =>
    ["Show the resolved configuration (merged defaults + config file)","",
     "Usage: " ++ programName ++ " config show [OPTIONS]",""] ++ configPathLines
  | help => [commandHelp,"","Usage: " ++ programName ++ " help [COMMAND]...",""] ++ helpOfHelp
  | configHelp =>
    [commandHelp,"","Usage: " ++ programName ++ " config help [COMMAND]...",""] ++ helpOfHelp

end CommandLine
end CoverageCounters
