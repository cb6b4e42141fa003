import CoverageCounters.CommandLine.Help
import CoverageCounters.Json.Printer
import CoverageCounters.World.Configuration
import CoverageCounters.World.Basic
import CoverageCounters.World.Tree

/-!
Running commands: what is printed, what is written, and the code the program ends with.
-/

namespace CoverageCounters

namespace CommandLine

/-- What a run leaves behind. -/
structure Result where
  code : Nat
  output : List String
  /-- Lines on the error channel. -/
  errors : List String
  world : World

def textOfLines (lines : List String) : String := String.join (lines.map (· ++ "\n"))

namespace Result

def outputText (r : Result) : String := textOfLines r.output

end Result

/-- The causes below an error's outermost message, numbered if there are several. -/
def causeLines (causes : List Message) : List String :=
  match causes with
  | [] => []
  | [cause] => ["","Caused by:","    " ++ cause.text]
  | _ => ["","Caused by:"] ++
    causes.zipIdx.map fun (cause,i) => "    " ++ toString i ++ ": " ++ cause.text

/-- The lines that report an error by its chain of messages. -/
def errorLines : List Message → List String
  | [] => []
  | message :: causes => ("Error: " ++ message.text) :: causeLines causes

/-- The directory that the search for a configuration starts from. -/
def projectRoot (w : World) (path : OsText) : OsText :=
  if w.isFile path then (Path.parent? path).getD path else path

/-- What an instrument command asks for, settings and arguments taken together. -/
structure Plan where
  root : OsText
  settings : Settings
  options : Options
  style : PathStyle
  git : Option GitInfo
  incrementDir : Option String

/-- Where paths are anchored: the arguments go before the settings. -/
def InstrumentCommand.location (c : InstrumentCommand) (settings : Settings) : PathLocation :=
  if c.relative || c.pathLead.isSome then .relative else settings.pathLocation

def InstrumentCommand.template (c : InstrumentCommand) (settings : Settings) : Option String :=
  c.pathLead.or settings.pathLead

/-- Whether repository metadata is used. -/
def InstrumentCommand.needsGit (c : InstrumentCommand) (settings : Settings) : Bool :=
  c.gitInfo || (c.location settings = .relative
    && (c.template settings).any Template.hasPlaceholders)

/-- The plan of a command, or the messages of what is wrong with it. -/
def InstrumentCommand.plan (w : World) (c : InstrumentCommand) : Except (List Message) Plan := do
  let root := if Path.isAbsolute c.path then .ofString c.path else Path.join w.directory c.path
  if !w.has root then throw [.own ("Path does not exist: " ++ root.lossy)]
  let settings ← (w.settings (projectRoot w root) (c.config.map .ofString)).mapError fun e =>
    .own "failed to load configuration" :: e.chain
  if let some name := c.pathLead.bind Template.unknown? then
    throw [.own "invalid --path-prefix",.own (Template.unknownMessage name)]
  let git := if c.needsGit settings then some w.gitInfo else none
  return { root, settings, git,
           options := { settings.options with
             coverageVariable := c.coverageVariable.getD settings.coverageVariable
             ignoredMethods := settings.ignoredMethods ++ c.ignoredMethods }
           style := .resolve (c.location settings) (c.template settings) git
           incrementDir := c.incrementDir.or settings.incrementDir }

/-- What is printed: a report if report fields were asked for, and otherwise the files alone. -/
def InstrumentCommand.document (c : InstrumentCommand) (p : Plan) (files : CoverageSet) : Json :=
  if c.gitInfo || p.incrementDir.isSome then
    CoverageReport.toJson
      { data := files, git := if c.gitInfo then p.git else none, incrementDir := p.incrementDir,
        pathLead := p.style.lead? }
  else files.toJson

def skippedLines (skipped : Nat) : List String :=
  if skipped = 0 then [] else ["Skipped " ++ toString skipped ++ " file(s) due to errors"]

/-- Deliver the document of a run: to the file that was named, or to the output. -/
def InstrumentCommand.deliver (w : World) (c : InstrumentCommand) (p : Plan) (tree : TreeCoverage) :
    Result :=
  let document := (c.document p tree.files).pretty
  let skipped := skippedLines tree.skipped
  match c.output with
  | none => ⟨0,[document],skipped,w⟩
  | some path =>
    match w.write? path (document ++ "\n") with
    | none => ⟨1,[],skipped ++ errorLines [.own ("failed to write " ++ path),.io],w⟩
    | some after => ⟨0,[],skipped ++ ["Wrote coverage maps for " ++ toString tree.files.size
        ++ " file(s) to " ++ path],after⟩

def failed (w : World) (messages : List Message) : Result := ⟨1,[],errorLines messages,w⟩

def InstrumentCommand.run (w : World) (parse : SourceParser) (c : InstrumentCommand) : Result :=
  match c.plan w with
  | .error messages => failed w messages
  | .ok p =>
    let batch := Batch.new (if c.gitInfo then p.git else none)
    match w.instrumentTree parse p.root p.settings p.options p.style batch with
    | .error e => failed w e.chain
    | .ok (tree,_) => c.deliver w p tree

def listText (texts : List String) : String :=
  if texts.isEmpty then "none" else ", ".intercalate texts

def settingsLines (s : Settings) : List String :=
  ["Configuration:",
   "  Source: " ++ (s.source.map OsText.lossy).getD "defaults (no config file found)",
   "",
   "Instrumentation:",
   "  coverage_variable: " ++ s.coverageVariable,
   "  ignore_class_methods: " ++ listText s.ignoredMethods,
   "  path_location: " ++ s.pathLocation.name,
   "  relative_path_prefix: " ++ s.pathLead.getD "none",
   "  increment_coverage_dir: " ++ s.incrementDir.getD "none",
   "",
   "Filters:",
   "  extensions: " ++ " ".intercalate s.extensions,
   "  include: " ++ (if s.includes.isSome then "custom" else "all"),
   "  exclude: " ++ toString s.excludes.length ++ " pattern(s)"]

def validateConfig (w : World) (path : Option String) : Result :=
  match w.settings w.directory (path.map .ofString) with
  | .ok s => ⟨0,[(s.source.map fun path => "Config valid: " ++ path.lossy).getD
      "No config file found. Using defaults."],[],w⟩
  | .error e =>
    ⟨1,[],["Config validation failed: " ++ ": ".intercalate (e.chain.map Message.text)],w⟩

def showConfig (w : World) (path : Option String) : Result :=
  match w.settings w.directory (path.map .ofString) with
  | .ok s => ⟨0,settingsLines s,[],w⟩
  | .error e => failed w (.own "failed to load configuration" :: e.chain)

/-- Run the program on its arguments. Wrong usage ends it with code 2. -/
def run (w : World) (parse : SourceParser) (arguments : List String) : Result :=
  match CommandLine.parse arguments with
  | none => ⟨2,[],[],w⟩
  | some .version => ⟨0,[versionText],[],w⟩
  | some (.help topic) => ⟨0,topic.lines,[],w⟩
  | some (.instrument c) => c.run w parse
  | some (.validateConfig path) => validateConfig w path
  | some (.showConfig path) => showConfig w path

end CommandLine
end CoverageCounters
