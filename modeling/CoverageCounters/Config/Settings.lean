import CoverageCounters.Config.Basic
import CoverageCounters.Glob.Parser
import CoverageCounters.Error
import CoverageCounters.Pass.Program
import CoverageCounters.Source.Flavor
import CoverageCounters.Text.Quoted

/-!
Settings: a configuration that makes sense, with its patterns read and its defaults filled in.
-/

namespace CoverageCounters

namespace Config

/-- Why a configuration makes no sense. -/
inductive Fault where
  | blankVariable
  | blankMethod
  | extension (text : String)
  | placeholder (name : String)
  | blankIncrementDir
  | includePattern (pattern : String) (error : Glob.Error)
  | excludePattern (pattern : String) (error : Glob.Error)
  deriving DecidableEq, Repr

namespace Fault

def chain : Fault → List Message
  | blankVariable => [.own "coverage_variable must not be empty"]
  | blankMethod => [.own "ignore_class_methods entries must not be empty"]
  | extension text => [.own ("extensions must start with '.' (got " ++ quoted text ++ ")")]
  | placeholder name =>
    [.own "invalid relative_path_prefix",.own (Template.unknownMessage name)]
  | blankIncrementDir => [.own "increment_coverage_dir must not be empty"]
  | includePattern pattern _ => [.own ("invalid include pattern: " ++ pattern),.glob]
  | excludePattern pattern _ => [.own ("invalid exclude pattern: " ++ pattern),.glob]

end Fault

/-- An extension is a dot and something after it. -/
def isExtension (text : String) : Bool :=
  match text.toList with
  | '.' :: _ :: _ => true
  | _ => false

/-- Read patterns; the first that is none is the fault. -/
def patterns (fault : String → Glob.Error → Fault) (texts : List String) :
    Except Fault (List Glob) :=
  texts.mapM fun text => (Glob.parse text).mapError (fault text)

def check (c : Config) : Except Fault Unit := do
  if c.coverageVariable.any isBlankText then throw .blankVariable
  if c.ignoredMethods.any isBlankText then throw .blankMethod
  if let some text := c.extensions.find? (!isExtension ·) then throw (.extension text)
  if let some name := c.pathLead.bind Template.unknown? then throw (.placeholder name)
  if c.incrementDir.any isBlankText then throw .blankIncrementDir
  let _ ← patterns .includePattern c.includes
  let _ ← patterns .excludePattern c.excludes

/-- What is left out if a configuration leaves nothing out. -/
def defaultExcludes : List String :=
  ["coverage/**","test/**","tests/**",
   "test.\x7bjs,cjs,mjs,ts,tsx,jsx\x7d",
   "test-*.\x7bjs,cjs,mjs,ts,tsx,jsx\x7d",
   "**/*\x7b.,-\x7dtest.\x7bjs,cjs,mjs,ts,tsx,jsx\x7d",
   "**/*\x7b.,-\x7dspec.\x7bjs,cjs,mjs,ts,tsx,jsx\x7d",
   "**/__tests__/**","**/__mocks__/**","**/node_modules/**","**/*.d.ts","**/dist/**"]

end Config

structure Settings where
  /-- The patterns of the files that are taken; absent, all are. -/
  includes : Option (List Glob)
  excludes : List Glob
  coverageVariable : String
  ignoredMethods : List String
  extensions : List String
  pathLocation : PathLocation
  pathLead : Option String
  incrementDir : Option String
  /-- The file the settings were read from. -/
  source : Option OsText := none

def orDefault {α : Type} (default xs : List α) : List α := if xs.isEmpty then default else xs

def Config.resolve (c : Config) : Except Config.Fault Settings := do
  c.check
  let includes ← Config.patterns .includePattern c.includes
  let excludes ← Config.patterns .excludePattern (orDefault Config.defaultExcludes c.excludes)
  return { includes := if c.includes.isEmpty then none else some includes, excludes,
           coverageVariable := c.coverageVariable.getD defaultCoverageVariable,
           ignoredMethods := c.ignoredMethods,
           extensions := orDefault supportedExtensions c.extensions,
           pathLocation := c.pathLocation.getD .absolute,
           pathLead := c.pathLead, incrementDir := c.incrementDir }

namespace Settings

def selects (s : Settings) (path : String) : Bool :=
  let path := Path.normalize path
  s.extensions.any (hasEnding path ·) && !s.excludes.any (·.isMatch path)
    && s.includes.all (·.any (·.isMatch path))

def options (s : Settings) : Options :=
  { coverageVariable := s.coverageVariable, ignoredMethods := s.ignoredMethods }

def style (s : Settings) (git : Option GitInfo) : PathStyle :=
  .resolve s.pathLocation s.pathLead git

end Settings
end CoverageCounters
