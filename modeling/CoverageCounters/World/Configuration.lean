import CoverageCounters.Config.Settings
import CoverageCounters.Json.Parser
import CoverageCounters.World.Basic

/-!
Finding the configuration of a project: a file that is named, or else the first of two configuration
files in the project's root, or a section of its package description.
-/

namespace CoverageCounters

inductive ConfigError where
  | unreadable (path : OsText)
  | unparsable (path : OsText)
  | invalid (path : OsText) (fault : Config.Fault)
  | packageUnreadable (path : OsText)
  | packageUnparsable (path : OsText)
  | sectionUnparsable (path : OsText)
  | sectionInvalid (path : OsText) (fault : Config.Fault)
  | unresolved (fault : Config.Fault)
  deriving DecidableEq, Repr

namespace ConfigError

def chain : ConfigError → List Message
  | unreadable path => [.own ("failed to read config file: " ++ path.lossy),.io]
  | unparsable path => [.own ("failed to parse config file: " ++ path.lossy),.json]
  | invalid path fault => .own ("invalid config in: " ++ path.lossy) :: fault.chain
  | packageUnreadable path => [.own ("failed to read " ++ path.lossy),.io]
  | packageUnparsable path => [.own ("failed to parse " ++ path.lossy),.json]
  | sectionUnparsable path => [.own ("invalid nyc config in " ++ path.lossy),.json]
  | sectionInvalid path fault => .own ("invalid nyc config in " ++ path.lossy) :: fault.chain
  | unresolved fault => fault.chain

end ConfigError

def required {α ε : Type} (error : ε) : Option α → Except ε α
  | some a => .ok a
  | none => .error error

namespace World

def configFile (w : World) (path : OsText) : Except ConfigError Config := do
  let text ← required (.unreadable path) (w.read? path)
  let config ← required (.unparsable path) ((Json.parse? text).bind Config.ofJson?)
  config.check.mapError (.invalid path)
  return config

/-- The configuration in a package description, if it has the section. -/
def packageConfig (w : World) (path : OsText) : Except ConfigError (Option Config) := do
  let text ← required (.packageUnreadable path) (w.read? path)
  let package ← required (.packageUnparsable path) (Json.parse? text)
  match package.canonical.field? "nyc" with
  | none => return none
  | some value =>
    let config ← required (.sectionUnparsable path) (Config.ofSection? value)
    config.check.mapError (.sectionInvalid path)
    return some config

/-- The configuration of a project and the file it was found in. -/
def discoverConfig (w : World) (root : OsText) : Except ConfigError (Option (Config × OsText)) :=
  let first := Path.join root ".covinstrc.json"
  let second := Path.join root "covinst.config.json"
  let third := Path.join root "package.json"
  if w.has first then (w.configFile first).map fun c => some (c,first)
  else if w.has second then (w.configFile second).map fun c => some (c,second)
  else if w.has third then (w.packageConfig third).map (·.map fun c => (c,third))
  else .ok none

/-- The configuration in a file that is named, or else what is found. -/
def foundConfig (w : World) (root : OsText) (explicit : Option OsText) :
    Except ConfigError (Option (Config × OsText)) :=
  match explicit with
  | some path => (w.configFile path).map fun c => some (c,path)
  | none => w.discoverConfig root

/-- The settings of a project; without a configuration they are the defaults. -/
def settings (w : World) (root : OsText) (explicit : Option OsText) :
    Except ConfigError Settings := do
  match ← w.foundConfig root explicit with
  | none => Config.resolve {} |>.mapError .unresolved
  | some (config,path) =>
    let settings ← config.resolve.mapError .unresolved
    return { settings with source := some path }

end World
end CoverageCounters
