import CoverageCounters.Path.Style

/-!
Configurations as they are written: every field may be left out. A configuration file is an object
with the fields of `Config.fieldNames`, or the array of their values in that order; the section of a
package description has names of its own and tolerates others beside them.
-/

namespace CoverageCounters

structure Config where
  includes : List String := []
  excludes : List String := []
  coverageVariable : Option String := none
  ignoredMethods : List String := []
  extensions : List String := []
  pathLocation : Option PathLocation := none
  pathLead : Option String := none
  incrementDir : Option String := none
  deriving DecidableEq, Repr

namespace Config

/-- The fields of a configuration file, in order. -/
def fieldNames : List String :=
  ["include","exclude","coverage_variable","ignore_class_methods","extensions","path_location",
   "relative_path_prefix","increment_coverage_dir"]

/-- The same fields as a section of a package description names them. -/
def sectionNames : List String :=
  ["include","exclude","coverageVariable","ignoreClassMethod","extension",
   "filePathLocationType","relativePathPrefix","incrementCoverageDir"]

def values (c : Config) : List Json :=
  [.strings c.includes,.strings c.excludes,.ofOption .string c.coverageVariable,
   .strings c.ignoredMethods,.strings c.extensions,
   .ofOption (fun l => .string l.name) c.pathLocation,.ofOption .string c.pathLead,
   .ofOption .string c.incrementDir]

def toJson (c : Config) : Json := .object (fieldNames.zip c.values)

/-- A list of texts; absent, it is empty. -/
def texts? : Option Json → Option (List String)
  | none => some []
  | some (.array items) => items.mapM Json.asString?
  | some _ => none

/-- A text that may be absent or null. -/
def text? : Option Json → Option (Option String)
  | none | some .null => some none
  | some (.string s) => some (some s)
  | some _ => none

/-- A location that may be absent or null: its name, or an object from its name to null. -/
def location? : Option Json → Option (Option PathLocation)
  | none | some .null => some none
  | some (.string name) | some (.object [(name,.null)]) => (PathLocation.ofName? name).map some
  | some _ => none

/-- A configuration from its fields by their place in the order. -/
def ofFields? (field : Nat → Option Json) : Option Config := do
  return { includes := ← texts? (field 0), excludes := ← texts? (field 1),
           coverageVariable := ← text? (field 2), ignoredMethods := ← texts? (field 3),
           extensions := ← texts? (field 4), pathLocation := ← location? (field 5),
           pathLead := ← text? (field 6), incrementDir := ← text? (field 7) }

/-- A configuration from the array of its values; those at the end may be missing. -/
def ofValues? (items : List Json) : Option Config :=
  if items.length ≤ fieldNames.length then ofFields? (items[·]?) else none

def ofEntries? (names : List String) (entries : List (String × Json)) : Option Config :=
  ofFields? fun i => names[i]?.bind (Json.lookup · entries)

/-- A configuration from the value of a configuration file, which has no other fields and none
twice. -/
def ofJson? : Json → Option Config
  | .array items => ofValues? items
  | .object entries =>
    let keys := entries.map (·.1)
    if keys.all fieldNames.contains && decide keys.Nodup then ofEntries? fieldNames entries
    else none
  | _ => none

/-- A configuration from a section of a package description. -/
def ofSection? : Json → Option Config
  | .array items => ofValues? items
  | .object entries => ofEntries? sectionNames entries
  | _ => none

end Config
end CoverageCounters
