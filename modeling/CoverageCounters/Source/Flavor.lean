/-!
Which files are sources, and in which flavor of the language each is read. A file name decides
both by its ending.
-/

namespace CoverageCounters

def hasEnding (text ending : String) : Bool := ending.toList.isSuffixOf text.toList

inductive Flavor where
  | ecmaScript
  | typeScript
  | typeScriptJsx
  | declarations
  deriving DecidableEq, Repr

namespace Flavor

def name : Flavor → String
  | ecmaScript => "es"
  | typeScript => "ts"
  | typeScriptJsx => "tsx"
  | declarations => "dts"

def ofFileName (file : String) : Flavor :=
  if hasEnding file ".tsx" then .typeScriptJsx
  else if hasEnding file ".d.ts" then .declarations
  else if [".ts",".mts",".cts"].any (hasEnding file ·) then .typeScript
  else .ecmaScript

end Flavor

def supportedExtensions : List String :=
  [".js",".mjs",".cjs",".jsx",".ts",".mts",".cts",".tsx"]

def isSupported (file : String) : Bool := supportedExtensions.any (hasEnding file ·)

/-- Whether a file has code to count: declarations run nowhere. -/
def isSource (file : String) : Bool := !hasEnding file ".d.ts" && isSupported file

end CoverageCounters
