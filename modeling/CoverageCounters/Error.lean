import CoverageCounters.Node.Kind
import CoverageCounters.Source.Location

/-!
Why a pass can fail. Leaving a file out on request and finding it instrumented already are outcomes,
not errors.
-/

namespace CoverageCounters

inductive InstrumentError where
  /-- A counter had to stand before a statement that is in no list. -/
  | unsupportedNode (kind : Kind) (location : Option Location)
  /-- A case was met whose switch has no branch. -/
  | missingSwitchBranch (location : Option Location)
  | unknownBranch (index : Nat)
  | frozen (path : String)
  | unwritten (reason : String)
  deriving DecidableEq, Repr

namespace InstrumentError

def placeText : Option Location → String
  | some l => " at " ++ l.text
  | none => ""

def message : InstrumentError → String
  | unsupportedNode kind location =>
    "unable to insert counter for node type " ++ kind.name ++ placeText location
  | missingSwitchBranch location =>
    "switch case visited without a branch registered on its switch" ++ placeText location
  | unknownBranch index => "unknown branch index " ++ toString index
  | frozen path => "coverage map for " ++ path ++ " is frozen"
  | unwritten reason => "failed to serialize coverage data: " ++ reason

end InstrumentError

/-- A message of an error report. Where a reader of JSON, of patterns or of files speaks, the report
keeps its place and not its words. -/
inductive Message where
  | own (text : String)
  | json
  | glob
  | io
  deriving DecidableEq, Repr

namespace Message

def text : Message → String
  | own text => text
  | json => "<json>"
  | glob => "<glob>"
  | io => "<io>"

end Message
end CoverageCounters
