import CoverageCounters.Coverage.Fingerprint
import CoverageCounters.Error

/-!
The coverage map of one pass: records are appended while it is open, each with a count of zero, and
freezing closes it and fixes its fingerprint.
-/

namespace CoverageCounters

structure CoverageMap where
  data : FileCoverage
  frozen : Bool

namespace CoverageMap

def new (path : String) : CoverageMap := ⟨.empty path,false⟩

def statementCount (m : CoverageMap) : Nat := m.data.statementMap.length
def functionCount (m : CoverageMap) : Nat := m.data.fnMap.length
def branchCount (m : CoverageMap) : Nat := m.data.branchMap.length

def setInputSourceMap (m : CoverageMap) (map : Json) : CoverageMap :=
  { m with data := { m.data with inputSourceMap := some map } }

/-- Run an operation on an open map; a closed one refuses it. -/
def ifOpen {α : Type} (m : CoverageMap) (result : Except InstrumentError α × CoverageMap) :
    Except InstrumentError α × CoverageMap :=
  if m.frozen then (.error (.frozen m.data.path),m) else result

/-- Register a statement; the answer is its index, beside the map that is left. -/
def newStatement (m : CoverageMap) (loc : Location) : Except InstrumentError Nat × CoverageMap :=
  m.ifOpen (.ok m.statementCount,
    { m with data := { m.data with
        statementMap := m.data.statementMap ++ [loc], s := m.data.s ++ [0] } })

/-- The name recorded for a function: its own, or one made from its index. -/
def functionName (name : Option String) (index : Nat) : String :=
  match name with
  | some n => if n.isEmpty then "(anonymous_" ++ toString index ++ ")" else n
  | none => "(anonymous_" ++ toString index ++ ")"

def newFunction (m : CoverageMap) (name : Option String) (decl loc : Location) :
    Except InstrumentError Nat × CoverageMap :=
  m.ifOpen (.ok m.functionCount,
    { m with data := { m.data with
        fnMap := m.data.fnMap ++ [⟨functionName name m.functionCount,decl,loc,loc.start.line⟩],
        f := m.data.f ++ [0] } })

def newBranch (m : CoverageMap) (kind : BranchKind) (loc : Location) :
    Except InstrumentError Nat × CoverageMap :=
  m.ifOpen (.ok m.branchCount,
    { m with data := { m.data with
        branchMap := m.data.branchMap ++ [⟨loc,kind,[],loc.start.line⟩], b := m.data.b ++ [[]] } })

/-- Add a path to a branch; the answer is the index of the path. -/
def addBranchPath (m : CoverageMap) (branch : Nat) (loc : Location) :
    Except InstrumentError Nat × CoverageMap :=
  m.ifOpen <|
    if branch < m.branchCount then
      (.ok (m.data.b.getD branch []).length,
        { m with data := { m.data with
            branchMap := m.data.branchMap.modify branch fun r =>
              { r with locations := r.locations ++ [loc] },
            b := m.data.b.modify branch (· ++ [0]) } })
    else (.error (.unknownBranch branch),m)

/-- Close the map, with its fingerprint or with what kept its content from being written. -/
def close (m : CoverageMap) : Except String String → Except InstrumentError Unit × CoverageMap
  | .ok hash => (.ok (),⟨{ m.data with hash := some hash },true⟩)
  | .error reason => (.error (.unwritten reason),⟨{ m.data with hash := none },true⟩)

/-- Close the map and fix its fingerprint; a closed map stays as it is. -/
def freeze (m : CoverageMap) : Except InstrumentError Unit × CoverageMap :=
  if m.frozen then (.ok (),m) else m.close m.data.fingerprint?

def hash? (m : CoverageMap) : Option String := m.data.hash

/-- Whatever a map holds can be written. -/
theorem freeze_eq (m : CoverageMap) :
    m.freeze = (.ok (),
      if m.frozen then m else ⟨{ m.data with hash := some m.data.fingerprint },true⟩) := by
  unfold freeze
  split <;> rfl

@[simp] theorem fst_freeze (m : CoverageMap) : m.freeze.1 = .ok () := by rw [freeze_eq]

@[simp] theorem frozen_freeze (m : CoverageMap) : m.freeze.2.frozen = true := by
  rw [freeze_eq]
  dsimp only
  split
  · assumption
  · rfl

end CoverageMap
end CoverageCounters
