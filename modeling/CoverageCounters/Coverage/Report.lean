import CoverageCounters.Coverage.Codec
import CoverageCounters.Git

/-!
What is known of many files: their coverage by recorded path, and reports that put repository
metadata and the settings of a coverage store beside it.
-/

namespace CoverageCounters

/-- Coverage by recorded path, sorted by path. -/
structure CoverageSet where
  entries : List (String × FileCoverage)

namespace CoverageSet

def empty : CoverageSet := ⟨[]⟩

/-- Put a value into a list sorted by key, in place of one under the same key. -/
def insertSorted (path : String) (c : FileCoverage) :
    List (String × FileCoverage) → List (String × FileCoverage)
  | [] => [(path,c)]
  | (p,d) :: rest =>
    if path < p then (path,c) :: (p,d) :: rest
    else if path = p then (path,c) :: rest
    else (p,d) :: insertSorted path c rest

def insert (s : CoverageSet) (path : String) (c : FileCoverage) : CoverageSet :=
  ⟨insertSorted path c s.entries⟩

def size (s : CoverageSet) : Nat := s.entries.length

def get? (s : CoverageSet) (path : String) : Option FileCoverage :=
  (s.entries.find? (·.1 = path)).map (·.2)

theorem find?_insertSorted_self (path : String) (c : FileCoverage)
    (entries : List (String × FileCoverage)) :
    (insertSorted path c entries).find? (·.1 = path) = some (path,c) := by
  induction entries with
  | nil => simp [insertSorted]
  | cons head rest ih =>
    obtain ⟨p,d⟩ := head
    unfold insertSorted
    split
    · simp
    · split
      · simp
      · rename_i h
        simp [Ne.symm h,ih]

@[simp] theorem get?_insert_self (s : CoverageSet) (path : String) (c : FileCoverage) :
    (s.insert path c).get? path = some c := by
  simp [get?,insert,find?_insertSorted_self]

def toJson (s : CoverageSet) : Json := .object (s.entries.map fun (path,c) => (path,c.toJson))

end CoverageSet

structure CoverageReport where
  data : CoverageSet
  git : Option GitInfo := none
  incrementDir : Option String := none
  pathLead : Option String := none

namespace CoverageReport

/-- The metadata stands at the top level beside the data; what is absent is left out. -/
def toJson (r : CoverageReport) : Json :=
  .object ([("data",r.data.toJson)]
    ++ (r.git.map GitInfo.entries).getD []
    ++ FileCoverage.optionalField "increment_coverage_dir" .string r.incrementDir
    ++ FileCoverage.optionalField "relative_path_prefix" .string r.pathLead)

end CoverageReport
end CoverageCounters
