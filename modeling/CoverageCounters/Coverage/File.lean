import CoverageCounters.Json.Basic
import CoverageCounters.Source.Location

/-!
The coverage of one file: what each counter counts, and the counts. Every table is a list, and the
index of an entry is its place in the list.
-/

namespace CoverageCounters

inductive BranchKind where
  | ifElse
  | switch
  | conditional
  | binary
  | defaultValue
  deriving DecidableEq, Repr

namespace BranchKind

def name : BranchKind → String
  | ifElse => "if"
  | switch => "switch"
  | conditional => "cond-expr"
  | binary => "binary-expr"
  | defaultValue => "default-arg"

def all : List BranchKind := [ifElse,switch,conditional,binary,defaultValue]

def ofName? (name : String) : Option BranchKind := all.find? (·.name = name)

@[simp] theorem ofName?_name (k : BranchKind) : ofName? k.name = some k := by
  cases k <;> decide

end BranchKind

structure FunctionRecord where
  name : String
  decl : Location
  loc : Location
  line : Nat
  deriving DecidableEq, Repr

/-- A branch and the locations of its paths. -/
structure BranchRecord where
  loc : Location
  kind : BranchKind
  locations : List Location
  line : Nat
  deriving DecidableEq, Repr

structure FileCoverage where
  path : String
  statementMap : List Location
  fnMap : List FunctionRecord
  branchMap : List BranchRecord
  s : List Nat
  f : List Nat
  b : List (List Nat)
  inputSourceMap : Option Json
  hash : Option String

namespace FileCoverage

def empty (path : String) : FileCoverage :=
  { path, statementMap := [], fnMap := [], branchMap := [], s := [], f := [], b := [],
    inputSourceMap := none, hash := none }

def isEmpty (c : FileCoverage) : Bool :=
  c.statementMap.isEmpty && c.fnMap.isEmpty && c.branchMap.isEmpty

@[simp] theorem isEmpty_empty (path : String) : (empty path).isEmpty = true := rfl

end FileCoverage
end CoverageCounters
