import CoverageCounters.Coverage.File
import CoverageCounters.Number.Shortest

/-!
The JSON form of a file's coverage. A table is an object keyed by decimal index. Reading also
takes a record given as an array of its fields in order, ignores fields it does not know, and
wants the indices of a table to be exactly those of a list.
-/

namespace CoverageCounters

namespace Position

def toJson (p : Position) : Json := .object [("line",.nat p.line),("column",.nat p.column)]

end Position

namespace Location

def toJson (l : Location) : Json := .object [("start",l.start.toJson),("end",l.stop.toJson)]

end Location

def indexText (i : Nat) : String := String.ofList (decimalDigits i)

/-- Entries keyed by index, counted from `i`. -/
def indexed {α : Type} (f : α → Json) (i : Nat) : List α → List (String × Json)
  | [] => []
  | a :: rest => (indexText i,f a) :: indexed f (i + 1) rest

/-- A table as an object keyed by index. -/
def tableJson {α : Type} (f : α → Json) (items : List α) : Json := .object (indexed f 0 items)

namespace FunctionRecord

def toJson (r : FunctionRecord) : Json :=
  .object [("name",.string r.name),("decl",r.decl.toJson),("loc",r.loc.toJson),
    ("line",.nat r.line)]

end FunctionRecord

namespace BranchRecord

def toJson (r : BranchRecord) : Json :=
  .object [("loc",r.loc.toJson),("type",.string r.kind.name),
    ("locations",.array (r.locations.map Location.toJson)),("line",.nat r.line)]

end BranchRecord

namespace FileCoverage

def countsJson (counts : List Nat) : Json := .array (counts.map .nat)

/-- A field that is left out when absent. -/
def optionalField {α : Type} (key : String) (f : α → Json) : Option α → List (String × Json)
  | none => []
  | some a => [(key,f a)]

def toJson (c : FileCoverage) : Json :=
  .object ([("path",.string c.path),
      ("statementMap",tableJson Location.toJson c.statementMap),
      ("fnMap",tableJson FunctionRecord.toJson c.fnMap),
      ("branchMap",tableJson BranchRecord.toJson c.branchMap),
      ("s",tableJson .nat c.s),
      ("f",tableJson .nat c.f),
      ("b",tableJson countsJson c.b)]
    ++ optionalField "inputSourceMap" id c.inputSourceMap
    ++ optionalField "hash" .string c.hash)

end FileCoverage

/-- Why a value is no coverage: a table with an index out of place, or something of the wrong
shape. -/
inductive DecodeError where
  | misplacedIndex (found expected : Nat)
  | malformed
  deriving DecidableEq, Repr

namespace DecodeError

/-- The text of an error, where it has one of its own. -/
def message? : DecodeError → Option String
  | misplacedIndex found expected =>
    some ("index " ++ toString found ++ " found where " ++ toString expected ++ " was expected")
  | malformed => none

end DecodeError

namespace Decode

abbrev Result (α : Type) := Except DecodeError α

def ofOption {α : Type} : Option α → Result α
  | some a => .ok a
  | none => .error .malformed

def string (j : Json) : Result String := ofOption j.asString?

/-- A natural number of at most the given number of bits. -/
def natural (bits : Nat) (j : Json) : Result Nat := ofOption (j.asNat? bits)

def list {α : Type} (f : Json → Result α) : Json → Result (List α)
  | .array items => items.mapM f
  | _ => .error .malformed

/-- The field of a record at place `i` under `key`: by key in an object, by place in an array. -/
def field {α : Type} (f : Json → Result α) (i : Nat) (key : String) : Json → Result α
  | .object entries => (ofOption (Json.lookup key entries)).bind f
  | .array items => (ofOption items[i]?).bind f
  | _ => .error .malformed

/-- A field that may be absent or null. -/
def optional {α : Type} (f : Json → Result α) (i : Nat) (key : String) : Json → Result (Option α)
  | .object entries =>
    match Json.lookup key entries with
    | none | some .null => .ok none
    | some j => (f j).map some
  | .array items =>
    match items[i]? with
    | none | some .null => .ok none
    | some j => (f j).map some
  | _ => .error .malformed

/-- A record with `count` fields; an array may not hold more. -/
def record {α : Type} (count : Nat) (f : Json → Result α) (j : Json) : Result α :=
  match f j, j with
  | .ok a, .array items => if items.length ≤ count then .ok a else .error .malformed
  | result, _ => result

def position : Json → Result Position :=
  record 2 fun j => do
    return ⟨← field (natural 32) 0 "line" j,← field (natural 32) 1 "column" j⟩

def location : Json → Result Location :=
  record 2 fun j => do
    return ⟨← field position 0 "start" j,← field position 1 "end" j⟩

def functionRecord : Json → Result FunctionRecord :=
  record 4 fun j => do
    return { name := ← field string 0 "name" j, decl := ← field location 1 "decl" j,
             loc := ← field location 2 "loc" j, line := ← field (natural 32) 3 "line" j }

/-- A branch kind by its name, or as an object from its name to null. -/
def branchKind : Json → Result BranchKind
  | .string name => ofOption (BranchKind.ofName? name)
  | .object [(name,.null)] => ofOption (BranchKind.ofName? name)
  | _ => .error .malformed

def branchRecord : Json → Result BranchRecord :=
  record 4 fun j => do
    return { loc := ← field location 0 "loc" j, kind := ← field branchKind 1 "type" j,
             locations := ← field (list location) 2 "locations" j,
             line := ← field (natural 32) 3 "line" j }

/-- The index a key spells: decimal digits without a leading zero, of at most 64 bits. -/
def index? (key : String) : Option Nat :=
  let digits := key.toList
  if digits.isEmpty || !digits.all Char.isDigit then none
  else
    let n := digits.foldl (fun n c => n * 10 + (c.toNat - '0'.toNat)) 0
    if decimalDigits n = digits ∧ n < Nat.pow 2 64 then some n else none

/-- The first index of a sorted list that is not its place, counted from `expected`. -/
def misplaced? (expected : Nat) : List Nat → Option (Nat × Nat)
  | [] => none
  | found :: rest =>
    if found = expected then misplaced? (expected + 1) rest else some (found,expected)

def tableEntry {α : Type} (f : Json → Result α) (entry : String × Json) : Result (Nat × α) := do
  let i ← ofOption (index? entry.1)
  let a ← f entry.2
  return (i,a)

/-- A table: entries in the order of their indices, which are those of a list. -/
def table {α : Type} (f : Json → Result α) : Json → Result (List α)
  | .object entries => do
    let pairs ← entries.mapM (tableEntry f)
    let sorted := pairs.mergeSort fun a b => a.1 ≤ b.1
    match misplaced? 0 (sorted.map (·.1)) with
    | some (found,expected) => .error (.misplacedIndex found expected)
    | none => .ok (sorted.map (·.2))
  | _ => .error .malformed

/-- A field that is read if it is present; that it is absent is no error yet. -/
def whenPresent {α : Type} (f : Json → Result α) (key : String) (entries : List (String × Json)) :
    Result (Option α) :=
  match Json.lookup key entries with
  | none => .ok none
  | some j => (f j).map some

def any (j : Json) : Result Json := .ok j

/-- A coverage given as an object. Its fields are read in the order of their keys, and one that is
missing is missed only after the others have been read. -/
def coverageObject (entries : List (String × Json)) : Result FileCoverage := do
  let b ← whenPresent (table (list (natural 64))) "b" entries
  let branchMap ← whenPresent (table branchRecord) "branchMap" entries
  let f ← whenPresent (table (natural 64)) "f" entries
  let fnMap ← whenPresent (table functionRecord) "fnMap" entries
  let hash ← optional string 8 "hash" (.object entries)
  let inputSourceMap ← optional any 7 "inputSourceMap" (.object entries)
  let path ← whenPresent string "path" entries
  let s ← whenPresent (table (natural 64)) "s" entries
  let statementMap ← whenPresent (table location) "statementMap" entries
  return { path := ← ofOption path, statementMap := ← ofOption statementMap,
           fnMap := ← ofOption fnMap, branchMap := ← ofOption branchMap,
           s := ← ofOption s, f := ← ofOption f, b := ← ofOption b, inputSourceMap, hash }

/-- A coverage given as the array of its fields, read in their order. -/
def coverageArray : Json → Result FileCoverage :=
  record 9 fun j => do
    let path ← field string 0 "path" j
    let statementMap ← field (table location) 1 "statementMap" j
    let fnMap ← field (table functionRecord) 2 "fnMap" j
    let branchMap ← field (table branchRecord) 3 "branchMap" j
    let s ← field (table (natural 64)) 4 "s" j
    let f ← field (table (natural 64)) 5 "f" j
    let b ← field (table (list (natural 64))) 6 "b" j
    let inputSourceMap ← optional any 7 "inputSourceMap" j
    let hash ← optional string 8 "hash" j
    return { path, statementMap, fnMap, branchMap, s, f, b, inputSourceMap, hash }

def coverage : Json → Result FileCoverage
  | .object entries => coverageObject entries
  | j => coverageArray j

end Decode
end CoverageCounters
