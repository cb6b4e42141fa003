import CoverageCounters.Number.Binary64

/-!
JSON values. An object keeps its entries in the order they were given, so a document can be written
in a chosen field order, and `Json.canonical` sorts them; of two entries with one key the later
counts.
-/

namespace CoverageCounters

/-- A number is an integer of at most 64 bits or a binary64. -/
inductive Number where
  | integer (value : Int)
  | binary (value : Binary64)
  deriving DecidableEq, Repr

inductive Json where
  | null
  | bool (value : Bool)
  | number (value : Number)
  | string (value : String)
  | array (items : List Json)
  | object (entries : List (String × Json))
  deriving Inhabited

namespace Number

def toBinary : Number → Binary64
  | integer n => Binary64.ofInt n
  | binary x => x

end Number

namespace Json

def nat (n : Nat) : Json := .number (.integer n)

/-- An absent value is written as null. -/
def ofOption {α : Type} (f : α → Json) : Option α → Json
  | none => .null
  | some a => f a

def strings (texts : List String) : Json := .array (texts.map .string)

/-- The value under a key, the last one if the key is repeated. -/
def lookup (key : String) : List (String × Json) → Option Json
  | [] => none
  | (k,v) :: rest => (lookup key rest).or (if k = key then some v else none)

@[simp] theorem lookup_nil (key : String) : lookup key [] = none := rfl

/-- The field of an object; other values have none. -/
def field? (key : String) : Json → Option Json
  | .object entries => lookup key entries
  | _ => none

/-- The field of an object, where null counts as absent. -/
def present? (key : String) (j : Json) : Option Json :=
  match j.field? key with
  | some .null => none
  | other => other

def asString? : Json → Option String
  | .string s => some s
  | _ => none

def asArray? : Json → Option (List Json)
  | .array items => some items
  | _ => none

def asObject? : Json → Option (List (String × Json))
  | .object entries => some entries
  | _ => none

def asBool? : Json → Option Bool
  | .bool b => some b
  | _ => none

/-- A natural number below `2 ^ bits`; a binary64 is none, whatever its value. -/
def asNat? (bits : Nat) : Json → Option Nat
  | .number (.integer n) => if 0 ≤ n ∧ n < Nat.pow 2 bits then some n.toNat else none
  | _ => none

/-- Put an entry into a list sorted by key, in place of an entry with the same key. -/
def insertEntry (key : String) (value : Json) : List (String × Json) → List (String × Json)
  | [] => [(key,value)]
  | (k,v) :: rest =>
    if key < k then (key,value) :: (k,v) :: rest
    else if key = k then (key,value) :: rest
    else (k,v) :: insertEntry key value rest

/-- Entries sorted by key, the last of each key kept. -/
def sortEntries (entries : List (String × Json)) : List (String × Json) :=
  entries.foldl (fun sorted entry => insertEntry entry.1 entry.2 sorted) []

mutual

/-- The same value with the entries of every object sorted by key. -/
def canonical : Json → Json
  | .null => .null
  | .bool b => .bool b
  | .number n => .number n
  | .string s => .string s
  | .array items => .array (canonicalItems items)
  | .object entries => .object (sortEntries (canonicalEntries entries))

def canonicalItems : List Json → List Json
  | [] => []
  | j :: rest => canonical j :: canonicalItems rest

def canonicalEntries : List (String × Json) → List (String × Json)
  | [] => []
  | (k,j) :: rest => (k,canonical j) :: canonicalEntries rest

end

/-- Put a field into an object, in place of one with the same key. -/
def setField (j : Json) (key : String) (value : Json) : Json :=
  match j with
  | .object entries => .object (insertEntry key value entries)
  | other => other

end Json
end CoverageCounters
