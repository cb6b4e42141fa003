import CoverageCounters.Path.OsText

/-!
File trees as plain values: what a directory holds, by name.
-/

namespace CoverageCounters

inductive Entry where
  /-- A file; its text is absent if it cannot be read as one. -/
  | file (text : Option String)
  | directory (entries : List (OsText × Entry))
  /-- A link to another path, seen from the directory it is in. -/
  | link (target : OsText)
  /-- A directory that cannot be listed. -/
  | closed
  /-- A directory whose list breaks off behind some entries. -/
  | broken (entries : List (OsText × Entry))
  /-- A device, pipe or socket; its text is absent if none can be read from it. -/
  | special (text : Option String)
  /-- Something that cannot even be told to be a file or a directory. -/
  | unknown
  deriving Inhabited

namespace Entry

def named? (name : OsText) : List (OsText × Entry) → Option Entry
  | [] => none
  | (n,e) :: rest => if n = name then some e else named? name rest

@[simp] theorem named?_nil (name : OsText) : named? name [] = none := rfl

/-- The list with an entry under a name, in place of one of that name. -/
def withNamed (name : OsText) (entry : Entry) : List (OsText × Entry) → List (OsText × Entry)
  | [] => [(name,entry)]
  | (n,e) :: rest => if n = name then (n,entry) :: rest else (n,e) :: withNamed name entry rest

@[simp] theorem named?_withNamed (name : OsText) (entry : Entry) (entries : List (OsText × Entry)) :
    named? name (withNamed name entry entries) = some entry := by
  induction entries with
  | nil => simp [withNamed,named?]
  | cons head rest ih =>
    obtain ⟨n,e⟩ := head
    by_cases h : n = name <;> simp [withNamed,named?,h,ih]

/-- What a directory holds; anything else holds nothing. -/
def entries : Entry → List (OsText × Entry)
  | directory entries | broken entries => entries
  | _ => []

def listed? : Entry → Option (List (OsText × Entry))
  | directory entries | broken entries => some entries
  | _ => none

def isFile : Entry → Bool
  | file _ => true
  | _ => false

def isDirectory : Entry → Bool
  | directory _ | closed | broken _ => true
  | _ => false

def at? (e : Entry) : List OsText → Option Entry
  | [] => some e
  | name :: names => (named? name e.entries).bind (·.at? names)

/-- The tree with an entry where names lead to; directories on the way are made. -/
def put (e : Entry) (entry : Entry) : List OsText → Entry
  | [] => entry
  | name :: names =>
    let below := (named? name e.entries).getD (directory [])
    directory (withNamed name (below.put entry names) e.entries)

theorem at?_put (e entry : Entry) (names : List OsText) :
    (e.put entry names).at? names = some entry := by
  induction names generalizing e with
  | nil => rfl
  | cons name names ih => simp [put,at?,Entry.entries,ih]

end Entry
end CoverageCounters
