import CoverageCounters.Json.Basic
import CoverageCounters.Path.OsText
import CoverageCounters.Text.Blank

/-!
Paths: segments that are parted by slashes. Empty segments, and dots that are not the first segment,
name nothing; a path is compared by the components that remain. The paths of files are bytes, those
that are recorded are texts.
-/

namespace CoverageCounters

def cutAt {α : Type} (p : α → Bool) : List α → List (List α)
  | [] => [[]]
  | c :: rest =>
    if p c then [] :: cutAt p rest
    else match cutAt p rest with
      | [] => [[c]]
      | segment :: segments => (c :: segment) :: segments

namespace Path

def slash : UInt8 := 0x2F
def dot : UInt8 := 0x2E

def joinSlash : List (List UInt8) → List UInt8
  | [] => []
  | [segment] => segment
  | segment :: rest => segment ++ slash :: joinSlash rest

/-- A step of a path, in the order by which paths are sorted. -/
inductive Component where
  | root
  | here
  | up
  | name (text : OsText)
  deriving DecidableEq, Repr

namespace Component

def rank : Component → Nat
  | root => 0
  | here => 1
  | up => 2
  | name _ => 3

def before : Component → Component → Bool
  | name a, name b => a.bytes < b.bytes
  | a, b => a.rank < b.rank

end Component

def isIdle (segment : List UInt8) : Bool := segment.isEmpty || segment = [dot]

/-- The segments of a path, idle ones included. -/
def segments (path : OsText) : List (List UInt8) := cutAt (· = slash) path.bytes

/-- The leading component, if there is one before the body, and the segments of the body. -/
def splitSegments : List (List UInt8) → Option Component × List (List UInt8)
  | [] :: segment :: body => (some .root,segment :: body)
  | segment :: body => if segment = [dot] then (some .here,body) else (none,segment :: body)
  | [] => (none,[])

def split (path : OsText) : Option Component × List (List UInt8) := splitSegments (segments path)

def componentOf (segment : List UInt8) : Component :=
  if segment = [dot,dot] then .up else .name ⟨segment⟩

def components (path : OsText) : List Component :=
  let (head,body) := split path
  head.toList ++ (body.filter (!isIdle ·)).map componentOf

/-- The body of a path after some of its components, without idle segments at the ends. -/
def dropComponents : Nat → List (List UInt8) → List (List UInt8)
  | 0, body => body
  | _ + 1, [] => []
  | n + 1, segment :: body =>
    if isIdle segment then dropComponents (n + 1) body else dropComponents n body

def trimIdle (body : List (List UInt8)) : List (List UInt8) :=
  dropTail isIdle (body.dropWhile isIdle)

def headBytes : Option Component → List UInt8
  | some .root => [slash]
  | some .here => [dot]
  | _ => []

/-- What is left of a path after its first `n` components. -/
def rest (path : OsText) (n : Nat) : OsText :=
  let (head,body) := split path
  match head, n with
  | some h, 0 =>
    let kept := dropTail isIdle body
    ⟨headBytes (some h) ++
      (if h = .here && !kept.isEmpty then slash :: joinSlash kept else joinSlash kept)⟩
  | some _, n + 1 => ⟨joinSlash (trimIdle (dropComponents n body))⟩
  | none, 0 => ⟨joinSlash (dropTail isIdle body)⟩
  | none, n => ⟨joinSlash (trimIdle (dropComponents n body))⟩

/-- A path below a root, relative to it; the root itself is at the empty path. -/
def below? (path root : OsText) : Option OsText :=
  if (components root).isPrefixOf (components path) then
    some (rest path (components root).length)
  else none

/-- A path as a text with slashes in place of backslashes. -/
def normalize (path : OsText) : String :=
  String.ofList (path.lossy.toList.map fun c => if c = '\\' then '/' else c)

/-- A path relative to a root it lies strictly below, and otherwise as it is. -/
def relativeTo (path root : OsText) : String :=
  match below? path root with
  | some below => if below.isEmpty then normalize path else normalize below
  | none => normalize path

/-- What follows the last slash or backslash of a recorded path. -/
def basename (path : String) : String :=
  String.ofList ((path.toList.reverse.takeWhile fun c => c ≠ '/' && c ≠ '\\').reverse)

def isAbsolute (path : OsText) : Bool := path.bytes.head? = some slash

def join (directory path : OsText) : OsText :=
  if isAbsolute path || directory.isEmpty then path
  else if directory.bytes.getLast? = some slash then ⟨directory.bytes ++ path.bytes⟩
  else ⟨directory.bytes ++ slash :: path.bytes⟩

def fileName? (path : OsText) : Option OsText :=
  match (components path).getLast? with
  | some (.name text) => some text
  | _ => none

def dropLastSegment (body : List (List UInt8)) : List (List UInt8) :=
  dropTail isIdle ((dropTail isIdle body).dropLast)

/-- The path without its last component; a root and an empty path have none. -/
def parent? (path : OsText) : Option OsText :=
  let (head,body) := split path
  if (body.filter (!isIdle ·)).isEmpty then
    match head with
    | some .here => some .empty
    | _ => none
  else
    let kept := dropLastSegment body
    some ⟨headBytes head ++
      (if head = some .here && !kept.isEmpty then slash :: joinSlash kept else joinSlash kept)⟩

def componentsLe : List Component → List Component → Bool
  | [], _ => true
  | _ :: _, [] => false
  | a :: as, b :: bs => if a = b then componentsLe as bs else a.before b

def le (a b : OsText) : Bool := componentsLe (components a) (components b)

/-- Point a source map at the file it describes: its `file` and `sources` become the last segment of
the recorded path. -/
def rebaseSourceMap (recorded : String) (map : Json) : Json :=
  let name : Json := .string (basename recorded)
  (map.setField "file" name).setField "sources" (.array [name])

end Path
end CoverageCounters
