import CoverageCounters.Path.Basic
import CoverageCounters.Path.Template

/-!
How the path that stands for a file in a coverage map is made from where the file is: the path as
found, or the path below the instrumented root behind an optional prefix.
-/

namespace CoverageCounters

inductive PathLocation where
  | absolute
  | relative
  deriving DecidableEq, Repr

namespace PathLocation

def name : PathLocation → String
  | absolute => "absolute"
  | relative => "relative"

def ofName? : String → Option PathLocation
  | "absolute" => some absolute
  | "relative" => some relative
  | _ => none

@[simp] theorem ofName?_name (l : PathLocation) : ofName? l.name = some l := by cases l <;> rfl

end PathLocation

inductive PathStyle where
  | absolute
  | relative (lead : String)
  deriving DecidableEq, Repr

namespace PathStyle

/-- The style for a location. A prefix template counts for relative paths only, and without
repository metadata its placeholders expand to nothing. -/
def resolve (location : PathLocation) (template : Option String) (git : Option GitInfo) :
    PathStyle :=
  match location with
  | .absolute => .absolute
  | .relative => .relative ((template.map (Template.expand · (git.getD {}))).getD "")

def lead? : PathStyle → Option String
  | absolute => none
  | relative lead => if lead.isEmpty then none else some lead

def record (style : PathStyle) (file root : OsText) : String :=
  match style with
  | absolute => Path.normalize file
  | relative lead =>
    let below := Path.relativeTo file root
    let front := dropTail (· = '/') lead.toList
    if front.isEmpty then below
    else String.ofList (front ++ '/' :: below.toList.dropWhile (· = '/'))

end PathStyle
end CoverageCounters
