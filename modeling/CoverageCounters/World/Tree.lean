import CoverageCounters.Config.Settings
import CoverageCounters.Coverage.Report
import CoverageCounters.Source.Parsed
import CoverageCounters.World.Walk

/-!
Passes over all sources below a root that the settings select. A file that cannot be read, parsed or
instrumented is skipped and counted.
-/

namespace CoverageCounters

structure TreeCoverage where
  files : CoverageSet
  skipped : Nat

namespace TreeCoverage

def empty : TreeCoverage := ⟨.empty,0⟩

/-- Take the result of one file in. -/
def add (t : TreeCoverage) (recorded : String) : Except SourceError Outcome → TreeCoverage
  | .ok outcome => { t with files := t.files.insert recorded outcome.coverage }
  | .error _ => { t with skipped := t.skipped + 1 }

end TreeCoverage

namespace World

def instrumentFile (w : World) (parse : SourceParser) (file : OsText) (recorded : String)
    (options : Options) (batch : Batch) : Except SourceError Outcome × Batch :=
  match w.read? file with
  | none => (.error (.unreadable file),batch)
  | some text =>
    instrumentText parse text recorded (((Path.fileName? file).bind OsText.text?).getD recorded)
      options batch

/-- The directory that paths are relative to: the root, or the directory of a root that is a file.
-/
def base (w : World) (root : OsText) : OsText :=
  if w.isFile root then (Path.parent? root).getD root else root

/-- The sources below a root that the settings select. -/
def selected (w : World) (root : OsText) (settings : Settings) : Except WalkError (List OsText) :=
  (w.sources root).map (·.filter fun file => settings.selects (Path.relativeTo file (w.base root)))

def instrumentFiles (w : World) (parse : SourceParser) (base : OsText) (options : Options)
    (style : PathStyle) (tree : TreeCoverage) (batch : Batch) : List OsText → TreeCoverage × Batch
  | [] => (tree,batch)
  | file :: files =>
    let recorded := style.record file base
    let (result,batch) := w.instrumentFile parse file recorded options batch
    w.instrumentFiles parse base options style (tree.add recorded result) batch files

/-- Passes over all selected sources below a root. -/
def instrumentTree (w : World) (parse : SourceParser) (root : OsText) (settings : Settings)
    (options : Options) (style : PathStyle) (batch : Batch) :
    Except WalkError (TreeCoverage × Batch) :=
  (w.selected root settings).map
    (w.instrumentFiles parse (w.base root) options style .empty batch)

end World
end CoverageCounters
