import CoverageCounters.Error
import CoverageCounters.Pass.Program
import CoverageCounters.Source.Flavor

/-!
Passes that start from text. The text is read by a parser of the language, which is given as a
function: the flavor and the text decide what it answers.
-/

namespace CoverageCounters

structure ParsedSource where
  program : Program
  comments : Comments

/-- A parser of the language answers with a program and its comments, or with a message. -/
abbrev SourceParser := Flavor → String → Except String ParsedSource

inductive SourceError where
  | unreadable (file : OsText)
  | unparsable (path fileName message : String)
  | failed (path : String) (error : InstrumentError)
  deriving DecidableEq, Repr

namespace SourceError

def chain : SourceError → List Message
  | unreadable file => [.own ("failed to read file: " ++ file.lossy),.io]
  | unparsable path fileName message =>
    [.own ("failed to parse " ++ path),.own ("Failed to parse source file: " ++ fileName),
     .own ("Parse error: " ++ message)]
  | failed path error => [.own ("failed to instrument " ++ path),.own error.message]

end SourceError

/-- A pass over a text under a recorded path; the file name decides the flavor. -/
def instrumentText (parse : SourceParser) (text path fileName : String) (options : Options)
    (batch : Batch) : Except SourceError Outcome × Batch :=
  match parse (.ofFileName fileName) text with
  | .error message => (.error (.unparsable path fileName message),batch)
  | .ok parsed =>
    let r := instrument parsed.program ⟨path,.ofString text,parsed.comments⟩ options batch
    (r.outcome.mapError (.failed path),r.batch)

end CoverageCounters
