import CoverageCounters.Git
import CoverageCounters.Tree.Build

/-!
The prelude of an instrumented program. The first statement binds the file's identifier to the
entry of its path in a registry held by a global variable: an entry with the same fingerprint is
taken over with its counts, any other is replaced by the initial coverage. A second statement
publishes repository metadata.
-/

namespace CoverageCounters

namespace Bootstrap

open Build

structure Parameters where
  identifier : String
  path : String
  hash : String
  coverageVariable : String
  data : Json

/-- The global object, by way of a function that runs outside strict code. -/
def globalObject : Node :=
  call (paren (construct (identifier "Function") [string "return this"])) []

/-- The registry's entry for the path. -/
def entry : Node := element (identifier "coverage") (identifier "path")

/-- The registry: the global variable, set to an empty object if it holds nothing. -/
def registry : Node :=
  .logical .dummy .or (element (identifier "global") (identifier "gcv"))
    (paren (assign (element (identifier "global") (identifier "gcv")) (object [])))

def locals (p : Parameters) : Node :=
  bindings
    [declarator "path" (string p.path),
     declarator "hash" (string p.hash),
     declarator "Function" (member (paren (function [])) "constructor"),
     declarator "global" globalObject,
     declarator "gcv" (string p.coverageVariable),
     declarator "coverageData" (Build.data p.data),
     declarator "coverage" registry]

/-- Return the entry that is there, if its fingerprint is the same. -/
def reuse : Node :=
  .ifElse .dummy
    (.logical .dummy .and entry (strictlyEqual (member entry "hash") (identifier "hash")))
    (.block .dummy [returning entry]) none

def stamp : Node :=
  statement (assign (member (identifier "coverageData") "hash") (identifier "hash"))

def publish : Node := returning (assign entry (identifier "coverageData"))

def coverage (p : Parameters) : Node :=
  bindings [declarator p.identifier (call (paren (function [locals p,reuse,stamp,publish])) [])]

def gitGlobal : String := "__git_info__"

def git (info : GitInfo) : Node :=
  statement (call (paren (function
    [bindings [declarator "gitInfo" (Build.data info.toJson.canonical),
                declarator "global" globalObject],
     statement (assign (element (identifier "global") (string gitGlobal))
       (identifier "gitInfo"))])) [])

end Bootstrap

namespace Program

/-- Put statements behind the directives at the head of a program. -/
def prepend (p : Program) (prelude : List Node) : Program :=
  let n := prologueLength p.body
  { p with body := p.body.take n ++ prelude ++ p.body.drop n }

@[simp] theorem prepend_nil (p : Program) : p.prepend [] = p := by
  simp [prepend]

end Program
end CoverageCounters
