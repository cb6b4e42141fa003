import CoverageCounters.Coverage.Map
import CoverageCounters.Directives
import CoverageCounters.Node.Marks
import CoverageCounters.Tree.Build

/-!
The state of a pass. Suppression is a single anchor: while it is set nothing is counted, and only
the node that set it, left at the depth it was entered, takes it away again.
-/

namespace CoverageCounters

/-- The node that switched counting off, and the depth it was entered at. -/
structure Anchor where
  key : Key
  depth : Nat
  deriving DecidableEq, Repr

structure Context where
  identifier : String
  directives : Directives
  ignoredMethods : List String

structure Traversal where
  depth : Nat
  anchor : Option Anchor
  /-- Statements to put before the list item being walked, one frame per open list. -/
  frames : List (List Node)
  /-- Whether the node being walked is an operand of a logical expression. -/
  inChain : Bool
  /-- Whether the list item being walked declares variables. -/
  hoist : Bool
  marks : Marks
  coverage : CoverageMap
  url : Option String
  /-- The first error; what follows it is not counted any more. -/
  failure : Option InstrumentError

namespace Context

def location? (ctx : Context) (s : Span) : Option Location := ctx.directives.source.location? s

def ignores (ctx : Context) : Option String → Bool
  | some name => ctx.ignoredMethods.contains name
  | none => false

@[simp] theorem ignores_none (ctx : Context) : ctx.ignores none = false := rfl

end Context

namespace Traversal

def start (coverage : CoverageMap) : Traversal :=
  { depth := 0, anchor := none, frames := [], inChain := false, hoist := false,
    marks := .empty, coverage, url := none, failure := none }

def isSuppressed (t : Traversal) : Bool := t.anchor.isSome

/-- Whether entering a node switches counting off: by a hint, by its name, or by a mark. -/
def startsSuppression (ctx : Context) (key : Key) (name : Option String) (t : Traversal) : Bool :=
  !t.isSuppressed && (ctx.directives.skips key.span || ctx.ignores name || t.marks.skips key)

/-- Enter a node: go one level down, note a source-map reference, and switch counting off if the
node asks for it. -/
def enter (ctx : Context) (key : Key) (name : Option String) (t : Traversal) : Traversal :=
  { t with
    depth := t.depth + 1
    url := (ctx.directives.sourceMapUrl? key.span).or t.url
    anchor := if t.startsSuppression ctx key name then some ⟨key,t.depth + 1⟩ else t.anchor }

/-- Leave a node that was entered at the given depth: end the suppression it started, forget its
marks, and go one level up. -/
def leave (key : Key) (depth : Nat) (t : Traversal) : Traversal :=
  { t with
    depth := t.depth - 1
    anchor := if t.anchor = some ⟨key,depth⟩ then none else t.anchor
    marks := t.marks.clear key }

def counts (key : Key) (t : Traversal) : Bool :=
  t.failure.isNone && !t.isSuppressed && !key.isSynthetic

end Traversal

abbrev Walk := StateM Traversal

/-- What is done for a node that is counted. -/
abbrev Action := ExceptT InstrumentError Walk

namespace Walk

/-- Run the action of a node that is counted; the first error is kept. Where there is nothing to do
the answer is `idle`. -/
def attempt {α : Type} (key : Key) (action : Action α) (idle : α) : Walk α := do
  if (← get).counts key then
    match ← action.run with
    | .ok a => return a
    | .error e =>
      modify fun t => { t with failure := t.failure.or (some e) }
      return idle
  else return idle

/-- Visit a node: enter it, act on it, walk what is inside with the outcome of the action, leave. -/
def visiting {α β : Type} (ctx : Context) (key : Key) (name : Option String) (action : Action α)
    (idle : α) (inside : α → Walk β) : Walk β := do
  modify (·.enter ctx key name)
  let depth := (← get).depth
  let outcome ← attempt key action idle
  let result ← inside outcome
  modify (·.leave key depth)
  return result

def passing {β : Type} (ctx : Context) (key : Key) (inside : Walk β) : Walk β :=
  visiting ctx key none (pure ()) () fun _ => inside

/-- Walk an item of a list in a frame of its own; the answer has the statements put before it. -/
def asItem (declares : Bool) (walk : Walk Node) : Walk (List Node × Node) := do
  modify fun t => { t with frames := [] :: t.frames, hoist := declares }
  let n ← walk
  let queued := (← get).frames.headD []
  modify fun t => { t with frames := t.frames.tail, hoist := false }
  return (queued,n)

def takeHoist : Walk Bool := do
  let hoist := (← get).hoist
  modify fun t => { t with hoist := false }
  return hoist

/-- Walk an expression that was put behind a counter, as `(counter, e)`. Nothing is entered in the
counter. -/
def behind (ctx : Context) (c : Counter) (walk : Walk Node) : Walk Node :=
  passing ctx ⟨.parenthesized,.dummy⟩ do
    return Build.after (c.node ctx.identifier) (← walk)

def behind? (ctx : Context) (c : Option Counter) (walk : Walk Node) : Walk Node :=
  match c with
  | some c => behind ctx c walk
  | none => walk

def withChain {α : Type} (inChain : Bool) (walk : Walk α) : Walk α := do
  let before := (← get).inChain
  modify fun t => { t with inChain }
  let a ← walk
  modify fun t => { t with inChain := before }
  return a

/-- Walk an operand of a logical expression. One that is part of the chain hands the counters of its
own operands on; any other stands behind its counter, if it has one, and starts chains anew. -/
def operand (ctx : Context) (n : Node) (counters : List (Option Counter))
    (walk : List (Option Counter) → Walk Node) : Walk Node :=
  if n.isChain then walk counters
  else withChain false (behind? ctx counters.head?.join (walk []))

end Walk
end CoverageCounters
