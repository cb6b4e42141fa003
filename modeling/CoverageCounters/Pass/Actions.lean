import CoverageCounters.Node.Query
import CoverageCounters.Pass.State

/-!
What is recorded for a node that is counted, and where its counters go. An action answers with the
counters that the walk has to put inside the node; those that stand before a statement are queued.
-/

namespace CoverageCounters

namespace Node

def isBlock : Node → Bool
  | block _ _ => true
  | _ => false

/-- A statement as a block, which is put around one that is none. -/
def asBlock : Node → Node
  | block s statements => block s statements
  | n => block n.span [n]

/-- The `else` of an `if` as a block; a missing one is an empty block. -/
def elseBlock : Option Node → Node
  | some n => n.asBlock
  | none => block .dummy []

theorem exists_block_of_isBlock {n : Node} (h : n.isBlock = true) :
    ∃ s statements, n = block s statements := by
  cases n with
  | block s statements => exact ⟨s,statements,rfl⟩
  | _ => cases h

@[simp] theorem isBlock_asBlock (n : Node) : n.asBlock.isBlock = true := by cases n <;> rfl

@[simp] theorem isBlock_elseBlock (alternate : Option Node) :
    (elseBlock alternate).isBlock = true := by
  cases alternate with
  | none => rfl
  | some n => exact n.isBlock_asBlock

@[simp] theorem span_asBlock (n : Node) : n.asBlock.span = n.span := by cases n <;> rfl

@[simp] theorem span_elseBlock (alternate : Option Node) :
    (elseBlock alternate).span = (alternate.map span).getD .dummy := by
  cases alternate with
  | none => rfl
  | some n => exact n.span_asBlock

end Node

namespace Action

/-- Add a record to the coverage map; the answer is its index. -/
def register (add : CoverageMap → Except InstrumentError Nat × CoverageMap) : Action Nat := do
  let (answer,map) := add (← get).coverage
  modify fun t => { t with coverage := map }
  match answer with
  | .ok i => return i
  | .error e => throw e

def markSkip (key : Key) : Action Unit :=
  modify fun t => { t with marks := t.marks.markSkip key }

/-- Queue a counter before the list item being walked. -/
def queue (ctx : Context) (kind : Kind) (s : Span) (c : Counter) : Action Unit := do
  match (← get).frames with
  | frame :: rest =>
    modify fun t => { t with frames := (frame ++ [c.statementNode ctx.identifier]) :: rest }
  | [] => throw (.unsupportedNode kind (ctx.location? s))

def coverStatement (ctx : Context) (kind : Kind) (s : Span) : Action Unit := do
  match ctx.location? s with
  | none => return ()
  | some loc =>
    let i ← register (·.newStatement loc)
    queue ctx kind s (.statement i)

/-- Count an initializer like a statement. The counter of one that takes the variable's name goes
before the declaration, if that is an item of a list; others get theirs in place. -/
def coverInitializer (ctx : Context) (hoistable : Bool) : Option Node → Action (Option Counter)
  | none => return none
  | some init => do
    match ctx.location? init.span with
    | none => return none
    | some loc =>
      let i ← register (·.newStatement loc)
      if hoistable && init.takesName && !(← get).frames.isEmpty then
        queue ctx .variableDeclarator init.span (.statement i)
        return none
      else return some (.statement i)

/-- The place and the statements of a function's body; a value counts as a block that returns it. -/
def bodyContent? : Body → Option (Span × List Node)
  | .absent => none
  | .block s statements => some (s,statements)
  | .value e => some (e.span,[])

/-- Count a function that has a body; the directives at the head of the body are left out. -/
def coverFunction (ctx : Context) (head : FunctionHead) (key : Option Node) (body : Body) :
    Action (Option Counter) := do
  match ctx.location? (head.recordedSpan key), bodyContent? body with
  | some loc, some (bodySpan,statements) =>
    let decl := ((head.nameSpan? key).bind ctx.location?).getD loc.firstColumn
    let bodyLoc := (ctx.location? bodySpan).getD loc
    let i ← register (·.newFunction (head.recordedName? key) decl bodyLoc)
    (statements.takeWhile Node.isDirective).forM fun n =>
      markSkip ⟨.expressionStatement,n.span⟩
    return some (.function i)
  | _, _ => return none

def addPath (branch : Nat) (loc : Location) : Action Counter := do
  return .branch branch (← register (·.addBranchPath branch loc))

/-- One side of an `if`: its path is where the `if` is. A side that is ignored is left out. -/
def coverSide (branch : Nat) (loc : Location) (ignored : Bool) : Node → Action (Option Counter)
  | .block s _ => do
    if ignored then
      markSkip ⟨.block,s⟩
      return none
    else return some (← addPath branch loc)
  | _ => throw (.unsupportedNode .if (some loc))

/-- Count both sides of an `if`, which are made blocks first. -/
def coverIf (ctx : Context) (s : Span) (consequent : Node) (alternate : Option Node) :
    Action (Option (Option Counter × Option Counter)) := do
  match ctx.location? s with
  | none => return some (none,none)
  | some loc =>
    let hint := ctx.directives.hintFor? s
    let branch ← register (·.newBranch .ifElse loc)
    let first ← coverSide branch loc (hint = some .consequent) consequent.asBlock
    let second ← coverSide branch loc (hint = some .alternate) (Node.elseBlock alternate)
    return some (first,second)

/-- The key of the init clause of a loop, if it can be left out. -/
def initKey? : Node → Option Key
  | .bindings s _ _ => some ⟨.variableDeclaration,s⟩
  | n => n.expressionKey?

/-- Count a statement with a body. The init clause of a loop is left out. -/
def coverCompound (ctx : Context) (form : CompoundForm) (s : Span) (init : Option Node) :
    Action Bool := do
  match init.bind initKey? with
  | some key => markSkip key
  | none => pure ()
  coverStatement ctx form.kind s
  return true

/-- Count a switch, and note its branch for its cases. -/
def coverSwitch (ctx : Context) (s : Span) : Action Unit := do
  match ctx.location? s with
  | none => pure ()
  | some loc =>
    let branch ← register (·.newBranch .switch loc)
    modify fun t => { t with marks := t.marks.setBranch ⟨.switch,s⟩ branch }
  coverStatement ctx .switch s

def coverCase (ctx : Context) (s : Span) (switch : Key) : Action (Option Counter) := do
  match (← get).marks.branch? switch with
  | none => throw (.missingSwitchBranch (ctx.location? s))
  | some branch =>
    match ctx.location? s with
    | none => return none
    | some loc => return some (← addPath branch loc)

/-- Count an operand as a path, unless a hint leaves it out or it was built and not read. -/
def coverOperand (ctx : Context) (branch : Nat) (n : Node) : Action (Option Counter) := do
  if ctx.directives.skipsOperand n then return none
  else match ctx.location? n.span with
    | none => return none
    | some loc => return some (← addPath branch loc)

def coverConditional (ctx : Context) (s : Span) (consequent alternate : Node) :
    Action (Option Counter × Option Counter) := do
  match ctx.location? s with
  | none => return (none,none)
  | some loc =>
    let branch ← register (·.newBranch .conditional loc)
    let first ← coverOperand ctx branch consequent
    let second ← coverOperand ctx branch alternate
    return (first,second)

/-- Count a whole chain as one branch with a path for each operand. -/
def coverChain (ctx : Context) (s : Span) (left right : Node) : Action (List (Option Counter)) := do
  match ctx.location? s with
  | none => return []
  | some loc =>
    let branch ← register (·.newBranch .binary loc)
    (ctx.directives.operands left ++ ctx.directives.operands right).mapM (coverOperand ctx branch)

def coverDefault (ctx : Context) (s : Span) : Option Node → Action (Option Counter)
  | none => return none
  | some value => do
    match ctx.location? s with
    | none => return none
    | some loc =>
      let branch ← register (·.newBranch .defaultValue loc)
      match ctx.location? value.span with
      | none => return none
      | some valueLoc => return some (← addPath branch valueLoc)

end Action
end CoverageCounters
