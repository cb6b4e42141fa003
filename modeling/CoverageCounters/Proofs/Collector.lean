import CoverageCounters.Pass.Program
import CoverageCounters.Proofs.Children

/-!
What a program calls for, read off the program as it stands. The collector goes over the tree once and
changes nothing. It hands down whether a node is part of a chain; what is left out it does not enter.
-/

namespace CoverageCounters

/-- A function before its place in the table is known; the name of a function without one is made from
that place. -/
structure FunctionEntry where
  name : Option String
  decl : Location
  loc : Location

def FunctionEntry.record (e : FunctionEntry) (i : Nat) : FunctionRecord :=
  ⟨CoverageMap.functionName e.name i,e.decl,e.loc,e.loc.start.line⟩

/-- What is recorded for a part of a program, table by table. -/
structure Records where
  statements : List Location := []
  functions : List FunctionEntry := []
  branches : List BranchRecord := []

namespace Records

def empty : Records := {}

def append (a b : Records) : Records :=
  ⟨a.statements ++ b.statements,a.functions ++ b.functions,a.branches ++ b.branches⟩

instance : EmptyCollection Records := ⟨empty⟩

instance : Append Records := ⟨append⟩

theorem append_def (a b : Records) :
    a ++ b =
      ⟨a.statements ++ b.statements,a.functions ++ b.functions,a.branches ++ b.branches⟩ := rfl

@[simp] theorem empty_append (a : Records) : ∅ ++ a = a := rfl

@[simp] theorem append_empty (a : Records) : a ++ ∅ = a := by
  change Records.mk (a.statements ++ []) (a.functions ++ []) (a.branches ++ []) = a
  rw [List.append_nil,List.append_nil,List.append_nil]

@[simp] theorem append_assoc (a b c : Records) : a ++ b ++ c = a ++ (b ++ c) := by
  simp only [append_def,List.append_assoc]

/-- The records of a construct that the one around it may ask to leave out; a construct without a place
cannot be asked for. -/
def unlessAsked (asked : Bool) (s : Span) (r : Records) : Records :=
  if asked && !s.isDummy then ∅ else r

end Records

namespace Context

variable (ctx : Context)

/-- Whether a construct at a place is left out with all that is inside, by a hint or by its name. -/
def leavesOut (s : Span) (name : Option String) : Bool :=
  ctx.directives.skips s || ctx.ignores name

/-- The records of a construct that may be left out. -/
def unlessLeftOut (s : Span) (name : Option String) (r : Records) : Records :=
  if ctx.leavesOut s name then ∅ else r

/-- The records of a body, which stands in a block of its own if the construct around it is counted. -/
def bodyRecords (counted : Bool) (body : Node) (r : Records) : Records :=
  if counted && !body.isBlock then ctx.unlessLeftOut body.span none r else r

def statementRecords (s : Span) : Records := { statements := (ctx.location? s).toList }

/-- A branch at a place, with paths that may depend on where it is. -/
def branchRecords (kind : BranchKind) (s : Span) (paths : Location → List Location) : Records :=
  { branches := (ctx.location? s).toList.map fun loc => ⟨loc,kind,paths loc,loc.start.line⟩ }

/-- The places of the nodes that count as paths; a hint leaves one out, and so does a missing place. -/
def operandPaths (nodes : List Node) : List Location :=
  nodes.filterMap fun n =>
    if ctx.directives.skipsOperand n then none else ctx.location? n.span

def conditionalRecords (s : Span) (consequent alternate : Node) : Records :=
  ctx.branchRecords .conditional s fun _ => ctx.operandPaths [consequent,alternate]

def chainRecords (s : Span) (left right : Node) : Records :=
  ctx.branchRecords .binary s fun _ =>
    ctx.operandPaths (ctx.directives.operands left ++ ctx.directives.operands right)

def defaultRecords (s : Span) : Option Node → Records
  | none => ∅
  | some value => ctx.branchRecords .defaultValue s fun _ => (ctx.location? value.span).toList

def initializerRecords : Option Node → Records
  | none => ∅
  | some init => ctx.statementRecords init.span

/-- The paths of an `if` are where it stands itself; a hint leaves one of them out. -/
def ifRecords (s : Span) : Records :=
  ctx.branchRecords .ifElse s fun loc =>
    (if ctx.directives.hintFor? s = some .consequent then [] else [loc]) ++
      if ctx.directives.hintFor? s = some .alternate then [] else [loc]

def casePaths (cases : List Case) : List Location :=
  cases.filterMap fun c => if ctx.leavesOut c.span none then none else ctx.location? c.span

def switchRecords (s : Span) (cases : List Case) : Records :=
  ctx.branchRecords .switch s (fun _ => ctx.casePaths cases) ++ ctx.statementRecords s

def functionRecords (head : FunctionHead) (key : Option Node) (body : Body) : Records :=
  match ctx.location? (head.recordedSpan key), Action.bodyContent? body with
  | some loc, some (bodySpan,_) =>
    { functions := [⟨head.recordedName? key,
        ((head.nameSpan? key).bind ctx.location?).getD loc.firstColumn,
        (ctx.location? bodySpan).getD loc⟩] }
  | _, _ => ∅

end Context

mutual

/-- The records of a node and of what is inside it, in the order of the walk. -/
def Node.collect (ctx : Context) (chain : Bool) : Node → Records
  | .plain _ parts => collectParts ctx parts
  | .paren s inner => ctx.unlessLeftOut s none (inner.collect ctx chain)
  | .logical s _ left right =>
    ctx.unlessLeftOut s none
      ((if chain then ∅ else ctx.chainRecords s left right) ++
        (left.collect ctx left.isChain ++ right.collect ctx right.isChain))
  | .conditional s test consequent alternate =>
    ctx.unlessLeftOut s none
      (ctx.conditionalRecords s consequent alternate ++
        (test.collect ctx false ++ (consequent.collect ctx false ++ alternate.collect ctx false)))
  | .function head key before body after =>
    ctx.unlessLeftOut (head.recordedSpan key) (head.ignorableName? key)
      (ctx.functionRecords head key body ++
        (collectOption ctx key ++ (collectParts ctx before ++
          (collectBody ctx (!(head.recordedSpan key).isDummy) body ++ collectParts ctx after))))
  | .defaulted _ s target value =>
    ctx.unlessLeftOut s none
      (ctx.defaultRecords s value ++ (target.collect ctx false ++ collectOption ctx value))
  | .classDeclaration s _ name before heritage after =>
    ctx.unlessLeftOut s none
      (name.collect ctx false ++ (collectParts ctx before ++
        (collectOption ctx heritage ++ collectParts ctx after)))
  | .expression s inner =>
    ctx.unlessLeftOut s none (ctx.statementRecords s ++ inner.collect ctx false)
  | .simple _ s parts =>
    ctx.unlessLeftOut s none (ctx.statementRecords s ++ collectParts ctx parts)
  | .compound _ s _ init head body =>
    ctx.unlessLeftOut s none
      (ctx.statementRecords s ++
        (collectInit ctx (!s.isDummy) init ++ (collectParts ctx head ++
          ctx.bodyRecords (!s.isDummy) body (body.collect ctx false))))
  | .ifElse s test consequent alternate =>
    ctx.unlessLeftOut s none
      (ctx.ifRecords s ++
        (test.collect ctx false ++
          (.unlessAsked (ctx.directives.hintFor? s = some .consequent) consequent.span
            (ctx.bodyRecords (!s.isDummy) consequent (consequent.collect ctx false)) ++
          collectElse ctx (ctx.directives.hintFor? s = some .alternate) (!s.isDummy) alternate)))
  | .switch s discriminant cases =>
    ctx.unlessLeftOut s none
      (ctx.switchRecords s cases ++ (discriminant.collect ctx false ++ collectCases ctx cases))
  | .bindings s _ declarators => ctx.unlessLeftOut s none (collectDeclarators ctx declarators)
  | .block s statements => ctx.unlessLeftOut s none (collectItems ctx false statements)
  | .exported _ declaration => declaration.collect ctx false
  | .namespaceBlock _ items => collectItems ctx false items

def collectPart (ctx : Context) : Part → Records
  | .child _ n => n.collect ctx false
  | .children _ nodes => collectNodes ctx nodes

def collectParts (ctx : Context) : List Part → Records
  | [] => ∅
  | p :: rest => collectPart ctx p ++ collectParts ctx rest

def collectNodes (ctx : Context) : List Node → Records
  | [] => ∅
  | n :: rest => n.collect ctx false ++ collectNodes ctx rest

def collectOption (ctx : Context) : Option Node → Records
  | none => ∅
  | some n => n.collect ctx false

/-- The init clause of a loop; a loop that is counted asks to leave it out. -/
def collectInit (ctx : Context) (counted : Bool) : Option Node → Records
  | none => ∅
  | some n =>
    match Action.initKey? n with
    | some key => .unlessAsked counted key.span (n.collect ctx false)
    | none => n.collect ctx false

/-- The `else` of an `if`, which a hint may ask to leave out. -/
def collectElse (ctx : Context) (asked counted : Bool) : Option Node → Records
  | none => ∅
  | some n => .unlessAsked asked n.span (ctx.bodyRecords counted n (n.collect ctx false))

/-- The body of a function. One that is counted asks to leave out the directives at its head, and
returns its value from a block. -/
def collectBody (ctx : Context) (counted : Bool) : Body → Records
  | .absent => ∅
  | .block s statements => ctx.unlessLeftOut s none (collectItems ctx counted statements)
  | .value e =>
    if counted then
      ctx.unlessLeftOut e.span none (ctx.unlessLeftOut e.span none
        (ctx.statementRecords e.span ++ e.collect ctx false))
    else e.collect ctx false

/-- The items of a list; at the head of a body the directives may be left out. -/
def collectItems (ctx : Context) (prologue : Bool) : List Node → Records
  | [] => ∅
  | n :: rest =>
    .unlessAsked (prologue && n.isDirective) n.span (n.collect ctx false) ++
      collectItems ctx (prologue && n.isDirective) rest

def collectCase (ctx : Context) : Case → Records
  | .mk s test consequent =>
    ctx.unlessLeftOut s none (collectOption ctx test ++ collectItems ctx false consequent)

def collectCases (ctx : Context) : List Case → Records
  | [] => ∅
  | c :: rest => collectCase ctx c ++ collectCases ctx rest

def collectDeclarator (ctx : Context) : Declarator → Records
  | .mk s _ target init =>
    ctx.unlessLeftOut s none
      ((if s.isDummy then ∅ else ctx.initializerRecords init) ++
        (target.collect ctx false ++ collectOption ctx init))

def collectDeclarators (ctx : Context) : List Declarator → Records
  | [] => ∅
  | d :: rest => collectDeclarator ctx d ++ collectDeclarators ctx rest

end

/-- The records of a program; the directives at its head are left out. -/
def Program.collect (ctx : Context) (p : Program) : Records := collectItems ctx true p.body

end CoverageCounters
