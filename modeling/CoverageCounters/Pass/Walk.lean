import CoverageCounters.Pass.Actions

/-!
The walk over a program. Every node that is counted or can be ignored is entered, acted on, walked
inside and left. The counters that an action answers with are put in place on the way, and the walk
goes through them as through the nodes around them.
-/

namespace CoverageCounters

def Node.isParen : Node → Bool
  | .paren _ _ => true
  | _ => false

namespace Walk

/-- A walked list, each item behind the statements queued before it. -/
def placed (items : List (List Node × Node)) : List Node :=
  items.flatMap fun item => item.1 ++ [item.2]

@[simp] theorem placed_nil : placed [] = [] := rfl

@[simp] theorem placed_cons (item : List Node × Node) (items : List (List Node × Node)) :
    placed (item :: items) = item.1 ++ item.2 :: placed items := by
  simp [placed]

@[simp] theorem placed_append (items items' : List (List Node × Node)) :
    placed (items ++ items') = placed items ++ placed items' :=
  List.flatMap_append

/-- Walk the statement of a counter that was put into a list, which is an item like any other. Nothing
is entered inside it. -/
def counterItem (ctx : Context) : Option Counter → Walk (List (List Node × Node))
  | none => return []
  | some c => do
    let n := c.statementNode ctx.identifier
    let item ← asItem n.declaresVariables <|
      visiting ctx ⟨.expressionStatement,n.span⟩ none
        (Action.coverStatement ctx .expressionStatement n.span) () fun _ => return n
    return [item]

/-- Walk a body as a block, which is put around a statement that is none, with a counter first. -/
def inBlock (ctx : Context) (c : Option Counter) (body : Node)
    (walk : List (Option Counter) → Walk Node) : Walk Node :=
  if body.isBlock then walk [c]
  else passing ctx ⟨.block,body.span⟩ do
    let first ← counterItem ctx c
    let item ← asItem body.declaresVariables (walk [])
    return .block body.span (placed (first ++ [item]))

/-- Walk the body of a statement, as a block if the statement is counted. -/
def asBody (ctx : Context) (counted : Bool) (body : Node)
    (walk : List (Option Counter) → Walk Node) : Walk Node :=
  if counted then inBlock ctx none body walk else walk []

/-- Walk the value of an arrow as a block that counts the function and returns the value. -/
def asReturn (ctx : Context) (c : Counter) (s : Span) (walk : Walk Node) : Walk Body :=
  passing ctx ⟨.block,s⟩ do
    let first ← counterItem ctx (some c)
    let item ← asItem false <|
      visiting ctx ⟨.return,s⟩ none (Action.coverStatement ctx .return s) () fun _ => do
        return .simple .return s [.child "argument" (← walk)]
    return .block s (placed (first ++ [item]))

/-- Walk the heritage of a class inside parentheses, unless it stands in parentheses already. -/
def inParens (ctx : Context) (wanted : Bool) (heritage : Node) (walk : Walk Node) : Walk Node :=
  if wanted && !heritage.isParen then
    passing ctx ⟨.parenthesized,.dummy⟩ do return Build.paren (← walk)
  else walk

end Walk

open CoverageCounters.Walk CoverageCounters.Action

mutual

/-- Walk a node; the answer is the node with its counters. A part of a chain is given the counters of
its operands, left to right, and a block the counter that stands first in it. -/
def Node.walk (ctx : Context) (given : List (Option Counter)) : Node → Walk Node
  | .plain head parts => do return .plain head (← walkParts ctx parts)
  | .paren s inner =>
    passing ctx ⟨.parenthesized,s⟩ do return .paren s (← inner.walk ctx given)
  | .logical s operator left right => do
    let outermost := !(← get).inChain
    visiting ctx ⟨.logical,s⟩ none
      (if outermost then coverChain ctx s left right else pure []) [] fun own => withChain true do
        let counters := if outermost then own else given
        let n := (ctx.directives.operands left).length
        let left ← operand ctx left (counters.take n) fun c => left.walk ctx c
        let right ← operand ctx right (counters.drop n) fun c => right.walk ctx c
        return .logical s operator left right
  | .conditional s test consequent alternate =>
    visiting ctx ⟨.conditional,s⟩ none
      (coverConditional ctx s consequent alternate) (none,none) fun counters => do
        let test ← test.walk ctx []
        let consequent ← behind? ctx counters.1 (consequent.walk ctx [])
        let alternate ← behind? ctx counters.2 (alternate.walk ctx [])
        return .conditional s test consequent alternate
  | .function head key before body after =>
    visiting ctx (head.key key) (head.ignorableName? key)
      (coverFunction ctx head key body) none fun counter => do
        let key ← walkOption ctx none key
        let before ← walkParts ctx before
        let body ← walkBody ctx counter body
        let after ← walkParts ctx after
        return .function head key before body after
  | .defaulted form s target value =>
    visiting ctx ⟨form.kind,s⟩ none (coverDefault ctx s value) none fun counter => do
      let target ← target.walk ctx []
      let value ← walkOption ctx counter value
      return .defaulted form s target value
  | .classDeclaration s data name before heritage after =>
    visiting ctx ⟨.classDeclaration,s⟩ none (pure true) false fun counted => do
      let name ← name.walk ctx []
      let before ← walkParts ctx before
      let heritage ← walkHeritage ctx counted heritage
      let after ← walkParts ctx after
      return .classDeclaration s data name before heritage after
  | .expression s inner =>
    visiting ctx ⟨.expressionStatement,s⟩ none (coverStatement ctx .expressionStatement s) ()
      fun _ => do return .expression s (← inner.walk ctx [])
  | .simple form s parts =>
    visiting ctx ⟨form.kind,s⟩ none (coverStatement ctx form.kind s) () fun _ => do
      return .simple form s (← walkParts ctx parts)
  | .compound form s data init head body =>
    visiting ctx ⟨form.kind,s⟩ none (coverCompound ctx form s init) false fun counted => do
      let init ← walkOption ctx none init
      let head ← walkParts ctx head
      let body ← asBody ctx counted body fun given => body.walk ctx given
      return .compound form s data init head body
  | .ifElse s test consequent alternate =>
    visiting ctx ⟨.if,s⟩ none (coverIf ctx s consequent alternate) none fun counters => do
      let test ← test.walk ctx []
      match counters with
      | none =>
        let consequent ← consequent.walk ctx []
        let alternate ← walkOption ctx none alternate
        return .ifElse s test consequent alternate
      | some (c,a) =>
        let consequent ← inBlock ctx c consequent fun given => consequent.walk ctx given
        let alternate ← walkElse ctx a alternate
        return .ifElse s test consequent (some alternate)
  | .switch s discriminant cases =>
    visiting ctx ⟨.switch,s⟩ none (coverSwitch ctx s) () fun _ => do
      let discriminant ← discriminant.walk ctx []
      let cases ← walkCases ctx ⟨.switch,s⟩ cases
      return .switch s discriminant cases
  | .bindings s data declarators => do
    let hoistable ← takeHoist
    passing ctx ⟨.variableDeclaration,s⟩ do
      return .bindings s data (← walkDeclarators ctx hoistable declarators)
  | .block s statements =>
    passing ctx ⟨.block,s⟩ do
      let first ← counterItem ctx given.head?.join
      let items ← walkItems ctx statements
      return .block s (placed (first ++ items))
  | .exported s declaration => do return .exported s (← declaration.walk ctx [])
  | .namespaceBlock s items => do return .namespaceBlock s (placed (← walkItems ctx items))

def walkPart (ctx : Context) : Part → Walk Part
  | .child field n => do return .child field (← n.walk ctx [])
  | .children field nodes => do return .children field (← walkNodes ctx nodes)

def walkParts (ctx : Context) : List Part → Walk (List Part)
  | [] => return []
  | p :: rest => do
    let p ← walkPart ctx p
    let rest ← walkParts ctx rest
    return p :: rest

def walkNodes (ctx : Context) : List Node → Walk (List Node)
  | [] => return []
  | n :: rest => do
    let n ← n.walk ctx []
    let rest ← walkNodes ctx rest
    return n :: rest

def walkOption (ctx : Context) (counter : Option Counter) : Option Node → Walk (Option Node)
  | none => return none
  | some n => do return some (← behind? ctx counter (n.walk ctx []))

/-- Walk the `else` of an `if` that is counted; a missing one becomes an empty block. -/
def walkElse (ctx : Context) (counter : Option Counter) : Option Node → Walk Node
  | none =>
    passing ctx ⟨.block,.dummy⟩ do return .block .dummy (placed (← counterItem ctx counter))
  | some n => inBlock ctx counter n fun given => n.walk ctx given

def walkHeritage (ctx : Context) (counted : Bool) : Option Node → Walk (Option Node)
  | none => return none
  | some n => do return some (← inParens ctx counted n (n.walk ctx []))

def walkBody (ctx : Context) (counter : Option Counter) : Body → Walk Body
  | .absent => return .absent
  | .block s statements =>
    passing ctx ⟨.block,s⟩ do
      return .block s (placed (← walkStatements ctx counter statements))
  | .value e =>
    match counter with
    | none => do return .value (← e.walk ctx [])
    | some c => asReturn ctx c e.span (e.walk ctx [])

/-- Walk the statements of a function; its counter goes behind the directives at the head. -/
def walkStatements (ctx : Context) (counter : Option Counter) :
    List Node → Walk (List (List Node × Node))
  | [] => counterItem ctx counter
  | n :: rest =>
    if n.isDirective then do
      let item ← asItem n.declaresVariables (n.walk ctx [])
      let rest ← walkStatements ctx counter rest
      return item :: rest
    else do
      let first ← counterItem ctx counter
      let item ← asItem n.declaresVariables (n.walk ctx [])
      let rest ← walkItems ctx rest
      return first ++ item :: rest

/-- Walk the items of a list, each in a frame of its own. -/
def walkItems (ctx : Context) : List Node → Walk (List (List Node × Node))
  | [] => return []
  | n :: rest => do
    let item ← asItem n.declaresVariables (n.walk ctx [])
    let rest ← walkItems ctx rest
    return item :: rest

def walkCase (ctx : Context) (switch : Key) : Case → Walk Case
  | .mk s test consequent =>
    visiting ctx ⟨.switchCase,s⟩ none (coverCase ctx s switch) none fun counter => do
      let test ← walkOption ctx none test
      let first ← counterItem ctx counter
      let items ← walkItems ctx consequent
      return .mk s test (placed (first ++ items))

def walkCases (ctx : Context) (switch : Key) : List Case → Walk (List Case)
  | [] => return []
  | c :: rest => do
    let c ← walkCase ctx switch c
    let rest ← walkCases ctx switch rest
    return c :: rest

def walkDeclarator (ctx : Context) (hoistable : Bool) : Declarator → Walk Declarator
  | .mk s data target init =>
    visiting ctx ⟨.variableDeclarator,s⟩ none (coverInitializer ctx hoistable init) none
      fun counter => do
        let target ← target.walk ctx []
        let init ← walkOption ctx counter init
        return .mk s data target init

def walkDeclarators (ctx : Context) (hoistable : Bool) : List Declarator → Walk (List Declarator)
  | [] => return []
  | d :: rest => do
    let d ← walkDeclarator ctx hoistable d
    let rest ← walkDeclarators ctx hoistable rest
    return d :: rest

end

end CoverageCounters
