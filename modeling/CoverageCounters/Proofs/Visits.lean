import CoverageCounters.Pass.Program
import CoverageCounters.Proofs.WalkRun

/-!
The visits of a walk. The walk is written once more with a record of every visit it makes: where the
walk stood before and after it, what was found there, what was left, and the visits inside. Without
the record it is the walk.
-/

namespace CoverageCounters

/-- What can be visited. -/
inductive Construct where
  | node (n : Node)
  | body (b : Body)
  | case (c : Case)
  | declarator (d : Declarator)

/-- A visit, with the visits inside it in their order. What is found may have counters that the
constructs around it have put there already. -/
structure Visit where
  key : Key
  name : Option String
  before : Traversal
  after : Traversal
  found : Construct
  left : Construct
  inside : List Visit

/-- A walk with a record of its visits. -/
def Traced (α : Type) : Type := Traversal → (α × Traversal) × List Visit

namespace Node

/-- A node behind a counter, if there is one. -/
def behind? (ctx : Context) (c : Option Counter) (n : Node) : Node :=
  match c with
  | some c => Build.after (c.node ctx.identifier) n
  | none => n

/-- An operand of a chain behind its counter, if it is not a part of the chain itself. -/
def asOperand (ctx : Context) (n : Node) (counters : List (Option Counter)) (chain : Node) : Node :=
  if n.isChain then chain else n.behind? ctx counters.head?.join

/-- A body that is no block in a block of its own, and a counter first. -/
def asBlock? (ctx : Context) (c : Option Counter) : Node → Node
  | block s statements => block s (Walk.counterStatements ctx c ++ statements)
  | n => block n.span (Walk.counterStatements ctx c ++ [n])

/-- A node with the counters that it is given: inside a chain its operands stand behind theirs, left to
right, and a block has one first. -/
def withGiven (ctx : Context) (chain : Bool) (given : List (Option Counter)) : Node → Node
  | paren s inner => paren s (inner.withGiven ctx chain given)
  | logical s operator left right =>
    if chain then
      let n := (ctx.directives.operands left).length
      logical s operator
        (left.asOperand ctx (given.take n) (left.withGiven ctx true (given.take n)))
        (right.asOperand ctx (given.drop n) (right.withGiven ctx true (given.drop n)))
    else logical s operator left right
  | block s statements => (block s statements).asBlock? ctx given.head?.join
  | n => n

@[simp] theorem withGiven_nil (ctx : Context) (chain : Bool) (n : Node) :
    n.withGiven ctx chain [] = n := by
  induction n using induction_children generalizing chain with
  | step n ih =>
    cases n with
    | paren s inner => rw [withGiven,ih inner List.mem_cons_self]
    | logical s operator left right =>
      have hl := ih left (by simp [children])
      have hr := ih right (by simp [children])
      simp [withGiven,asOperand,behind?,hl,hr]
    | _ => rfl

theorem asBlock?_eq_withGiven {ctx : Context} {n : Node} (h : n.isBlock = true) (chain : Bool)
    (c : Option Counter) : n.asBlock? ctx c = n.withGiven ctx chain [c] := by
  cases n with
  | block s statements => rfl
  | _ => cases h

theorem asBlock?_of_not_isBlock {ctx : Context} {n : Node} (h : ¬n.isBlock = true)
    (c : Option Counter) :
    n.asBlock? ctx c = .block n.span (Walk.counterStatements ctx c ++ [n]) := by
  cases n with
  | block s statements => exact absurd rfl h
  | _ => rfl

/-- The return that the value of an arrow becomes. -/
def returned (e : Node) : Node := .simple .return e.span [.child "argument" e]

end Node

namespace Body

/-- A body with the counter of its function. -/
def withCounter (ctx : Context) (c : Option Counter) : Body → Body
  | absent => absent
  | block s statements =>
    block s (statements.takeWhile Node.isDirective ++ Walk.counterStatements ctx c ++
      statements.dropWhile Node.isDirective)
  | value e =>
    match c with
    | none => value e
    | some c => block e.span [c.statementNode ctx.identifier,e.returned]

end Body

namespace Traced

open Walk

variable {α β : Type}

instance : Monad Traced where
  pure a := fun t => ((a,t),[])
  bind w f := fun t =>
    let first := w t
    let second := f first.1.1 first.1.2
    (second.1,first.2 ++ second.2)

instance : LawfulMonad Traced :=
  LawfulMonad.mk' Traced (fun _ => funext fun _ => Prod.ext rfl (List.append_nil _))
    (fun _ _ => rfl) fun _ _ _ => funext fun _ => Prod.ext rfl (List.append_assoc _ _ _)

/-- The walk without the record. -/
def erase (w : Traced α) : Walk α := fun t => (w t).1

/-- A walk that makes no visits. -/
def ofWalk (w : Walk α) : Traced α := fun t => (w t,[])

def visiting (ctx : Context) (construct : β → Construct) (found : β) (key : Key)
    (name : Option String) (action : Action α) (idle : α) (inside : α → Traced β) : Traced β :=
  fun t =>
    let entered := (attempt key action idle).run (t.enter ctx key name)
    let walked := inside entered.1 entered.2
    let after := walked.1.2.leave key (t.depth + 1)
    ((walked.1.1,after),
      [{ key, name, before := t, after, found := construct found, left := construct walked.1.1,
         inside := walked.2 }])

def passing (ctx : Context) (construct : β → Construct) (found : β) (key : Key)
    (inside : Traced β) : Traced β :=
  visiting ctx construct found key none (pure ()) () fun _ => inside

def asItem (declares : Bool) (walk : Traced Node) : Traced (List Node × Node) := fun t =>
  let walked := walk { t with frames := [] :: t.frames, hoist := declares }
  (((walked.1.2.frames.headD [],walked.1.1),
    { walked.1.2 with frames := walked.1.2.frames.tail, hoist := false }),walked.2)

def withChain (inChain : Bool) (walk : Traced α) : Traced α := fun t =>
  let walked := walk { t with inChain }
  ((walked.1.1,{ walked.1.2 with inChain := t.inChain }),walked.2)

def behind? (ctx : Context) (c : Option Counter) (n : Node) (walk : Traced Node) : Traced Node :=
  match c with
  | some c =>
    passing ctx .node (n.behind? ctx (some c)) ⟨.parenthesized,.dummy⟩ do
      return Build.after (c.node ctx.identifier) (← walk)
  | none => walk

def operand (ctx : Context) (n : Node) (counters : List (Option Counter))
    (walk : List (Option Counter) → Traced Node) : Traced Node :=
  if n.isChain then walk counters
  else withChain false (behind? ctx counters.head?.join n (walk []))

def counterItem (ctx : Context) : Option Counter → Traced (List (List Node × Node))
  | none => return []
  | some c => do
    let n := c.statementNode ctx.identifier
    let item ← asItem n.declaresVariables <|
      visiting ctx .node n ⟨.expressionStatement,n.span⟩ none
        (Action.coverStatement ctx .expressionStatement n.span) () fun _ => return n
    return [item]

def inBlock (ctx : Context) (c : Option Counter) (body : Node)
    (walk : List (Option Counter) → Traced Node) : Traced Node :=
  if body.isBlock then walk [c]
  else
    passing ctx .node (body.asBlock? ctx c) ⟨.block,body.span⟩ do
      let first ← counterItem ctx c
      let item ← asItem body.declaresVariables (walk [])
      return .block body.span (placed (first ++ [item]))

def asBody (ctx : Context) (counted : Bool) (body : Node)
    (walk : List (Option Counter) → Traced Node) : Traced Node :=
  if counted then inBlock ctx none body walk else walk []

def asReturn (ctx : Context) (c : Counter) (e : Node) (walk : Traced Node) : Traced Body :=
  passing ctx .body ((Body.value e).withCounter ctx (some c)) ⟨.block,e.span⟩ do
    let first ← counterItem ctx (some c)
    let item ← asItem false <|
      visiting ctx .node e.returned ⟨.return,e.span⟩ none
        (Action.coverStatement ctx .return e.span) () fun _ => do
          return .simple .return e.span [.child "argument" (← walk)]
    return .block e.span (placed (first ++ [item]))

def inParens (ctx : Context) (wanted : Bool) (heritage : Node) (walk : Traced Node) :
    Traced Node :=
  if wanted && !heritage.isParen then
    passing ctx .node (Build.paren heritage) ⟨.parenthesized,.dummy⟩ do
      return Build.paren (← walk)
  else walk

end Traced

open CoverageCounters.Traced CoverageCounters.Action

mutual

def Node.traced (ctx : Context) (given : List (Option Counter)) : Node → Traced Node
  | .plain head parts => do return .plain head (← tracedParts ctx parts)
  | .paren s inner => do
    let chain := (← ofWalk get).inChain
    passing ctx .node ((Node.paren s inner).withGiven ctx chain given) ⟨.parenthesized,s⟩ do
      return .paren s (← inner.traced ctx given)
  | .logical s operator left right => do
    let chain := (← ofWalk get).inChain
    visiting ctx .node ((Node.logical s operator left right).withGiven ctx chain given) ⟨.logical,s⟩
      none (if !chain then coverChain ctx s left right else pure []) [] fun own => withChain true do
        let counters := if !chain then own else given
        let n := (ctx.directives.operands left).length
        let left ← operand ctx left (counters.take n) fun c => left.traced ctx c
        let right ← operand ctx right (counters.drop n) fun c => right.traced ctx c
        return .logical s operator left right
  | .conditional s test consequent alternate =>
    visiting ctx .node (.conditional s test consequent alternate) ⟨.conditional,s⟩ none
      (coverConditional ctx s consequent alternate) (none,none) fun counters => do
        let test ← test.traced ctx []
        let first ← behind? ctx counters.1 consequent (consequent.traced ctx [])
        let second ← behind? ctx counters.2 alternate (alternate.traced ctx [])
        return .conditional s test first second
  | .function head key before body after =>
    visiting ctx .node (.function head key before body after) (head.key key)
      (head.ignorableName? key) (coverFunction ctx head key body) none fun counter => do
        let key ← tracedOption ctx none key
        let before ← tracedParts ctx before
        let body ← tracedBody ctx counter body
        let after ← tracedParts ctx after
        return .function head key before body after
  | .defaulted form s target value =>
    visiting ctx .node (.defaulted form s target value) ⟨form.kind,s⟩ none
      (coverDefault ctx s value) none fun counter => do
        let target ← target.traced ctx []
        let value ← tracedOption ctx counter value
        return .defaulted form s target value
  | .classDeclaration s data name before heritage after =>
    visiting ctx .node (.classDeclaration s data name before heritage after) ⟨.classDeclaration,s⟩
      none (pure true) false fun counted => do
        let name ← name.traced ctx []
        let before ← tracedParts ctx before
        let heritage ← tracedHeritage ctx counted heritage
        let after ← tracedParts ctx after
        return .classDeclaration s data name before heritage after
  | .expression s inner =>
    visiting ctx .node (.expression s inner) ⟨.expressionStatement,s⟩ none
      (coverStatement ctx .expressionStatement s) () fun _ => do
        return .expression s (← inner.traced ctx [])
  | .simple form s parts =>
    visiting ctx .node (.simple form s parts) ⟨form.kind,s⟩ none
      (coverStatement ctx form.kind s) () fun _ => do
        return .simple form s (← tracedParts ctx parts)
  | .compound form s data init head body =>
    visiting ctx .node (.compound form s data init head body) ⟨form.kind,s⟩ none
      (coverCompound ctx form s init) false fun counted => do
        let init ← tracedOption ctx none init
        let head ← tracedParts ctx head
        let body ← asBody ctx counted body fun given => body.traced ctx given
        return .compound form s data init head body
  | .ifElse s test consequent alternate =>
    visiting ctx .node (.ifElse s test consequent alternate) ⟨.if,s⟩ none
      (coverIf ctx s consequent alternate) none fun counters => do
        let test ← test.traced ctx []
        match counters with
        | none =>
          let consequent ← consequent.traced ctx []
          let alternate ← tracedOption ctx none alternate
          return .ifElse s test consequent alternate
        | some (c,a) =>
          let consequent ← inBlock ctx c consequent fun given => consequent.traced ctx given
          let alternate ← tracedElse ctx a alternate
          return .ifElse s test consequent (some alternate)
  | .switch s discriminant cases =>
    visiting ctx .node (.switch s discriminant cases) ⟨.switch,s⟩ none (coverSwitch ctx s) ()
      fun _ => do
        let discriminant ← discriminant.traced ctx []
        let cases ← tracedCases ctx ⟨.switch,s⟩ cases
        return .switch s discriminant cases
  | .bindings s data declarators => do
    let hoistable ← ofWalk Walk.takeHoist
    passing ctx .node (.bindings s data declarators) ⟨.variableDeclaration,s⟩ do
      return .bindings s data (← tracedDeclarators ctx hoistable declarators)
  | .block s statements =>
    passing ctx .node ((Node.block s statements).asBlock? ctx given.head?.join) ⟨.block,s⟩ do
      let first ← counterItem ctx given.head?.join
      let items ← tracedItems ctx statements
      return .block s (Walk.placed (first ++ items))
  | .exported s declaration => do return .exported s (← declaration.traced ctx [])
  | .namespaceBlock s items => do
    return .namespaceBlock s (Walk.placed (← tracedItems ctx items))

def tracedPart (ctx : Context) : Part → Traced Part
  | .child field n => do return .child field (← n.traced ctx [])
  | .children field nodes => do return .children field (← tracedNodes ctx nodes)

def tracedParts (ctx : Context) : List Part → Traced (List Part)
  | [] => return []
  | p :: rest => do
    let p ← tracedPart ctx p
    let rest ← tracedParts ctx rest
    return p :: rest

def tracedNodes (ctx : Context) : List Node → Traced (List Node)
  | [] => return []
  | n :: rest => do
    let n ← n.traced ctx []
    let rest ← tracedNodes ctx rest
    return n :: rest

def tracedOption (ctx : Context) (counter : Option Counter) : Option Node → Traced (Option Node)
  | none => return none
  | some n => do return some (← behind? ctx counter n (n.traced ctx []))

def tracedElse (ctx : Context) (counter : Option Counter) : Option Node → Traced Node
  | none =>
    passing ctx .node (.block .dummy (Walk.counterStatements ctx counter)) ⟨.block,.dummy⟩ do
      return .block .dummy (Walk.placed (← counterItem ctx counter))
  | some n => inBlock ctx counter n fun given => n.traced ctx given

def tracedHeritage (ctx : Context) (counted : Bool) : Option Node → Traced (Option Node)
  | none => return none
  | some n => do return some (← inParens ctx counted n (n.traced ctx []))

def tracedBody (ctx : Context) (counter : Option Counter) : Body → Traced Body
  | .absent => return .absent
  | .block s statements =>
    passing ctx .body ((Body.block s statements).withCounter ctx counter) ⟨.block,s⟩ do
      return .block s (Walk.placed (← tracedStatements ctx counter statements))
  | .value e =>
    match counter with
    | none => do return .value (← e.traced ctx [])
    | some c => asReturn ctx c e (e.traced ctx [])

def tracedStatements (ctx : Context) (counter : Option Counter) :
    List Node → Traced (List (List Node × Node))
  | [] => counterItem ctx counter
  | n :: rest =>
    if n.isDirective then do
      let item ← asItem n.declaresVariables (n.traced ctx [])
      let rest ← tracedStatements ctx counter rest
      return item :: rest
    else do
      let first ← counterItem ctx counter
      let item ← asItem n.declaresVariables (n.traced ctx [])
      let rest ← tracedItems ctx rest
      return first ++ item :: rest

def tracedItems (ctx : Context) : List Node → Traced (List (List Node × Node))
  | [] => return []
  | n :: rest => do
    let item ← asItem n.declaresVariables (n.traced ctx [])
    let rest ← tracedItems ctx rest
    return item :: rest

def tracedCase (ctx : Context) (switch : Key) : Case → Traced Case
  | .mk s test consequent =>
    visiting ctx .case (.mk s test consequent) ⟨.switchCase,s⟩ none (coverCase ctx s switch) none
      fun counter => do
        let test ← tracedOption ctx none test
        let first ← counterItem ctx counter
        let items ← tracedItems ctx consequent
        return .mk s test (Walk.placed (first ++ items))

def tracedCases (ctx : Context) (switch : Key) : List Case → Traced (List Case)
  | [] => return []
  | c :: rest => do
    let c ← tracedCase ctx switch c
    let rest ← tracedCases ctx switch rest
    return c :: rest

def tracedDeclarator (ctx : Context) (hoistable : Bool) : Declarator → Traced Declarator
  | .mk s data target init =>
    visiting ctx .declarator (.mk s data target init) ⟨.variableDeclarator,s⟩ none
      (coverInitializer ctx hoistable init) none fun counter => do
        let target ← target.traced ctx []
        let init ← tracedOption ctx counter init
        return .mk s data target init

def tracedDeclarators (ctx : Context) (hoistable : Bool) :
    List Declarator → Traced (List Declarator)
  | [] => return []
  | d :: rest => do
    let d ← tracedDeclarator ctx hoistable d
    let rest ← tracedDeclarators ctx hoistable rest
    return d :: rest

end

/-- The counter of a function is visited between the directives at the head and what follows them. -/
theorem tracedStatements_eq (ctx : Context) (counter : Option Counter) (statements : List Node) :
    tracedStatements ctx counter statements = do
      let front ← tracedItems ctx (statements.takeWhile Node.isDirective)
      let first ← counterItem ctx counter
      let back ← tracedItems ctx (statements.dropWhile Node.isDirective)
      return front ++ first ++ back := by
  induction statements with
  | nil => simp [tracedStatements,tracedItems]
  | cons n rest ih =>
    cases hn : n.isDirective with
    | true => simp [tracedStatements,tracedItems,hn,ih]
    | false => simp [tracedStatements,tracedItems,hn]

namespace Traced

variable {α β : Type} {ctx : Context}

@[simp] theorem erase_pure (a : α) : (pure a : Traced α).erase = pure a := rfl

@[simp] theorem erase_bind (w : Traced α) (f : α → Traced β) :
    (w >>= f).erase = w.erase >>= fun a => (f a).erase := rfl

@[simp] theorem erase_ofWalk (w : Walk α) : (ofWalk w).erase = w := rfl

@[simp] theorem erase_visiting (construct : β → Construct) (found : β) (key : Key)
    (name : Option String) (action : Action α) (idle : α) (inside : α → Traced β) :
    (visiting ctx construct found key name action idle inside).erase =
      Walk.visiting ctx key name action idle fun a => (inside a).erase := rfl

@[simp] theorem erase_passing (construct : β → Construct) (found : β) (key : Key)
    (inside : Traced β) :
    (passing ctx construct found key inside).erase = Walk.passing ctx key inside.erase := rfl

@[simp] theorem erase_asItem (declares : Bool) (walk : Traced Node) :
    (asItem declares walk).erase = Walk.asItem declares walk.erase := rfl

@[simp] theorem erase_withChain (inChain : Bool) (walk : Traced α) :
    (withChain inChain walk).erase = Walk.withChain inChain walk.erase := rfl

@[simp] theorem erase_behind? (c : Option Counter) (n : Node) (walk : Traced Node) :
    (behind? ctx c n walk).erase = Walk.behind? ctx c walk.erase := by
  cases c <;> rfl

@[simp] theorem erase_operand (n : Node) (counters : List (Option Counter))
    (walk : List (Option Counter) → Traced Node) :
    (operand ctx n counters walk).erase = Walk.operand ctx n counters fun c => (walk c).erase := by
  unfold operand Walk.operand
  split
  · rfl
  · rw [erase_withChain,erase_behind?]

@[simp] theorem erase_counterItem (c : Option Counter) :
    (counterItem ctx c).erase = Walk.counterItem ctx c := by
  cases c <;> rfl

@[simp] theorem erase_inBlock (c : Option Counter) (body : Node)
    (walk : List (Option Counter) → Traced Node) :
    (inBlock ctx c body walk).erase = Walk.inBlock ctx c body fun given => (walk given).erase := by
  unfold inBlock Walk.inBlock
  split
  · rfl
  · simp only [erase_passing,erase_bind,erase_counterItem,erase_asItem,erase_pure]

@[simp] theorem erase_asBody (counted : Bool) (body : Node)
    (walk : List (Option Counter) → Traced Node) :
    (asBody ctx counted body walk).erase =
      Walk.asBody ctx counted body fun given => (walk given).erase := by
  cases counted
  · rfl
  · exact erase_inBlock none body walk

@[simp] theorem erase_asReturn (c : Counter) (e : Node) (walk : Traced Node) :
    (asReturn ctx c e walk).erase = Walk.asReturn ctx c e.span walk.erase := rfl

@[simp] theorem erase_inParens (wanted : Bool) (heritage : Node) (walk : Traced Node) :
    (inParens ctx wanted heritage walk).erase = Walk.inParens ctx wanted heritage walk.erase := by
  unfold inParens Walk.inParens
  split <;> rfl

end Traced

section Erase

variable (ctx : Context)

mutual

/-- Without the record of its visits the traced walk is the walk. -/
theorem Node.erase_traced (given : List (Option Counter)) (n : Node) :
    (n.traced ctx given).erase = n.walk ctx given := by
  cases n with
  | plain head parts => simp only [Node.traced,Node.walk,erase_bind,erase_pure,erase_tracedParts parts]
  | paren s inner =>
    have h := inner.erase_traced given
    simp only [Node.traced,Node.walk,erase_bind,erase_pure,erase_passing,h]
    rfl
  | logical s operator left right =>
    have hl := fun c => left.erase_traced c
    have hr := fun c => right.erase_traced c
    simp only [Node.traced,Node.walk,erase_bind,erase_pure,erase_visiting,erase_withChain,erase_operand,
      erase_ofWalk,hl,hr]
  | conditional s test consequent alternate =>
    simp only [Node.traced,Node.walk,erase_bind,erase_pure,erase_visiting,erase_behind?,
      test.erase_traced [],consequent.erase_traced [],alternate.erase_traced []]
  | function head key before body after =>
    simp only [Node.traced,Node.walk,erase_bind,erase_pure,erase_visiting,erase_tracedOption _ key,
      erase_tracedParts before,erase_tracedBody _ body,erase_tracedParts after]
  | defaulted form s target value =>
    simp only [Node.traced,Node.walk,erase_bind,erase_pure,erase_visiting,target.erase_traced [],
      erase_tracedOption _ value]
  | classDeclaration s data name before heritage after =>
    simp only [Node.traced,Node.walk,erase_bind,erase_pure,erase_visiting,name.erase_traced [],
      erase_tracedParts before,erase_tracedHeritage _ heritage,erase_tracedParts after]
  | expression s inner =>
    simp only [Node.traced,Node.walk,erase_bind,erase_pure,erase_visiting,inner.erase_traced []]
  | simple form s parts =>
    simp only [Node.traced,Node.walk,erase_bind,erase_pure,erase_visiting,erase_tracedParts parts]
  | compound form s data init head body =>
    have hb := fun given => body.erase_traced given
    simp only [Node.traced,Node.walk,erase_bind,erase_pure,erase_visiting,erase_tracedOption _ init,
      erase_tracedParts head,erase_asBody,hb]
  | ifElse s test consequent alternate =>
    simp only [Node.traced,Node.walk,erase_bind,erase_visiting,test.erase_traced []]
    congr 1
    funext counters
    cases counters with
    | none =>
      simp only [erase_bind,erase_pure,consequent.erase_traced [],erase_tracedOption _ alternate]
    | some c =>
      have hc := fun given => consequent.erase_traced given
      simp only [erase_bind,erase_pure,erase_inBlock,hc,erase_tracedElse _ alternate]
  | switch s discriminant cases =>
    simp only [Node.traced,Node.walk,erase_bind,erase_pure,erase_visiting,discriminant.erase_traced [],
      erase_tracedCases _ cases]
  | bindings s data declarators =>
    simp only [Node.traced,Node.walk,erase_bind,erase_pure,erase_passing,erase_ofWalk,
      erase_tracedDeclarators _ declarators]
  | block s statements =>
    simp only [Node.traced,Node.walk,erase_bind,erase_pure,erase_passing,erase_counterItem,
      erase_tracedItems statements]
  | exported s declaration =>
    simp only [Node.traced,Node.walk,erase_bind,erase_pure,declaration.erase_traced []]
  | namespaceBlock s items =>
    simp only [Node.traced,Node.walk,erase_bind,erase_pure,erase_tracedItems items]

theorem erase_tracedPart (p : Part) : (tracedPart ctx p).erase = walkPart ctx p := by
  cases p with
  | child field n => simp only [tracedPart,walkPart,erase_bind,erase_pure,n.erase_traced []]
  | children field nodes =>
    simp only [tracedPart,walkPart,erase_bind,erase_pure,erase_tracedNodes nodes]

theorem erase_tracedParts (parts : List Part) : (tracedParts ctx parts).erase = walkParts ctx parts := by
  cases parts with
  | nil => rfl
  | cons p rest =>
    simp only [tracedParts,walkParts,erase_bind,erase_pure,erase_tracedPart p,erase_tracedParts rest]

theorem erase_tracedNodes (nodes : List Node) : (tracedNodes ctx nodes).erase = walkNodes ctx nodes := by
  cases nodes with
  | nil => rfl
  | cons n rest =>
    simp only [tracedNodes,walkNodes,erase_bind,erase_pure,n.erase_traced [],erase_tracedNodes rest]

theorem erase_tracedOption (counter : Option Counter) (o : Option Node) :
    (tracedOption ctx counter o).erase = walkOption ctx counter o := by
  cases o with
  | none => rfl
  | some n => simp only [tracedOption,walkOption,erase_bind,erase_pure,erase_behind?,n.erase_traced []]

theorem erase_tracedElse (counter : Option Counter) (o : Option Node) :
    (tracedElse ctx counter o).erase = walkElse ctx counter o := by
  cases o with
  | none => simp only [tracedElse,walkElse,erase_passing,erase_bind,erase_counterItem,erase_pure]
  | some n =>
    have hn := fun given => n.erase_traced given
    simp only [tracedElse,walkElse,erase_inBlock,hn]

theorem erase_tracedHeritage (counted : Bool) (o : Option Node) :
    (tracedHeritage ctx counted o).erase = walkHeritage ctx counted o := by
  cases o with
  | none => rfl
  | some n =>
    simp only [tracedHeritage,walkHeritage,erase_bind,erase_pure,erase_inParens,n.erase_traced []]

theorem erase_tracedBody (counter : Option Counter) (b : Body) :
    (tracedBody ctx counter b).erase = walkBody ctx counter b := by
  cases b with
  | absent => rfl
  | block s statements =>
    simp only [tracedBody,walkBody,erase_bind,erase_pure,erase_passing,
      erase_tracedStatements counter statements]
  | value e =>
    have he := e.erase_traced []
    cases counter with
    | none => simp only [tracedBody,walkBody,erase_bind,erase_pure,he]
    | some c => simp only [tracedBody,walkBody,erase_asReturn,he]

theorem erase_tracedStatements (counter : Option Counter) (statements : List Node) :
    (tracedStatements ctx counter statements).erase = walkStatements ctx counter statements := by
  cases statements with
  | nil => exact erase_counterItem counter
  | cons n rest =>
    unfold tracedStatements walkStatements
    split
    · simp only [erase_bind,erase_pure,erase_asItem,n.erase_traced [],
        erase_tracedStatements counter rest]
    · simp only [erase_bind,erase_pure,erase_counterItem,erase_asItem,n.erase_traced [],
        erase_tracedItems rest]

theorem erase_tracedItems (items : List Node) : (tracedItems ctx items).erase = walkItems ctx items := by
  cases items with
  | nil => rfl
  | cons n rest =>
    simp only [tracedItems,walkItems,erase_bind,erase_pure,erase_asItem,n.erase_traced [],
      erase_tracedItems rest]

theorem erase_tracedCase (switch : Key) (c : Case) :
    (tracedCase ctx switch c).erase = walkCase ctx switch c := by
  cases c with
  | mk s test consequent =>
    simp only [tracedCase,walkCase,erase_bind,erase_pure,erase_visiting,erase_tracedOption _ test,
      erase_counterItem,erase_tracedItems consequent]

theorem erase_tracedCases (switch : Key) (cases : List Case) :
    (tracedCases ctx switch cases).erase = walkCases ctx switch cases := by
  cases cases with
  | nil => rfl
  | cons c rest =>
    simp only [tracedCases,walkCases,erase_bind,erase_pure,erase_tracedCase switch c,
      erase_tracedCases switch rest]

theorem erase_tracedDeclarator (hoistable : Bool) (d : Declarator) :
    (tracedDeclarator ctx hoistable d).erase = walkDeclarator ctx hoistable d := by
  cases d with
  | mk s data target init =>
    simp only [tracedDeclarator,walkDeclarator,erase_bind,erase_pure,erase_visiting,
      target.erase_traced [],erase_tracedOption _ init]

theorem erase_tracedDeclarators (hoistable : Bool) (declarators : List Declarator) :
    (tracedDeclarators ctx hoistable declarators).erase =
      walkDeclarators ctx hoistable declarators := by
  cases declarators with
  | nil => rfl
  | cons d rest =>
    simp only [tracedDeclarators,walkDeclarators,erase_bind,erase_pure,
      erase_tracedDeclarator hoistable d,erase_tracedDeclarators hoistable rest]

end

end Erase

namespace Program

/-- The walk of a program with its visits. -/
def traced (ctx : Context) (coverage : CoverageMap) (p : Program) :
    (Program × Traversal) × List Visit :=
  let start := { Traversal.start coverage with marks := p.prologueMarks }
  let walked := tracedItems ctx p.body start
  (({ p with body := Walk.placed walked.1.1 },walked.1.2),walked.2)

theorem fst_traced (ctx : Context) (coverage : CoverageMap) (p : Program) :
    (p.traced ctx coverage).1 = p.walk ctx coverage := by
  unfold traced walk
  rw [← erase_tracedItems]
  rfl

end Program
end CoverageCounters
