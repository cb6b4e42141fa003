import CoverageCounters.Proofs.Objects
import CoverageCounters.Proofs.SnapshotAgreement

/-!
What a program does when it is run, for the constructs that a prelude and its counters are built of. A
run has no answer where an error would be thrown, where a construct is none of these, and where it comes
to something that is left open.
-/

namespace CoverageCounters

/-- The variables of a function, or of a whole program. -/
abbrev Scope := String → Option Value

/-- What a run changes: the objects, and the variables of the scopes around, the innermost first. -/
structure RunState where
  heap : Heap
  scopes : List Scope

/-- The global object, and whether code is strict. -/
structure Realm where
  global : Nat
  strict : Bool

/-- A run; without an answer where it is stuck. -/
abbrev Eval := StateT RunState Option

namespace Eval

def lookup (name : String) : Eval Value := do
  match (← get).scopes.findSome? (· name) with
  | some v => return v
  | none => failure

/-- Set a variable in the innermost scope that declares it. -/
def setIn (name : String) (v : Value) : List Scope → Option (List Scope)
  | [] => none
  | scope :: rest =>
    if (scope name).isSome then some (Function.update scope name (some v) :: rest)
    else (setIn name v rest).map (scope :: ·)

def setVariable (name : String) (v : Value) : Eval Unit := do
  match setIn name v (← get).scopes with
  | some scopes => modify fun s => { s with scopes }
  | none => failure

def allocate (o : Object) : Eval Nat := do
  let a := (← get).heap.length
  modify fun s => { s with heap := s.heap ++ [o] }
  return a

def ofOption {α : Type} : Option α → Eval α
  | some a => return a
  | none => failure

def require (condition : Bool) : Eval Unit := if condition then return () else failure

def getMember (v : Value) (key : String) : Eval Value := do ofOption ((← get).heap.get? v key)

/-- Set the property of a value. What cannot be set is an error in strict code, and no change in other
code; so is a property of a value that is no object. -/
def setMember (strict : Bool) (v : Value) (key : String) (x : Value) : Eval Unit := do
  match v with
  | .object a =>
    if ← ofOption ((← get).heap.allows? a key) then
      modify fun s => { s with heap := s.heap.write a key x }
    else require !strict
  | .function _ => failure
  | v =>
    let _ ← getMember v key
    require !strict

/-- Put a property into a new object. Under one name it is what the object inherits from. -/
def define (a : Nat) (key : String) (v : Value) : Eval Unit := do
  if key = "__proto__" then
    let heap ← ofOption ((← get).heap.setParent? a v)
    modify fun s => { s with heap }
  else modify fun s => { s with heap := s.heap.write a key v }

/-- Run with a scope more, which is gone afterwards. -/
def inScope {α : Type} (scope : Scope) (run : Eval α) : Eval α := do
  modify fun s => { s with scopes := scope :: s.scopes }
  let a ← run
  modify fun s => { s with scopes := s.scopes.tail }
  return a

end Eval

open Eval

/-- Whether an operator answers with its left side. -/
def LogicalOperator.settles (v : Value) : LogicalOperator → Bool
  | and => !v.isTruthy
  | or => v.isTruthy
  | coalesce => v ≠ .undefined && v ≠ .null

/-- A plain expression whose parts have the given values. -/
def Head.apply (h : Head) (values : List Value) : Eval Value :=
  match h.form, values with
  | .identifier, [] => do lookup (← ofOption (h.text? "value"))
  | .stringLiteral, [] => do return .string (textOfLiteral (← ofOption (h.text? "value")))
  | .numericLiteral, [] =>
    match Json.lookup "value" h.data with
    | some (.number n) => return .number n
    | _ => failure
  | .booleanLiteral, [] =>
    return .bool ((Json.lookup "value" h.data).bind Json.asBool? = some true)
  | .nullLiteral, [] => return .null
  | .argument, [v] | .computed, [v] => return v
  | .unaryExpression, [.number n] =>
    if h.text? "operator" = some "-" then return .number n.neg else failure
  | .binaryExpression, [v,w] => do
    -- functions of one kind are not told apart
    require (h.text? "operator" = some "===" && !(v = .function .other && w = .function .other))
    return .bool (v.strictlyEquals w)
  | .newExpression, [.function .constructor,.string "return this"] => return .function .receiver
  | _, _ => failure

mutual

def Node.varNames : Node → List String
  | .bindings _ _ declarators => declarators.filterMap fun | .mk _ _ target _ => target.identifierName?
  | .block _ statements => varNamesAll statements
  | .ifElse _ _ consequent (some alternate) => consequent.varNames ++ alternate.varNames
  | .ifElse _ _ consequent none => consequent.varNames
  | _ => []

def varNamesAll : List Node → List String
  | [] => []
  | n :: rest => n.varNames ++ varNamesAll rest

end

/-- A scope with the variables that statements declare, none of them set yet. -/
def hoisted (statements : List Node) : Scope := fun name =>
  if (varNamesAll statements).contains name then some .undefined else none

mutual

/-- The value of an expression, where the global object has the given address. -/
def Node.eval (m : Realm) : Node → Eval Value
  | .paren _ inner => inner.eval m
  | .logical _ operator left right => do
    let v ← left.eval m
    if operator.settles v then return v else right.eval m
  | .function _ _ _ _ _ => return .function .other
  | .plain head parts =>
    match head.form with
    | .memberExpression => do
      let (object,key) ← evalReference m parts
      getMember object key
    | .assignmentExpression =>
      if head.text? "operator" = some "=" then evalAssignment m parts else failure
    | .updateExpression => if head.text? "operator" = some "++" then evalUpdate m parts else failure
    | .callExpression => evalCall m parts
    | .objectExpression => do
      let a ← allocate (.empty false)
      evalProperties m a parts
      return .object a
    | .arrayExpression => do
      let a ← allocate (.empty true)
      evalElements m a parts
      return .object a
    | _ => do head.apply (← evalParts m parts)
  | _ => failure

/-- The values of the nodes in some parts, from left to right. -/
def evalParts (m : Realm) : List Part → Eval (List Value)
  | [] => return []
  | .child _ n :: rest => do
    let v ← n.eval m
    return v :: (← evalParts m rest)
  | .children _ nodes :: rest => do
    let values ← evalAll m nodes
    return values ++ (← evalParts m rest)

def evalAll (m : Realm) : List Node → Eval (List Value)
  | [] => return []
  | n :: rest => do
    let v ← n.eval m
    return v :: (← evalAll m rest)

/-- The object and the name of a property; a name in brackets is computed. -/
def evalReference (m : Realm) : List Part → Eval (Value × String)
  | [.child _ object,.child _ property] => do
    let v ← object.eval m
    match property.identifierName? with
    | some name => return (v,name)
    | none =>
      let key ← property.eval m
      return (v,← ofOption key.key?)
  | _ => failure

/-- An assignment to a property: the object and the name come first, then the value. -/
def evalAssignment (m : Realm) : List Part → Eval Value
  | [.child _ (.plain head target),.child _ value] => do
    require (head.form = .memberExpression)
    let (object,key) ← evalReference m target
    let v ← value.eval m
    setMember m.strict object key v
    return v
  | _ => failure

/-- The increment of a property that holds a number; the answer is the number before. -/
def evalUpdate (m : Realm) : List Part → Eval Value
  | [.child _ (.plain head target)] => do
    require (head.form = .memberExpression)
    let (object,key) ← evalReference m target
    match ← getMember object key with
    | .number n =>
      setMember m.strict object key (.number n.succ)
      return .number n
    | _ => failure
  | _ => failure

/-- A call without arguments, of a function where it is written or of the one that answers with the global
object. -/
def evalCall (m : Realm) : List Part → Eval Value
  | [.child _ (.paren _ (.function head none before (.block _ statements) _)),.children _ []] => do
    require (head.kind = .expression && before.all (·.nodes.isEmpty))
    inScope (hoisted statements) do return (← execAll m statements).getD .undefined
  | [.child _ callee,.children _ []] => do
    match ← callee.eval m with
    | .function .receiver => return .object m.global
    | _ => failure
  | _ => failure

def evalProperties (m : Realm) (a : Nat) : List Part → Eval Unit
  | [.children _ properties] => evalEntries m a properties
  | _ => failure

/-- Put properties into an object, from left to right. -/
def evalEntries (m : Realm) (a : Nat) : List Node → Eval Unit
  | [] => return ()
  | .plain head [.child _ (.plain key _),.child _ value] :: rest => do
    require (head.form = .keyValueProperty && key.form = .stringLiteral)
    let v ← value.eval m
    define a (textOfLiteral (← ofOption (key.text? "value"))) v
    evalEntries m a rest
  | _ => failure

def evalElements (m : Realm) (a : Nat) : List Part → Eval Unit
  | [.children _ elements] => evalItems m a 0 elements
  | _ => failure

/-- Put elements into an array, from the given index on. -/
def evalItems (m : Realm) (a i : Nat) : List Node → Eval Unit
  | [] => return ()
  | n :: rest => do
    let v ← n.eval m
    define a (indexText i) v
    evalItems m a (i + 1) rest

/-- Run a statement; the answer is the value that it returns, if it does. -/
def Node.exec (m : Realm) : Node → Eval (Option Value)
  | .expression _ inner => do
    let _ ← inner.eval m
    return none
  | .simple .return _ [.child _ argument] => do return some (← argument.eval m)
  | .block _ statements => execAll m statements
  | .ifElse _ test consequent alternate => do
    if (← test.eval m).isTruthy then consequent.exec m else execOption m alternate
  | .bindings _ data declarators => do
    require ((Json.lookup "kind" data).bind Json.asString? = some "var")
    execDeclarators m declarators
    return none
  | _ => failure

def execOption (m : Realm) : Option Node → Eval (Option Value)
  | none => return none
  | some n => n.exec m

/-- Run statements in turn, up to the first that returns. -/
def execAll (m : Realm) : List Node → Eval (Option Value)
  | [] => return none
  | n :: rest => do
    match ← n.exec m with
    | some v => return some v
    | none => execAll m rest

def execDeclarators (m : Realm) : List Declarator → Eval Unit
  | [] => return ()
  | .mk _ _ _ none :: rest => execDeclarators m rest
  | .mk _ _ target (some init) :: rest => do
    let v ← init.eval m
    setVariable (← ofOption target.identifierName?) v
    execDeclarators m rest

end

/-! ### Running what is built -/

namespace Eval

variable {α β : Type} {h : Heap} {scope : Scope} {rest : List Scope}

theorem run_bind_of {x : Eval α} {f : α → Eval β} {s s' : RunState} {a : α} (h : x.run s = some (a,s')) :
    (x >>= f).run s = (f a).run s' := by
  rw [StateT.run_bind,h]
  rfl

@[simp] theorem run_lookup {name : String} {v : Value} (hv : scope name = some v) :
    (lookup name).run ⟨h,scope :: rest⟩ = some (v,⟨h,scope :: rest⟩) := by
  simp [lookup,hv]

theorem run_getMember {v w : Value} {key : String} {scopes : List Scope} (hw : h.get? v key = some w) :
    (getMember v key).run ⟨h,scopes⟩ = some (w,⟨h,scopes⟩) := by
  simp [getMember,hw,ofOption]

theorem get?_of_run_getMember {v w : Value} {key : String} {s s' : RunState}
    (hr : (getMember v key).run s = some (w,s')) : s.heap.get? v key = some w ∧ s' = s := by
  have he : (getMember v key).run s = (s.heap.get? v key).map (·,s) := by
    change (ofOption (s.heap.get? v key)).run s = _
    cases s.heap.get? v key <;> rfl
  obtain ⟨u,hu,hp⟩ := Option.map_eq_some_iff.mp (he.symm.trans hr)
  cases hp
  exact ⟨hu,rfl⟩

theorem run_setMember {a : Nat} {key : String} {scopes : List Scope} (ha : h.allows? a key = some true)
    (strict : Bool) (v : Value) :
    (setMember strict (.object a) key v).run ⟨h,scopes⟩ = some ((),⟨h.write a key v,scopes⟩) := by
  simp [setMember,ha,ofOption]

theorem run_define {key : String} (hk : key ≠ "__proto__") (a : Nat) (v : Value) (s : RunState) :
    (define a key v).run s = some ((),{ s with heap := s.heap.write a key v }) := by
  simp [define,hk]

@[simp] theorem run_allocate (o : Object) (s : RunState) :
    (allocate o).run s = some (s.heap.length,{ s with heap := s.heap ++ [o] }) := rfl

theorem run_inScope {x : Eval α} {inner : Scope} {a : α} {h' : Heap} {inner' : Scope}
    {scopes : List Scope} (hx : x.run ⟨h,inner :: scopes⟩ = some (a,⟨h',inner' :: scopes⟩)) :
    (inScope inner x).run ⟨h,scopes⟩ = some (a,⟨h',scopes⟩) := by
  have hs : (modify fun s : RunState => { s with scopes := inner :: s.scopes } : Eval PUnit).run
      ⟨h,scopes⟩ = some ((),⟨h,inner :: scopes⟩) := rfl
  rw [inScope,run_bind_of hs,run_bind_of hx]
  rfl

theorem run_setVariable {name : String} (v : Value) (hn : (scope name).isSome) :
    (setVariable name v).run ⟨h,scope :: rest⟩ =
      some ((),⟨h,Function.update scope name (some v) :: rest⟩) := by
  simp [setVariable,setIn,hn]

end Eval

namespace Build

variable (m : Realm)

attribute [local simp] Node.eval Node.exec evalParts evalReference evalAssignment evalUpdate evalCall
  evalProperties evalElements Head.apply Head.text? Node.identifierName? Node.leaf Json.lookup
  Json.asString?

@[simp] theorem eval_paren (e : Node) : (paren e).eval m = e.eval m := rfl

@[simp] theorem eval_identifier (name : String) : (identifier name).eval m = lookup name := by
  simp [identifier,ofOption]

@[simp] theorem eval_index (i : Nat) : (index i).eval m = pure (.number (.integer i)) := by
  simp [index,Json.nat]

@[simp] theorem eval_argument (e : Node) : (argument e).eval m = e.eval m := by
  simp [argument]

theorem eval_member (o : Node) (name : String) :
    (member o name).eval m = (do getMember (← o.eval m) name) := by
  simp [member,identifier]

theorem eval_element (o key : Node) :
    (element o key).eval m = (do
      let v ← o.eval m
      let k ← key.eval m
      getMember v (← ofOption k.key?)) := by
  simp [element]

theorem eval_assign_member (o e : Node) (name : String) :
    (assign (member o name) e).eval m = (do
      let v ← o.eval m
      let w ← e.eval m
      setMember m.strict v name w
      return w) := by
  simp [assign,member,identifier,require]

theorem eval_assign_element (o key e : Node) :
    (assign (element o key) e).eval m = (do
      let v ← o.eval m
      let k ← key.eval m
      let name ← ofOption k.key?
      let w ← e.eval m
      setMember m.strict v name w
      return w) := by
  simp [assign,element,require]

theorem eval_increment_element (o key : Node) :
    (increment (element o key)).eval m = (do
      let v ← o.eval m
      let k ← key.eval m
      let name ← ofOption k.key?
      match ← getMember v name with
      | .number n =>
        setMember m.strict v name (.number n.succ)
        return .number n
      | _ => failure) := by
  simp [increment,element,require]

theorem eval_strictlyEqual (a b : Node) :
    (strictlyEqual a b).eval m = (do
      let v ← a.eval m
      let w ← b.eval m
      require (!(v = .function .other && w = .function .other))
      return .bool (v.strictlyEquals w)) := by
  simp [strictlyEqual]

theorem eval_object (properties : List Node) :
    (object properties).eval m = (do
      let a ← allocate (.empty false)
      evalEntries m a properties
      return .object a) := by
  simp [object]

theorem eval_array (items : List Node) :
    (array items).eval m = (do
      let a ← allocate (.empty true)
      evalItems m a 0 items
      return .object a) := by
  simp [array]

/-- A function that is called where it is written runs its statements with variables of its own. -/
theorem eval_call_function (statements : List Node) :
    (call (paren (function statements)) []).eval m =
      inScope (hoisted statements) (do return (← execAll m statements).getD .undefined) := by
  simp [call,paren,function,require,Part.nodes]

@[simp] theorem exec_statement (e : Node) :
    (statement e).exec m = (do let _ ← e.eval m; return none) := by
  simp [statement]

@[simp] theorem exec_returning (e : Node) :
    (returning e).exec m = (do return some (← e.eval m)) := by
  simp [returning]

theorem exec_bindings (declarators : List Declarator) :
    (bindings declarators).exec m = (do execDeclarators m declarators; return none) := by
  simp [bindings,require]

/-- A declarator sets a variable of the innermost scope, if that scope has it. -/
theorem run_declarator {h h' : Heap} {scope : Scope} {rest : List Scope} {name : String} {e : Node}
    {v : Value} {declarators : List Declarator}
    (he : (e.eval m).run ⟨h,scope :: rest⟩ = some (v,⟨h',scope :: rest⟩))
    (hn : (scope name).isSome) :
    (execDeclarators m (declarator name e :: declarators)).run ⟨h,scope :: rest⟩ =
      (execDeclarators m declarators).run ⟨h',Function.update scope name (some v) :: rest⟩ := by
  have ht : (identifier name).identifierName? = some name := rfl
  rw [declarator,execDeclarators,run_bind_of he,ht,ofOption,pure_bind]
  exact run_bind_of (run_setVariable v hn)

end Build

end CoverageCounters
