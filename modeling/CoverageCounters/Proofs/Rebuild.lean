import CoverageCounters.Pass.Walk
import CoverageCounters.Proofs.CounterReading

/-!
Rebuilding a tree from its leaves up. Two rebuildings matter: erasing the counters of a file, and
giving every construct the shape in which it has room for counters.
-/

namespace CoverageCounters

/-- What is done to the nodes, the statement lists and the function bodies of a tree. -/
structure Rebuilding where
  node : Node → Node
  items : List Node → List Node
  body : Body → Body

mutual

/-- Rebuild a node whose parts are rebuilt first. -/
def Node.rebuild (r : Rebuilding) : Node → Node
  | .plain head parts => r.node (.plain head (rebuildParts r parts))
  | .paren s inner => r.node (.paren s (inner.rebuild r))
  | .logical s operator left right =>
    r.node (.logical s operator (left.rebuild r) (right.rebuild r))
  | .conditional s test consequent alternate =>
    r.node (.conditional s (test.rebuild r) (consequent.rebuild r) (alternate.rebuild r))
  | .function head key before body after =>
    r.node (.function head (rebuildOption r key) (rebuildParts r before) (rebuildBody r body)
      (rebuildParts r after))
  | .defaulted form s target value =>
    r.node (.defaulted form s (target.rebuild r) (rebuildOption r value))
  | .classDeclaration s data name before heritage after =>
    r.node (.classDeclaration s data (name.rebuild r) (rebuildParts r before)
      (rebuildOption r heritage) (rebuildParts r after))
  | .expression s inner => r.node (.expression s (inner.rebuild r))
  | .simple form s parts => r.node (.simple form s (rebuildParts r parts))
  | .compound form s data init head body =>
    r.node (.compound form s data (rebuildOption r init) (rebuildParts r head) (body.rebuild r))
  | .ifElse s test consequent alternate =>
    r.node (.ifElse s (test.rebuild r) (consequent.rebuild r) (rebuildOption r alternate))
  | .switch s discriminant cases =>
    r.node (.switch s (discriminant.rebuild r) (rebuildCases r cases))
  | .bindings s data declarators => r.node (.bindings s data (rebuildDeclarators r declarators))
  | .block s statements => r.node (.block s (r.items (rebuildNodes r statements)))
  | .exported s declaration => r.node (.exported s (declaration.rebuild r))
  | .namespaceBlock s items => r.node (.namespaceBlock s (r.items (rebuildNodes r items)))

def rebuildPart (r : Rebuilding) : Part → Part
  | .child field n => .child field (n.rebuild r)
  | .children field nodes => .children field (rebuildNodes r nodes)

def rebuildParts (r : Rebuilding) : List Part → List Part
  | [] => []
  | p :: rest => rebuildPart r p :: rebuildParts r rest

def rebuildNodes (r : Rebuilding) : List Node → List Node
  | [] => []
  | n :: rest => n.rebuild r :: rebuildNodes r rest

def rebuildOption (r : Rebuilding) : Option Node → Option Node
  | none => none
  | some n => some (n.rebuild r)

def rebuildBody (r : Rebuilding) : Body → Body
  | .absent => r.body .absent
  | .block s statements => r.body (.block s (r.items (rebuildNodes r statements)))
  | .value e => r.body (.value (e.rebuild r))

def rebuildCase (r : Rebuilding) : Case → Case
  | .mk s test consequent => .mk s (rebuildOption r test) (r.items (rebuildNodes r consequent))

def rebuildCases (r : Rebuilding) : List Case → List Case
  | [] => []
  | c :: rest => rebuildCase r c :: rebuildCases r rest

def rebuildDeclarator (r : Rebuilding) : Declarator → Declarator
  | .mk s data target init => .mk s data (target.rebuild r) (rebuildOption r init)

def rebuildDeclarators (r : Rebuilding) : List Declarator → List Declarator
  | [] => []
  | d :: rest => rebuildDeclarator r d :: rebuildDeclarators r rest

end

@[simp] theorem rebuildNodes_eq_map (r : Rebuilding) (nodes : List Node) :
    rebuildNodes r nodes = nodes.map (Node.rebuild r) := by
  induction nodes with
  | nil => rfl
  | cons n rest ih => rw [rebuildNodes,ih,List.map_cons]

namespace Node

/-- The expression that stands behind a counter in a pair `(counter, e)`. -/
def afterCounter? (name : String) : Node → Option Node
  | paren s (plain ⟨form,place,[]⟩ [.children field [c,e]]) =>
    if s = .dummy ∧ form = .sequenceExpression ∧ place = .dummy ∧ field = "expressions" ∧
        (Counter.ofNode? name c).isSome then some e
    else none
  | _ => none

/-- Take the counter in front of an expression away. -/
def withoutCounter (name : String) (n : Node) : Node := (n.afterCounter? name).getD n

/-- The parenthesized form of an expression. -/
def asParen (n : Node) : Node := if n.isParen then n else Build.paren n

/-- The shape of a construct that has room for counters: bodies are blocks, an `if` has an `else`, and
the heritage of a class declaration stands in parentheses. -/
def roomy : Node → Node
  | compound form s data init head body => .compound form s data init head body.asBlock
  | ifElse s test consequent alternate =>
    .ifElse s test consequent.asBlock (some ((alternate.map asBlock).getD (.block .dummy [])))
  | classDeclaration s data name before heritage after =>
    .classDeclaration s data name before (heritage.map asParen) after
  | n => n

end Node

namespace Body

/-- The value of an arrow becomes a block that returns it. -/
def roomy : Body → Body
  | value e => .block e.span [.simple .return e.span [.child "argument" e]]
  | b => b

end Body

namespace Rebuilding

/-- Take out the counters of the object with this name, where they stand as statements and where they
stand in front of expressions. -/
def erasing (name : String) : Rebuilding :=
  { node := Node.withoutCounter name
    items := List.filter fun n => !n.isCounter name
    body := id }

/-- Give every construct the shape that has room for counters. -/
def normal : Rebuilding := { node := Node.roomy, items := id, body := Body.roomy }

end Rebuilding

namespace Node

def erase (name : String) (n : Node) : Node := n.rebuild (.erasing name)

def normalize (n : Node) : Node := n.rebuild .normal

@[simp] theorem span_normalize (n : Node) : n.normalize.span = n.span := by
  cases n <;> rfl

@[simp] theorem isBlock_normalize (n : Node) : n.normalize.isBlock = n.isBlock := by
  cases n <;> rfl

@[simp] theorem isParen_normalize (n : Node) : n.normalize.isParen = n.isParen := by
  cases n <;> rfl

theorem asBlock_of_isBlock {n : Node} (h : n.isBlock = true) : n.asBlock = n := by
  cases n with
  | block s statements => rfl
  | _ => cases h

theorem asBlock_of_not_isBlock {n : Node} (h : ¬n.isBlock = true) :
    n.asBlock = .block n.span [n] := by
  cases n with
  | block s statements => exact absurd rfl h
  | _ => rfl

@[simp] theorem asBlock_asBlock (n : Node) : n.asBlock.asBlock = n.asBlock := by
  cases n <;> rfl

theorem root?_normalize (n : Node) : n.normalize.root? = n.root? := by
  induction n using induction_children with
  | step n ih =>
    cases n with
    | plain head parts =>
      cases parts with
      | nil => rfl
      | cons p rest =>
        cases p with
        | child field m =>
          have hm : m ∈ (plain head (.child field m :: rest)).children := by simp [children,Part.nodes]
          have h := ih m hm
          change (if head.form = .identifier then head.text? "value" else m.normalize.root?) = _
          rw [h]
          rfl
        | children field nodes => rfl
    | _ => rfl
end Node

end CoverageCounters
