import CoverageCounters.Json.Basic
import CoverageCounters.Node.Kind
import CoverageCounters.Tree.Form

/-!
Syntax trees of programs, cut by what a construct means for coverage. Constructs that are counted,
ignored by name, or reshaped to make room for a counter have constructors of their own; all others
are `plain` and only pass on the walk to their parts.
-/

namespace CoverageCounters

/-- Fields of a node that hold no nodes. -/
abbrev Attributes := List (String × Json)

/-- The form, place and data of a plain node. -/
structure Head where
  form : Form
  span : Span
  data : Attributes

/-- The operators that evaluate their right side only if they must. -/
inductive LogicalOperator where
  | and
  | or
  | coalesce
  deriving DecidableEq, Repr

inductive FunctionKind where
  | declaration
  | expression
  | arrow
  | classMethod
  | privateMethod
  | constructor
  | objectMethod
  | getter
  | setter
  deriving DecidableEq, Repr

/-- What a function-like node holds beside its key, parts and body. A class method has a function
inside it with a place and data of its own. -/
structure FunctionHead where
  kind : FunctionKind
  span : Span
  data : Attributes
  inner : Option (Span × Attributes)

/-- A default value stands behind a pattern or behind a name in an object pattern. -/
inductive DefaultForm where
  | pattern
  | property
  deriving DecidableEq, Repr

/-- Statements that are counted and otherwise only walked. -/
inductive SimpleForm where
  | break
  | continue
  | debugger
  | return
  | throw
  | try
  | labeled
  deriving DecidableEq, Repr

/-- Statements with one body, which becomes a block when they are counted. -/
inductive CompoundForm where
  | for
  | forIn
  | forOf
  | while
  | doWhile
  | with
  deriving DecidableEq, Repr

mutual

inductive Node where
  /-- A node whose parts are walked and nothing else. -/
  | plain (head : Head) (parts : List Part)
  | paren (span : Span) (inner : Node)
  | logical (span : Span) (operator : LogicalOperator) (left right : Node)
  | conditional (span : Span) (test consequent alternate : Node)
  /-- A function-like node. Its key is walked first, then the parts before the body, the body, and
  the parts after it. -/
  | function (head : FunctionHead) (key : Option Node) (before : List Part) (body : Body)
      (after : List Part)
  /-- A pattern with a default value. -/
  | defaulted (form : DefaultForm) (span : Span) (target : Node) (value : Option Node)
  | classDeclaration (span : Span) (data : Attributes) (name : Node) (before : List Part)
      (heritage : Option Node) (after : List Part)
  /-- An expression that stands as a statement. -/
  | expression (span : Span) (inner : Node)
  | simple (form : SimpleForm) (span : Span) (parts : List Part)
  | compound (form : CompoundForm) (span : Span) (data : Attributes) (init : Option Node)
      (head : List Part) (body : Node)
  | ifElse (span : Span) (test consequent : Node) (alternate : Option Node)
  | switch (span : Span) (discriminant : Node) (cases : List Case)
  | bindings (span : Span) (data : Attributes) (declarators : List Declarator)
  | block (span : Span) (statements : List Node)
  /-- A declaration exported by name. -/
  | exported (span : Span) (declaration : Node)
  /-- The items of a namespace. -/
  | namespaceBlock (span : Span) (items : List Node)

/-- The part of a node under a field: one node or a list of nodes. -/
inductive Part where
  | child (field : String) (node : Node)
  | children (field : String) (nodes : List Node)

/-- The body of a function: none for a signature, a block, or the value of an arrow. -/
inductive Body where
  | absent
  | block (span : Span) (statements : List Node)
  | value (expression : Node)

/-- A case of a switch; the default has no test. -/
inductive Case where
  | mk (span : Span) (test : Option Node) (consequent : List Node)

inductive Declarator where
  | mk (span : Span) (data : Attributes) (target : Node) (init : Option Node)

end

instance : Inhabited Node := ⟨.plain ⟨.hole,.dummy,[]⟩ []⟩

inductive ProgramKind where
  | module
  | script
  deriving DecidableEq, Repr

structure Program where
  kind : ProgramKind
  span : Span
  data : Attributes
  body : List Node

namespace LogicalOperator

def text : LogicalOperator → String
  | and => "&&"
  | or => "||"
  | coalesce => "??"

def all : List LogicalOperator := [and,or,coalesce]

def ofText? (text : String) : Option LogicalOperator := all.find? (·.text = text)

end LogicalOperator

namespace FunctionKind

def kind : FunctionKind → Kind
  | declaration => .functionDeclaration
  | expression => .functionExpression
  | arrow => .arrowFunction
  | classMethod => .classMethod
  | privateMethod => .classPrivateMethod
  | constructor => .constructor
  | objectMethod => .objectMethod
  | getter => .getter
  | setter => .setter

end FunctionKind

namespace DefaultForm

def kind : DefaultForm → Kind
  | pattern => .assignmentPattern
  | property => .assignmentProperty

end DefaultForm

namespace SimpleForm

def kind : SimpleForm → Kind
  | .break => .break
  | .continue => .continue
  | .debugger => .debugger
  | .return => .return
  | .throw => .throw
  | .try => .try
  | labeled => .labeled

end SimpleForm

namespace CompoundForm

def kind : CompoundForm → Kind
  | .for => .for
  | forIn => .forIn
  | forOf => .forOf
  | .while => .while
  | doWhile => .doWhile
  | .with => .with

end CompoundForm

namespace Head

def text? (h : Head) (key : String) : Option String := (Json.lookup key h.data).bind Json.asString?

end Head

namespace Node

def span : Node → Span
  | plain head _ => head.span
  | paren s _ => s
  | logical s _ _ _ => s
  | conditional s _ _ _ => s
  | function head _ _ _ _ => head.span
  | defaulted _ s _ _ => s
  | classDeclaration s _ _ _ _ _ => s
  | expression s _ => s
  | simple _ s _ => s
  | compound _ s _ _ _ _ => s
  | ifElse s _ _ _ => s
  | switch s _ _ => s
  | bindings s _ _ => s
  | block s _ => s
  | exported s _ => s
  | namespaceBlock s _ => s

def leaf (form : Form) (span : Span) (data : Attributes) : Node := .plain ⟨form,span,data⟩ []

def identifierName? : Node → Option String
  | plain head _ => if head.form = .identifier then head.text? "value" else none
  | _ => none

def isString : Node → Bool
  | plain head _ => head.form = .stringLiteral
  | _ => false

/-- A string literal that stands as a statement; at the head of a body it is a directive. -/
def isDirective : Node → Bool
  | expression _ inner => inner.isString
  | _ => false

/-- Short-circuit chains: logical expressions, through parentheses. -/
def isChain : Node → Bool
  | logical _ _ _ _ => true
  | paren _ inner => inner.isChain
  | _ => false

/-- Functions, arrows and classes, through parentheses: an initializer of this kind lends its
variable's name to the value, so no counter may come between them. -/
def takesName : Node → Bool
  | function head _ _ _ _ => head.kind = .expression || head.kind = .arrow
  | plain head _ => head.form = .classExpression
  | paren _ inner => inner.takesName
  | _ => false

/-- Whether a list item declares variables, bare or exported. -/
def declaresVariables : Node → Bool
  | bindings _ _ _ => true
  | exported _ (bindings _ _ _) => true
  | _ => false

end Node

/-- The number of directives at the head of a body. -/
def prologueLength (statements : List Node) : Nat := (statements.takeWhile Node.isDirective).length

@[simp] theorem prologueLength_nil : prologueLength [] = 0 := rfl

end CoverageCounters
