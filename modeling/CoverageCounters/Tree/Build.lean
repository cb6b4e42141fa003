import CoverageCounters.Text.Surrogates
import CoverageCounters.Tree.Basic

/-!
Nodes built and not read, those that count a slot up among them. All of them have the dummy span, by
which a walk knows them and leaves them uncounted.
-/

namespace CoverageCounters

namespace Build

def identifier (name : String) : Node := .leaf .identifier .dummy [("value",.string name)]

def string (text : String) : Node :=
  .leaf .stringLiteral .dummy [("value",.string (literalText text))]

def null : Node := .leaf .nullLiteral .dummy []

def bool (b : Bool) : Node :=
  .leaf .booleanLiteral .dummy (if b then [("value",.bool true)] else [])

/-- Whole numbers of at least this size are written as binary64. -/
def wholeLimit : Nat := 9 * Nat.pow 10 15

/-- The value of a numeric literal: an integer if it is one below the limit. -/
def literalNumber (x : Binary64) : Number :=
  match x.toInt? with
  | some n => if n.natAbs < wholeLimit then .integer n else .binary x
  | none => .binary x

/-- A literal for a number that is not negative. -/
def magnitude (x : Binary64) : Node :=
  .leaf .numericLiteral .dummy [("value",.number (literalNumber x))]

/-- A number; a negative one is the negation of its size. -/
def number (x : Binary64) : Node :=
  if x.isNegative then
    .plain ⟨.unaryExpression,.dummy,[("operator",.string "-")]⟩
      [.child "argument" (magnitude x.neg)]
  else magnitude x

/-- An index into a table. -/
def index (i : Nat) : Node := .leaf .numericLiteral .dummy [("value",.nat i)]

def paren (inner : Node) : Node := .paren .dummy inner

/-- The property of an object under a name. -/
def member (object : Node) (name : String) : Node :=
  .plain ⟨.memberExpression,.dummy,[]⟩
    [.child "object" object,.child "property" (identifier name)]

/-- The property of an object under a computed key. -/
def element (object key : Node) : Node :=
  .plain ⟨.memberExpression,.dummy,[]⟩
    [.child "object" object,
     .child "property" (.plain ⟨.computed,.dummy,[]⟩ [.child "expression" key])]

def assign (target value : Node) : Node :=
  .plain ⟨.assignmentExpression,.dummy,[("operator",.string "=")]⟩
    [.child "left" target,.child "right" value]

def increment (target : Node) : Node :=
  .plain ⟨.updateExpression,.dummy,[("operator",.string "++")]⟩ [.child "argument" target]

def strictlyEqual (left right : Node) : Node :=
  .plain ⟨.binaryExpression,.dummy,[("operator",.string "===")]⟩
    [.child "left" left,.child "right" right]

def argument (value : Node) : Node := .plain ⟨.argument,.dummy,[]⟩ [.child "expression" value]

def call (callee : Node) (arguments : List Node) : Node :=
  .plain ⟨.callExpression,.dummy,[]⟩
    [.child "callee" callee,.children "arguments" (arguments.map argument)]

def construct (callee : Node) (arguments : List Node) : Node :=
  .plain ⟨.newExpression,.dummy,[]⟩
    [.child "callee" callee,.children "arguments" (arguments.map argument)]

def sequence (nodes : List Node) : Node :=
  .plain ⟨.sequenceExpression,.dummy,[]⟩ [.children "expressions" nodes]

/-- An expression evaluated after another one, as `(first, e)`. -/
def after (first e : Node) : Node := paren (sequence [first,e])

def array (items : List Node) : Node :=
  .plain ⟨.arrayExpression,.dummy,[]⟩ [.children "elements" items]

def property (key : String) (value : Node) : Node :=
  .plain ⟨.keyValueProperty,.dummy,[]⟩ [.child "key" (string key),.child "value" value]

def object (properties : List Node) : Node :=
  .plain ⟨.objectExpression,.dummy,[]⟩ [.children "properties" properties]

/-- A function without name and parameters. -/
def function (statements : List Node) : Node :=
  .function ⟨.expression,.dummy,[],none⟩ none
    [.children "params" [],.children "decorators" []] (.block .dummy statements) []

def statement (e : Node) : Node := .expression .dummy e

def returning (e : Node) : Node := .simple .return .dummy [.child "argument" e]

def declarator (name : String) (init : Node) : Declarator :=
  .mk .dummy [] (identifier name) (some init)

def bindings (declarators : List Declarator) : Node :=
  .bindings .dummy [("kind",.string "var")] declarators

mutual

/-- The literal that denotes a JSON value. -/
def data : Json → Node
  | .null => null
  | .bool b => bool b
  | .number n => number n.toBinary
  | .string s => string s
  | .array items => array (dataItems items)
  | .object entries => object (dataEntries entries)

def dataItems : List Json → List Node
  | [] => []
  | j :: rest => argument (data j) :: dataItems rest

def dataEntries : List (String × Json) → List Node
  | [] => []
  | (key,j) :: rest => property key (data j) :: dataEntries rest

end

end Build

/-- A slot of the counter object: a statement, a function, or a path of a branch. -/
inductive Counter where
  | statement (index : Nat)
  | function (index : Nat)
  | branch (index path : Nat)
  deriving DecidableEq, Repr

namespace Counter

/-- The expression that counts a slot up, on the object with the given name. -/
def node (identifier : String) : Counter → Node
  | statement i =>
    Build.increment (Build.element (Build.member (Build.identifier identifier) "s") (Build.index i))
  | function i =>
    Build.increment (Build.element (Build.member (Build.identifier identifier) "f") (Build.index i))
  | branch i path =>
    Build.increment (Build.element
      (Build.element (Build.member (Build.identifier identifier) "b") (Build.index i))
      (Build.index path))

/-- A counter as a statement of its own. -/
def statementNode (identifier : String) (c : Counter) : Node := Build.statement (c.node identifier)

end Counter

end CoverageCounters
