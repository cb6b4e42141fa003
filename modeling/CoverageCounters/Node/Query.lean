import CoverageCounters.Directives
import CoverageCounters.Number.Shortest
import CoverageCounters.Text.Surrogates
import CoverageCounters.Tree.Basic

/-!
Facts about nodes that decide how they are counted: the key of an expression, the name of a
function, the operands of a short-circuit chain, and the hint that leads an expression.
-/

namespace CoverageCounters

/-- The text of a key that is a name, a string or a number; a computed key has none. -/
def Node.keyText? : Node → Option String
  | .plain head _ =>
    match head.form with
    | .identifier => head.text? "value"
    | .stringLiteral => (head.text? "value").map textOfLiteral
    | .numericLiteral =>
      match Json.lookup "value" head.data with
      | some (.number n) => some (String.ofList n.toBinary.plainText)
      | _ => some "Infinity"
    | _ => none
  | _ => none

/-- The text of a private name, without its mark. -/
def Node.privateName : Node → String
  | .plain head _ => (head.text? "value").getD ""
  | _ => ""

namespace FunctionHead

/-- The place of a function as it is recorded. An object method runs from its key to the end of its
body. -/
def recordedSpan (h : FunctionHead) (key : Option Node) : Span :=
  match h.kind, key with
  | .objectMethod, some k => if k.span.isDummy then h.span else .ofBounds k.span.lo h.span.hi
  | _, _ => h.span

def recordedName? (h : FunctionHead) (key : Option Node) : Option String :=
  match h.kind, key with
  | .constructor, _ => some "constructor"
  | .privateMethod, some k => some ("#" ++ k.privateName)
  | .arrow, _ => none
  | .declaration, some k | .expression, some k => k.identifierName?
  | _, some k => k.keyText?
  | _, none => none

def nameSpan? (h : FunctionHead) (key : Option Node) : Option Span :=
  match h.kind with
  | .arrow => none
  | _ => key.map Node.span

/-- The name by which a function can be left out: those of methods and of named function
expressions. -/
def ignorableName? (h : FunctionHead) (key : Option Node) : Option String :=
  match h.kind, key with
  | .classMethod, some k | .objectMethod, some k => k.keyText?
  | .expression, some k => k.identifierName?
  | _, _ => none

def key (h : FunctionHead) (name : Option Node) : Key := ⟨h.kind.kind,h.recordedSpan name⟩

end FunctionHead

/-- The key of an expression that is counted or can be ignored. -/
def Node.expressionKey? : Node → Option Key
  | .function head key _ _ _ =>
    if head.kind = .arrow ∨ head.kind = .expression then some (head.key key) else none
  | .conditional s _ _ _ => some ⟨.conditional,s⟩
  | .logical s _ _ _ => some ⟨.logical,s⟩
  | .paren s _ => some ⟨.parenthesized,s⟩
  | _ => none

namespace Directives

/-- The hint that leads an expression, where one inside its parentheses comes first. -/
def hintForExpression? (d : Directives) : Node → Option Hint
  | .paren s inner => (d.hintForExpression? inner).or (d.hintFor? s)
  | n => d.hintFor? n.span

def skipsOperand (d : Directives) (n : Node) : Bool := d.hintForExpression? n = some .next

/-- The operands of a short-circuit chain, left to right, reached through logical operators and
parentheses around them. A part of the chain that a hint leaves out has none. -/
def operands (d : Directives) : Node → List Node
  | .logical s _ left right =>
    if d.skips s then [] else d.operands left ++ d.operands right
  | .paren s inner =>
    if inner.isChain then (if d.skips s then [] else d.operands inner) else [.paren s inner]
  | n => [n]

end Directives
end CoverageCounters
