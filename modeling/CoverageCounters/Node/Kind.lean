import CoverageCounters.Source.Span

/-!
The kinds of constructs that are counted or can be ignored, and the key that tells one construct
from another during a pass: its kind and its span.
-/

namespace CoverageCounters

inductive Kind where
  | arrowFunction
  | assignmentPattern
  | assignmentProperty
  | block
  | classMethod
  | classPrivateMethod
  | constructor
  | objectMethod
  | getter
  | setter
  | classDeclaration
  | expressionStatement
  | break
  | continue
  | debugger
  | return
  | throw
  | try
  | variableDeclaration
  | variableDeclarator
  | if
  | for
  | forIn
  | forOf
  | while
  | doWhile
  | switch
  | switchCase
  | with
  | functionDeclaration
  | functionExpression
  | labeled
  | conditional
  | logical
  | parenthesized
  deriving DecidableEq, Repr

namespace Kind

def name : Kind → String
  | arrowFunction => "ArrowFunctionExpression"
  | assignmentPattern => "AssignmentPattern"
  | assignmentProperty => "AssignmentProperty"
  | block => "BlockStatement"
  | classMethod => "ClassMethod"
  | classPrivateMethod => "ClassPrivateMethod"
  | constructor => "ClassConstructor"
  | objectMethod => "ObjectMethod"
  | getter => "Getter"
  | setter => "Setter"
  | classDeclaration => "ClassDeclaration"
  | expressionStatement => "ExpressionStatement"
  | .break => "BreakStatement"
  | .continue => "ContinueStatement"
  | .debugger => "DebuggerStatement"
  | .return => "ReturnStatement"
  | .throw => "ThrowStatement"
  | .try => "TryStatement"
  | variableDeclaration => "VariableDeclaration"
  | variableDeclarator => "VariableDeclarator"
  | .if => "IfStatement"
  | .for => "ForStatement"
  | forIn => "ForInStatement"
  | forOf => "ForOfStatement"
  | .while => "WhileStatement"
  | doWhile => "DoWhileStatement"
  | switch => "SwitchStatement"
  | switchCase => "SwitchCase"
  | .with => "WithStatement"
  | functionDeclaration => "FunctionDeclaration"
  | functionExpression => "FunctionExpression"
  | labeled => "LabeledStatement"
  | conditional => "ConditionalExpression"
  | logical => "LogicalExpression"
  | parenthesized => "ParenthesizedExpression"

end Kind

/-- The identity of a construct during one pass. -/
structure Key where
  kind : Kind
  span : Span
  deriving DecidableEq, Repr

namespace Key

/-- A construct without a place in the text has no identity of its own. -/
def isSynthetic (k : Key) : Bool := k.span.isDummy

end Key
end CoverageCounters
