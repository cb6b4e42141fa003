import CoverageCounters.Tree.Basic

/-!
The JSON form of syntax trees. A node is an object with its tag under `type` and its place under
`span`, which a dummy span leaves out; nodes sit under the fields their form names, and all other
fields are data.
-/

namespace CoverageCounters

namespace Span

def toJson (s : Span) : Json := .array [.nat s.lo,.nat s.hi]

def ofJson? : Json → Option Span
  | .array [lo,hi] => do return ofBounds (← lo.asNat? 32) (← hi.asNat? 32)
  | _ => none

end Span

namespace FunctionKind

def tag : FunctionKind → String
  | declaration => "FunctionDeclaration"
  | expression => "FunctionExpression"
  | arrow => "ArrowFunctionExpression"
  | classMethod => "ClassMethod"
  | privateMethod => "PrivateMethod"
  | constructor => "Constructor"
  | objectMethod => "MethodProperty"
  | getter => "GetterProperty"
  | setter => "SetterProperty"

def all : List FunctionKind :=
  [declaration,expression,arrow,classMethod,privateMethod,constructor,objectMethod,getter,
   setter]

/-- The field of the name or key. -/
def keyField : FunctionKind → String
  | declaration | expression | arrow => "identifier"
  | _ => "key"

/-- Whether the function sits in an object of its own inside the member. -/
def isNested : FunctionKind → Bool
  | classMethod | privateMethod => true
  | _ => false

/-- The fields walked before the body. -/
def fieldsBefore : FunctionKind → List String
  | arrow | constructor => ["params"]
  | getter => ["typeAnnotation"]
  | setter => ["thisParam","param"]
  | _ => ["params","decorators"]

/-- The fields walked after the body. -/
def fieldsAfter : FunctionKind → List String
  | constructor | getter | setter => []
  | _ => ["typeParameters","returnType"]

end FunctionKind

namespace DefaultForm

def tag : DefaultForm → String
  | pattern => "AssignmentPattern"
  | property => "AssignmentPatternProperty"

def targetField : DefaultForm → String
  | pattern => "left"
  | property => "key"

def valueField : DefaultForm → String
  | pattern => "right"
  | property => "value"

def all : List DefaultForm := [pattern,property]

end DefaultForm

namespace SimpleForm

def tag (form : SimpleForm) : String := form.kind.name

def fields : SimpleForm → List String
  | .break | .continue => ["label"]
  | .debugger => []
  | .return | .throw => ["argument"]
  | .try => ["block","handler","finalizer"]
  | labeled => ["label","body"]

def all : List SimpleForm :=
  [.break,.continue,.debugger,.return,.throw,.try,labeled]

end SimpleForm

namespace CompoundForm

def tag (form : CompoundForm) : String := form.kind.name

/-- The fields walked between the init clause and the body. -/
def fields : CompoundForm → List String
  | .for => ["test","update"]
  | forIn | forOf => ["left","right"]
  | .while | doWhile => ["test"]
  | .with => ["object"]

def all : List CompoundForm := [.for,forIn,forOf,.while,doWhile,.with]

end CompoundForm

namespace ProgramKind

def tag : ProgramKind → String
  | module => "Module"
  | script => "Script"

end ProgramKind

namespace Wire

def typeEntry (tag : String) : String × Json := ("type",.string tag)

def spanEntry (s : Span) : Attributes := if s = .dummy then [] else [("span",s.toJson)]

mutual

def nodeJson : Node → Json
  | .plain head parts =>
    if head.form = .hole then .null
    else .object ((head.form.tag?.map typeEntry).toList ++ spanEntry head.span ++ head.data
      ++ partEntries parts)
  | .paren s inner =>
    .object (typeEntry "ParenthesisExpression" :: spanEntry s ++ [("expression",nodeJson inner)])
  | .logical s operator left right =>
    .object (typeEntry "BinaryExpression" :: spanEntry s ++ [("operator",.string operator.text),
      ("left",nodeJson left),("right",nodeJson right)])
  | .conditional s test consequent alternate =>
    .object (typeEntry "ConditionalExpression" :: spanEntry s ++ [("test",nodeJson test),
      ("consequent",nodeJson consequent),("alternate",nodeJson alternate)])
  | .function head key before body after =>
    let own := typeEntry head.kind.tag :: spanEntry head.span ++ head.data
      ++ optionEntry head.kind.keyField key
    let content := partEntries before ++ bodyEntry body ++ partEntries after
    match head.inner with
    | none => .object (own ++ content)
    | some (s,data) => .object (own ++ [("function",.object (spanEntry s ++ data ++ content))])
  | .defaulted form s target value =>
    .object (typeEntry form.tag :: spanEntry s ++ (form.targetField,nodeJson target)
      :: optionEntry form.valueField value)
  | .classDeclaration s data name before heritage after =>
    .object (typeEntry "ClassDeclaration" :: spanEntry s ++ data ++ ("identifier",nodeJson name)
      :: partEntries before ++ optionEntry "superClass" heritage ++ partEntries after)
  | .expression s inner =>
    .object (typeEntry "ExpressionStatement" :: spanEntry s ++ [("expression",nodeJson inner)])
  | .simple form s parts => .object (typeEntry form.tag :: spanEntry s ++ partEntries parts)
  | .compound form s data init head body =>
    .object (typeEntry form.tag :: spanEntry s ++ data ++ optionEntry "init" init
      ++ partEntries head ++ [("body",nodeJson body)])
  | .ifElse s test consequent alternate =>
    .object (typeEntry "IfStatement" :: spanEntry s ++ ("test",nodeJson test)
      :: ("consequent",nodeJson consequent) :: optionEntry "alternate" alternate)
  | .switch s discriminant cases =>
    .object (typeEntry "SwitchStatement" :: spanEntry s
      ++ [("discriminant",nodeJson discriminant),("cases",.array (casesJson cases))])
  | .bindings s data declarators =>
    .object (typeEntry "VariableDeclaration" :: spanEntry s ++ data
      ++ [("declarations",.array (declaratorsJson declarators))])
  | .block s statements =>
    .object (typeEntry "BlockStatement" :: spanEntry s
      ++ [("stmts",.array (nodesJson statements))])
  | .exported s declaration =>
    .object (typeEntry "ExportDeclaration" :: spanEntry s
      ++ [("declaration",nodeJson declaration)])
  | .namespaceBlock s items =>
    .object (typeEntry "TsModuleBlock" :: spanEntry s ++ [("body",.array (nodesJson items))])

def nodesJson : List Node → List Json
  | [] => []
  | n :: rest => nodeJson n :: nodesJson rest

def optionEntry (field : String) : Option Node → Attributes
  | none => []
  | some n => [(field,nodeJson n)]

def partEntry : Part → String × Json
  | .child field n => (field,nodeJson n)
  | .children field nodes => (field,.array (nodesJson nodes))

def partEntries : List Part → Attributes
  | [] => []
  | p :: rest => partEntry p :: partEntries rest

def bodyEntry : Body → Attributes
  | .absent => []
  | .block s statements =>
    [("body",.object (typeEntry "BlockStatement" :: spanEntry s
      ++ [("stmts",.array (nodesJson statements))]))]
  | .value e => [("body",nodeJson e)]

def casesJson : List Case → List Json
  | [] => []
  | .mk s test consequent :: rest =>
    .object (typeEntry "SwitchCase" :: spanEntry s ++ optionEntry "test" test
      ++ [("consequent",.array (nodesJson consequent))]) :: casesJson rest

def declaratorsJson : List Declarator → List Json
  | [] => []
  | .mk s data target init :: rest =>
    .object (typeEntry "VariableDeclarator" :: spanEntry s ++ data ++ ("id",nodeJson target)
      :: optionEntry "init" init) :: declaratorsJson rest

end

/-- The place of a node; a missing span is the dummy. -/
def spanOf (j : Json) : Span := ((j.field? "span").bind Span.ofJson?).getD .dummy

def tagOf? (j : Json) : Option String := (j.field? "type").bind Json.asString?

/-- The fields of an object that are none of those named, nor its tag and place. -/
def dataOf (fields : List String) (j : Json) : Attributes :=
  ((j.asObject?).getD []).filter fun entry => !("type" :: "span" :: fields).contains entry.1

section Reading

variable (read : Json → Option Node)

/-- An element of a list; null is a hole. -/
def readItem : Json → Option Node
  | .null => some (.leaf .hole .dummy [])
  | j => read j

def readItems (field : String) (j : Json) : Option (List Node) :=
  (j.field? field).bind fun v => v.asArray?.bind fun items => items.mapM (readItem read)

def readChild (field : String) (j : Json) : Option Node := (j.field? field).bind read

def readOptional (field : String) (j : Json) : Option (Option Node) :=
  match j.present? field with
  | none => some none
  | some v => (read v).map some

/-- The part under a field, if it is present. -/
def readPart (j : Json) (field : String) : Option (Option Part) :=
  match j.present? field with
  | none => some none
  | some (.array items) =>
    (items.mapM (readItem read)).map fun nodes => some (.children field nodes)
  | some v => (read v).map fun n => some (.child field n)

def readParts (fields : List String) (j : Json) : Option (List Part) :=
  (fields.mapM (readPart read j)).map fun parts => parts.filterMap id

def readPlain (form : Form) (j : Json) : Option Node := do
  let parts ← readParts read form.fields j
  return .plain ⟨form,spanOf j,dataOf form.fields j⟩ parts

/-- The target of an assignment: parentheses around it belong to the assignment. -/
def readTarget (j : Json) : Option Node :=
  if tagOf? j = some "ParenthesisExpression" then readPlain read .parenthesizedTarget j else read j

def readAssignment (j : Json) : Option Node := do
  let target ← (j.field? "left").bind (readTarget read)
  let value ← readChild read "right" j
  return .plain ⟨.assignmentExpression,spanOf j,dataOf Form.assignmentExpression.fields j⟩
    [.child "left" target,.child "right" value]

def readBinary (j : Json) : Option Node :=
  match (j.field? "operator").bind Json.asString? |>.bind LogicalOperator.ofText? with
  | some operator => do
    return .logical (spanOf j) operator (← readChild read "left" j) (← readChild read "right" j)
  | none => readPlain read .binaryExpression j

def readBody (j : Json) : Option Body :=
  match j.present? "body" with
  | none => some .absent
  | some v =>
    if tagOf? v = some "BlockStatement" then
      (readItems read "stmts" v).map fun statements => .block (spanOf v) statements
    else (read v).map .value

def readFunction (kind : FunctionKind) (j : Json) : Option Node := do
  let content ← if kind.isNested then j.field? "function" else some j
  let key ← readOptional read kind.keyField j
  let before ← readParts read kind.fieldsBefore content
  let body ← readBody read content
  let after ← readParts read kind.fieldsAfter content
  let inside := kind.fieldsBefore ++ "body" :: kind.fieldsAfter
  let head : FunctionHead :=
    if kind.isNested then
      ⟨kind,spanOf j,dataOf [kind.keyField,"function"] j,
        some (spanOf content,dataOf inside content)⟩
    else ⟨kind,spanOf j,dataOf (kind.keyField :: inside) j,none⟩
  return .function head key before body after

def readDefault (form : DefaultForm) (j : Json) : Option Node := do
  return .defaulted form (spanOf j) (← readChild read form.targetField j)
    (← readOptional read form.valueField j)

def readClass (j : Json) : Option Node := do
  let name ← readChild read "identifier" j
  let before ← readParts read ["decorators","body"] j
  let heritage ← readOptional read "superClass" j
  let after ← readParts read ["typeParams","superTypeParams","implements"] j
  return .classDeclaration (spanOf j) (dataOf ("identifier" :: Form.classExpression.fields) j) name
    before heritage after

def readCompound (form : CompoundForm) (j : Json) : Option Node := do
  let init ← if form = .for then readOptional read "init" j else some none
  let head ← readParts read form.fields j
  let body ← readChild read "body" j
  return .compound form (spanOf j) (dataOf ("init" :: "body" :: form.fields) j) init head body

def readIf (j : Json) : Option Node := do
  return .ifElse (spanOf j) (← readChild read "test" j) (← readChild read "consequent" j)
    (← readOptional read "alternate" j)

def readCase (j : Json) : Option Case := do
  return .mk (spanOf j) (← readOptional read "test" j) (← readItems read "consequent" j)

def readSwitch (j : Json) : Option Node := do
  let discriminant ← readChild read "discriminant" j
  let cases ← (← (j.field? "cases").bind Json.asArray?).mapM (readCase read)
  return .switch (spanOf j) discriminant cases

def readDeclarator (j : Json) : Option Declarator := do
  return .mk (spanOf j) (dataOf ["id","init"] j) (← readChild read "id" j)
    (← readOptional read "init" j)

def readVariables (j : Json) : Option Node := do
  let declarators ← (← (j.field? "declarations").bind Json.asArray?).mapM (readDeclarator read)
  return .bindings (spanOf j) (dataOf ["declarations"] j) declarators

def readConditional (j : Json) : Option Node := do
  return .conditional (spanOf j) (← readChild read "test" j) (← readChild read "consequent" j)
    (← readChild read "alternate" j)

/-- A node whose tag is one of the families of function-like, defaulted, simple and compound nodes,
or a plain form. -/
def readFamily (tag : String) (j : Json) : Option Node :=
  match FunctionKind.all.find? (·.tag = tag) with
  | some kind => readFunction read kind j
  | none => match DefaultForm.all.find? (·.tag = tag) with
    | some form => readDefault read form j
    | none => match SimpleForm.all.find? (·.tag = tag) with
      | some form => (readParts read form.fields j).map fun parts => .simple form (spanOf j) parts
      | none => match CompoundForm.all.find? (·.tag = tag) with
        | some form => readCompound read form j
        | none => (Form.ofTag? tag).bind fun form => readPlain read form j

/-- One node, given how to read the nodes inside it. -/
def readNode (j : Json) : Option Node :=
  match tagOf? j with
  | none => readPlain read .argument j
  | some tag => match tag with
    | "ParenthesisExpression" => (readChild read "expression" j).map fun n => .paren (spanOf j) n
    | "BinaryExpression" => readBinary read j
    | "AssignmentExpression" => readAssignment read j
    | "ConditionalExpression" => readConditional read j
    | "ClassDeclaration" => readClass read j
    | "ExpressionStatement" =>
      (readChild read "expression" j).map fun n => .expression (spanOf j) n
    | "IfStatement" => readIf read j
    | "SwitchStatement" => readSwitch read j
    | "VariableDeclaration" => readVariables read j
    | "BlockStatement" => (readItems read "stmts" j).map fun ns => .block (spanOf j) ns
    | "ExportDeclaration" =>
      (readChild read "declaration" j).map fun n => .exported (spanOf j) n
    | "TsModuleBlock" => (readItems read "body" j).map fun ns => .namespaceBlock (spanOf j) ns
    | _ => readFamily read tag j

end Reading

/-- Read a node that nests at most `depth` deep. -/
def readDeep : Nat → Json → Option Node
  | 0, _ => none
  | depth + 1, j => readNode (readDeep depth) j

end Wire

namespace Json

mutual

/-- How deep arrays and objects nest in a value. -/
def depth : Json → Nat
  | .array items => depthItems items + 1
  | .object entries => depthEntries entries + 1
  | _ => 0

def depthItems : List Json → Nat
  | [] => 0
  | j :: rest => max (depth j) (depthItems rest)

def depthEntries : List (String × Json) → Nat
  | [] => 0
  | (_,j) :: rest => max (depth j) (depthEntries rest)

end

end Json

namespace Node

def toJson (n : Node) : Json := Wire.nodeJson n

def ofJson? (j : Json) : Option Node := Wire.readDeep (j.depth + 1) j

end Node

namespace Program

def toJson (p : Program) : Json :=
  .object (Wire.typeEntry p.kind.tag :: Wire.spanEntry p.span ++ p.data
    ++ [("body",.array (p.body.map Node.toJson))])

def ofJson? (j : Json) : Option Program := do
  let kind ← match ← Wire.tagOf? j with
    | "Module" => some ProgramKind.module
    | "Script" => some ProgramKind.script
    | _ => none
  let body ← Wire.readItems Node.ofJson? "body" j
  return { kind, span := Wire.spanOf j, data := Wire.dataOf ["body"] j, body }

end Program
end CoverageCounters
