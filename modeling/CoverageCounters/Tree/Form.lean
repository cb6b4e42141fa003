/-!
The forms of syntax that carry no counter of their own. A form fixes the tag under which a node is
written and the fields that hold nodes, in the order in which they are walked; every other field is
plain data.
-/

namespace CoverageCounters

inductive Form where
  | argument
  | arrayExpression
  | arrayPattern
  | assignmentExpression
  | assignmentProperty
  | autoAccessor
  | awaitExpression
  | bigIntLiteral
  | binaryExpression
  | booleanLiteral
  | callExpression
  | catchClause
  | classExpression
  | classProperty
  | computed
  | decorator
  | emptyStatement
  | exportAllDeclaration
  | exportDefaultDeclaration
  | exportDefaultExpression
  | exportDefaultSpecifier
  | exportNamedDeclaration
  | exportNamespaceSpecifier
  | exportSpecifier
  | hole
  | identifier
  | importDeclaration
  | importDefaultSpecifier
  | importKeyword
  | importNamespaceSpecifier
  | importSpecifier
  | invalid
  | jsxAttribute
  | jsxClosingElement
  | jsxClosingFragment
  | jsxElement
  | jsxEmptyExpression
  | jsxExpressionContainer
  | jsxFragment
  | jsxMemberExpression
  | jsxNamespacedName
  | jsxOpeningElement
  | jsxOpeningFragment
  | jsxSpreadChild
  | jsxText
  | keyValuePatternProperty
  | keyValueProperty
  | memberExpression
  | metaProperty
  | newExpression
  | nullLiteral
  | numericLiteral
  | objectExpression
  | objectPattern
  | optionalChainingExpression
  | parameter
  | parenthesizedTarget
  | privateName
  | privateProperty
  | regExpLiteral
  | restElement
  | sequenceExpression
  | spreadElement
  | staticBlock
  | stringLiteral
  | superKeyword
  | superPropExpression
  | taggedTemplateExpression
  | templateElement
  | templateLiteral
  | thisExpression
  | tsArrayType
  | tsAsExpression
  | tsCallSignatureDeclaration
  | tsConditionalType
  | tsConstAssertion
  | tsConstructorType
  | tsConstructSignatureDeclaration
  | tsEnumDeclaration
  | tsEnumMember
  | tsExportAssignment
  | tsExpressionWithTypeArguments
  | tsExternalModuleReference
  | tsFunctionType
  | tsGetterSignature
  | tsImportCallOptions
  | tsImportEqualsDeclaration
  | tsImportType
  | tsIndexedAccessType
  | tsIndexSignature
  | tsInferType
  | tsInstantiation
  | tsInterfaceBody
  | tsInterfaceDeclaration
  | tsIntersectionType
  | tsKeywordType
  | tsLiteralType
  | tsMappedType
  | tsMethodSignature
  | tsModuleDeclaration
  | tsNamespaceDeclaration
  | tsNamespaceExportDeclaration
  | tsNonNullExpression
  | tsOptionalType
  | tsParameterProperty
  | tsParenthesizedType
  | tsPropertySignature
  | tsQualifiedName
  | tsRestType
  | tsSatisfiesExpression
  | tsSetterSignature
  | tsThisType
  | tsTupleElement
  | tsTupleType
  | tsTypeAliasDeclaration
  | tsTypeAnnotation
  | tsTypeAssertion
  | tsTypeLiteral
  | tsTypeOperator
  | tsTypeParameter
  | tsTypeParameterDeclaration
  | tsTypeParameterInstantiation
  | tsTypePredicate
  | tsTypeQuery
  | tsTypeReference
  | tsUnionType
  | unaryExpression
  | updateExpression
  | usingDeclaration
  | usingDeclarator
  | yieldExpression
  deriving DecidableEq, Repr

namespace Form

/-- The tag of a form; a call argument and a hole in an array have none. -/
def tag? : Form → Option String
  | argument => none
  | arrayExpression => some "ArrayExpression"
  | arrayPattern => some "ArrayPattern"
  | assignmentExpression => some "AssignmentExpression"
  | assignmentProperty => some "AssignmentProperty"
  | autoAccessor => some "AutoAccessor"
  | awaitExpression => some "AwaitExpression"
  | bigIntLiteral => some "BigIntLiteral"
  | binaryExpression => some "BinaryExpression"
  | booleanLiteral => some "BooleanLiteral"
  | callExpression => some "CallExpression"
  | catchClause => some "CatchClause"
  | classExpression => some "ClassExpression"
  | classProperty => some "ClassProperty"
  | computed => some "Computed"
  | decorator => some "Decorator"
  | emptyStatement => some "EmptyStatement"
  | exportAllDeclaration => some "ExportAllDeclaration"
  | exportDefaultDeclaration => some "ExportDefaultDeclaration"
  | exportDefaultExpression => some "ExportDefaultExpression"
  | exportDefaultSpecifier => some "ExportDefaultSpecifier"
  | exportNamedDeclaration => some "ExportNamedDeclaration"
  | exportNamespaceSpecifier => some "ExportNamespaceSpecifier"
  | exportSpecifier => some "ExportSpecifier"
  | hole => none
  | identifier => some "Identifier"
  | importDeclaration => some "ImportDeclaration"
  | importDefaultSpecifier => some "ImportDefaultSpecifier"
  | importKeyword => some "Import"
  | importNamespaceSpecifier => some "ImportNamespaceSpecifier"
  | importSpecifier => some "ImportSpecifier"
  | invalid => some "Invalid"
  | jsxAttribute => some "JSXAttribute"
  | jsxClosingElement => some "JSXClosingElement"
  | jsxClosingFragment => some "JSXClosingFragment"
  | jsxElement => some "JSXElement"
  | jsxEmptyExpression => some "JSXEmptyExpression"
  | jsxExpressionContainer => some "JSXExpressionContainer"
  | jsxFragment => some "JSXFragment"
  | jsxMemberExpression => some "JSXMemberExpression"
  | jsxNamespacedName => some "JSXNamespacedName"
  | jsxOpeningElement => some "JSXOpeningElement"
  | jsxOpeningFragment => some "JSXOpeningFragment"
  | jsxSpreadChild => some "JSXSpreadChild"
  | jsxText => some "JSXText"
  | keyValuePatternProperty => some "KeyValuePatternProperty"
  | keyValueProperty => some "KeyValueProperty"
  | memberExpression => some "MemberExpression"
  | metaProperty => some "MetaProperty"
  | newExpression => some "NewExpression"
  | nullLiteral => some "NullLiteral"
  | numericLiteral => some "NumericLiteral"
  | objectExpression => some "ObjectExpression"
  | objectPattern => some "ObjectPattern"
  | optionalChainingExpression => some "OptionalChainingExpression"
  | parameter => some "Parameter"
  | parenthesizedTarget => some "ParenthesisExpression"
  | privateName => some "PrivateName"
  | privateProperty => some "PrivateProperty"
  | regExpLiteral => some "RegExpLiteral"
  | restElement => some "RestElement"
  | sequenceExpression => some "SequenceExpression"
  | spreadElement => some "SpreadElement"
  | staticBlock => some "StaticBlock"
  | stringLiteral => some "StringLiteral"
  | superKeyword => some "Super"
  | superPropExpression => some "SuperPropExpression"
  | taggedTemplateExpression => some "TaggedTemplateExpression"
  | templateElement => some "TemplateElement"
  | templateLiteral => some "TemplateLiteral"
  | thisExpression => some "ThisExpression"
  | tsArrayType => some "TsArrayType"
  | tsAsExpression => some "TsAsExpression"
  | tsCallSignatureDeclaration => some "TsCallSignatureDeclaration"
  | tsConditionalType => some "TsConditionalType"
  | tsConstAssertion => some "TsConstAssertion"
  | tsConstructorType => some "TsConstructorType"
  | tsConstructSignatureDeclaration => some "TsConstructSignatureDeclaration"
  | tsEnumDeclaration => some "TsEnumDeclaration"
  | tsEnumMember => some "TsEnumMember"
  | tsExportAssignment => some "TsExportAssignment"
  | tsExpressionWithTypeArguments => some "TsExpressionWithTypeArguments"
  | tsExternalModuleReference => some "TsExternalModuleReference"
  | tsFunctionType => some "TsFunctionType"
  | tsGetterSignature => some "TsGetterSignature"
  | tsImportCallOptions => some "TsImportCallOptions"
  | tsImportEqualsDeclaration => some "TsImportEqualsDeclaration"
  | tsImportType => some "TsImportType"
  | tsIndexedAccessType => some "TsIndexedAccessType"
  | tsIndexSignature => some "TsIndexSignature"
  | tsInferType => some "TsInferType"
  | tsInstantiation => some "TsInstantiation"
  | tsInterfaceBody => some "TsInterfaceBody"
  | tsInterfaceDeclaration => some "TsInterfaceDeclaration"
  | tsIntersectionType => some "TsIntersectionType"
  | tsKeywordType => some "TsKeywordType"
  | tsLiteralType => some "TsLiteralType"
  | tsMappedType => some "TsMappedType"
  | tsMethodSignature => some "TsMethodSignature"
  | tsModuleDeclaration => some "TsModuleDeclaration"
  | tsNamespaceDeclaration => some "TsNamespaceDeclaration"
  | tsNamespaceExportDeclaration => some "TsNamespaceExportDeclaration"
  | tsNonNullExpression => some "TsNonNullExpression"
  | tsOptionalType => some "TsOptionalType"
  | tsParameterProperty => some "TsParameterProperty"
  | tsParenthesizedType => some "TsParenthesizedType"
  | tsPropertySignature => some "TsPropertySignature"
  | tsQualifiedName => some "TsQualifiedName"
  | tsRestType => some "TsRestType"
  | tsSatisfiesExpression => some "TsSatisfiesExpression"
  | tsSetterSignature => some "TsSetterSignature"
  | tsThisType => some "TsThisType"
  | tsTupleElement => some "TsTupleElement"
  | tsTupleType => some "TsTupleType"
  | tsTypeAliasDeclaration => some "TsTypeAliasDeclaration"
  | tsTypeAnnotation => some "TsTypeAnnotation"
  | tsTypeAssertion => some "TsTypeAssertion"
  | tsTypeLiteral => some "TsTypeLiteral"
  | tsTypeOperator => some "TsTypeOperator"
  | tsTypeParameter => some "TsTypeParameter"
  | tsTypeParameterDeclaration => some "TsTypeParameterDeclaration"
  | tsTypeParameterInstantiation => some "TsTypeParameterInstantiation"
  | tsTypePredicate => some "TsTypePredicate"
  | tsTypeQuery => some "TsTypeQuery"
  | tsTypeReference => some "TsTypeReference"
  | tsUnionType => some "TsUnionType"
  | unaryExpression => some "UnaryExpression"
  | updateExpression => some "UpdateExpression"
  | usingDeclaration => some "UsingDeclaration"
  | usingDeclarator => some "VariableDeclarator"
  | yieldExpression => some "YieldExpression"

/-- The fields that hold nodes, in the order in which they are walked. -/
def fields : Form → List String
  | argument => ["expression"]
  | arrayExpression => ["elements"]
  | arrayPattern => ["elements","typeAnnotation"]
  | assignmentExpression => ["left","right"]
  | assignmentProperty => ["key","value"]
  | autoAccessor => ["key","value","typeAnnotation","decorators"]
  | awaitExpression => ["argument"]
  | binaryExpression => ["left","right"]
  | callExpression => ["callee","arguments","typeArguments"]
  | catchClause => ["param","body"]
  | classExpression =>
    ["identifier","decorators","body","superClass","typeParams","superTypeParams",
     "implements"]
  | classProperty => ["key","value","typeAnnotation","decorators"]
  | computed => ["expression"]
  | decorator => ["expression"]
  | exportAllDeclaration => ["source","with"]
  | exportDefaultDeclaration => ["decl"]
  | exportDefaultExpression => ["expression"]
  | exportDefaultSpecifier => ["exported"]
  | exportNamedDeclaration => ["specifiers","source","with"]
  | exportNamespaceSpecifier => ["name"]
  | exportSpecifier => ["orig","exported"]
  | identifier => ["typeAnnotation"]
  | importDeclaration => ["specifiers","source","with"]
  | importDefaultSpecifier => ["local"]
  | importNamespaceSpecifier => ["local"]
  | importSpecifier => ["local","imported"]
  | jsxAttribute => ["name","value"]
  | jsxClosingElement => ["name"]
  | jsxElement => ["opening","children","closing"]
  | jsxExpressionContainer => ["expression"]
  | jsxFragment => ["opening","children","closing"]
  | jsxMemberExpression => ["object","property"]
  | jsxNamespacedName => ["namespace","name"]
  | jsxOpeningElement => ["name","attributes","typeArguments"]
  | jsxSpreadChild => ["expression"]
  | keyValuePatternProperty => ["key","value"]
  | keyValueProperty => ["key","value"]
  | memberExpression => ["object","property"]
  | newExpression => ["callee","arguments","typeArguments"]
  | objectExpression => ["properties"]
  | objectPattern => ["properties","typeAnnotation"]
  | optionalChainingExpression => ["base"]
  | parameter => ["decorators","pat"]
  | parenthesizedTarget => ["expression"]
  | privateProperty => ["key","value","typeAnnotation","decorators"]
  | restElement => ["argument","typeAnnotation"]
  | sequenceExpression => ["expressions"]
  | spreadElement => ["arguments"]
  | staticBlock => ["body"]
  | superPropExpression => ["obj","property"]
  | taggedTemplateExpression => ["tag","typeParameters","template"]
  | templateLiteral => ["expressions","types","quasis"]
  | tsArrayType => ["elemType"]
  | tsAsExpression => ["expression","typeAnnotation"]
  | tsCallSignatureDeclaration => ["params","typeAnnotation","typeParams"]
  | tsConditionalType => ["checkType","extendsType","trueType","falseType"]
  | tsConstAssertion => ["expression"]
  | tsConstructorType => ["params","typeParams","typeAnnotation"]
  | tsConstructSignatureDeclaration => ["params","typeAnnotation","typeParams"]
  | tsEnumDeclaration => ["id","members"]
  | tsEnumMember => ["id","init"]
  | tsExportAssignment => ["expression"]
  | tsExpressionWithTypeArguments => ["expression","typeArguments"]
  | tsExternalModuleReference => ["expression"]
  | tsFunctionType => ["params","typeParams","typeAnnotation"]
  | tsGetterSignature => ["key","typeAnnotation"]
  | tsImportCallOptions => ["with"]
  | tsImportEqualsDeclaration => ["id","moduleRef"]
  | tsImportType => ["argument","qualifier","typeArguments","attributes"]
  | tsIndexedAccessType => ["objectType","indexType"]
  | tsIndexSignature => ["params","typeAnnotation"]
  | tsInferType => ["typeParam"]
  | tsInstantiation => ["expression","typeArguments"]
  | tsInterfaceBody => ["body"]
  | tsInterfaceDeclaration => ["id","typeParams","extends","body"]
  | tsIntersectionType => ["types"]
  | tsLiteralType => ["literal"]
  | tsMappedType => ["typeParam","nameType","typeAnnotation"]
  | tsMethodSignature => ["key","params","typeAnn","typeParams"]
  | tsModuleDeclaration => ["id","body"]
  | tsNamespaceDeclaration => ["id","body"]
  | tsNamespaceExportDeclaration => ["id"]
  | tsNonNullExpression => ["expression"]
  | tsOptionalType => ["typeAnnotation"]
  | tsParameterProperty => ["decorators","param"]
  | tsParenthesizedType => ["typeAnnotation"]
  | tsPropertySignature => ["key","typeAnnotation"]
  | tsQualifiedName => ["left","right"]
  | tsRestType => ["typeAnnotation"]
  | tsSatisfiesExpression => ["expression","typeAnnotation"]
  | tsSetterSignature => ["key","param"]
  | tsTupleElement => ["label","ty"]
  | tsTupleType => ["elemTypes"]
  | tsTypeAliasDeclaration => ["id","typeParams","typeAnnotation"]
  | tsTypeAnnotation => ["typeAnnotation"]
  | tsTypeAssertion => ["expression","typeAnnotation"]
  | tsTypeLiteral => ["members"]
  | tsTypeOperator => ["typeAnnotation"]
  | tsTypeParameter => ["name","constraint","default"]
  | tsTypeParameterDeclaration => ["parameters"]
  | tsTypeParameterInstantiation => ["params"]
  | tsTypePredicate => ["paramName","typeAnnotation"]
  | tsTypeQuery => ["exprName","typeArguments"]
  | tsTypeReference => ["typeName","typeParams"]
  | tsUnionType => ["types"]
  | unaryExpression => ["argument"]
  | updateExpression => ["argument"]
  | usingDeclaration => ["decls"]
  | usingDeclarator => ["id","init"]
  | yieldExpression => ["argument"]
  | _ => []

/-- Every form that a tag stands for wherever the tag is met. -/
def tagged : List Form :=
  [arrayExpression,arrayPattern,assignmentExpression,assignmentProperty,autoAccessor,
   awaitExpression,bigIntLiteral,binaryExpression,booleanLiteral,callExpression,catchClause,
   classExpression,classProperty,computed,decorator,emptyStatement,exportAllDeclaration,
   exportDefaultDeclaration,exportDefaultExpression,exportDefaultSpecifier,
   exportNamedDeclaration,exportNamespaceSpecifier,exportSpecifier,identifier,
   importDeclaration,importDefaultSpecifier,importKeyword,importNamespaceSpecifier,
   importSpecifier,invalid,jsxAttribute,jsxClosingElement,jsxClosingFragment,jsxElement,
   jsxEmptyExpression,jsxExpressionContainer,jsxFragment,jsxMemberExpression,
   jsxNamespacedName,jsxOpeningElement,jsxOpeningFragment,jsxSpreadChild,jsxText,
   keyValuePatternProperty,keyValueProperty,memberExpression,metaProperty,newExpression,
   nullLiteral,numericLiteral,objectExpression,objectPattern,optionalChainingExpression,
   parameter,privateName,privateProperty,regExpLiteral,restElement,sequenceExpression,
   spreadElement,staticBlock,stringLiteral,superKeyword,superPropExpression,
   taggedTemplateExpression,templateElement,templateLiteral,thisExpression,tsArrayType,
   tsAsExpression,tsCallSignatureDeclaration,tsConditionalType,tsConstAssertion,
   tsConstructorType,tsConstructSignatureDeclaration,tsEnumDeclaration,tsEnumMember,
   tsExportAssignment,tsExpressionWithTypeArguments,tsExternalModuleReference,tsFunctionType,
   tsGetterSignature,tsImportCallOptions,tsImportEqualsDeclaration,tsImportType,
   tsIndexedAccessType,tsIndexSignature,tsInferType,tsInstantiation,tsInterfaceBody,
   tsInterfaceDeclaration,tsIntersectionType,tsKeywordType,tsLiteralType,tsMappedType,
   tsMethodSignature,tsModuleDeclaration,tsNamespaceDeclaration,tsNamespaceExportDeclaration,
   tsNonNullExpression,tsOptionalType,tsParameterProperty,tsParenthesizedType,
   tsPropertySignature,tsQualifiedName,tsRestType,tsSatisfiesExpression,tsSetterSignature,
   tsThisType,tsTupleElement,tsTupleType,tsTypeAliasDeclaration,
   tsTypeAnnotation,tsTypeAssertion,tsTypeLiteral,tsTypeOperator,tsTypeParameter,tsTypeParameterDeclaration,
   tsTypeParameterInstantiation,tsTypePredicate,tsTypeQuery,tsTypeReference,tsUnionType,
   unaryExpression,updateExpression,usingDeclaration,usingDeclarator,yieldExpression]

def ofTag? (tag : String) : Option Form := tagged.find? (·.tag? = some tag)

end Form
end CoverageCounters
