import FlowErasure.Syntax.Field

/-!
# Node kinds

The closed set of node kinds. The schema of a kind lists its fields in source order; that is also
the order in which they are visited.
-/

namespace FlowErasure

/-- Kind of a syntax node. -/
inductive NodeKind where
  | program | expressionStatement | blockStatement | emptyStatement | debuggerStatement
  | withStatement | returnStatement | labeledStatement | breakStatement | continueStatement
  | ifStatement | switchStatement | switchCase | throwStatement | tryStatement | catchClause
  | whileStatement | doWhileStatement | forStatement | forInStatement | forOfStatement
  | functionDeclaration | variableDeclaration | variableDeclarator | classDeclaration
  | thisExpression | super | arrayExpression | objectExpression | property | functionExpression
  | arrowFunctionExpression | classExpression | classBody | methodDefinition | classProperty
  | classImplements | templateLiteral | templateElement | taggedTemplateExpression
  | sequenceExpression | unaryExpression | binaryExpression | logicalExpression
  | assignmentExpression | updateExpression | conditionalExpression | callExpression
  | newExpression | memberExpression | spreadElement | yieldExpression | awaitExpression
  | identifier | literal | objectPattern | arrayPattern | assignmentPattern | restElement
  | importDeclaration | importSpecifier | importDefaultSpecifier | importNamespaceSpecifier
  | exportNamedDeclaration | exportSpecifier | exportDefaultDeclaration | exportAllDeclaration
  | ascription | optionalMarker | typeParameterDeclaration | typeParameter
  | typeParameterInstantiation | anyType | mixedType | voidType | numberType | stringType
  | booleanType | nullLiteralType | stringLiteralType | numberLiteralType | booleanLiteralType
  | nullableType | arrayType | tupleType | unionType | intersectionType | typeofType | existsType
  | genericType | qualifiedTypeIdentifier | functionType | functionTypeParam | objectType
  | objectTypeProperty | objectTypeIndexer | objectTypeCallProperty | interfaceDeclaration
  | interfaceExtends | typeAlias | declareVariable | declareFunction | declareClass
  | declareModule
  deriving DecidableEq, Repr, Inhabited

namespace NodeKind

/-- Every kind, in declaration order. -/
def all : List NodeKind :=
  [.program, .expressionStatement, .blockStatement, .emptyStatement, .debuggerStatement,
   .withStatement, .returnStatement, .labeledStatement, .breakStatement, .continueStatement,
   .ifStatement, .switchStatement, .switchCase, .throwStatement, .tryStatement, .catchClause,
   .whileStatement, .doWhileStatement, .forStatement, .forInStatement, .forOfStatement,
   .functionDeclaration, .variableDeclaration, .variableDeclarator, .classDeclaration,
   .thisExpression, .super, .arrayExpression, .objectExpression, .property, .functionExpression,
   .arrowFunctionExpression, .classExpression, .classBody, .methodDefinition, .classProperty,
   .classImplements, .templateLiteral, .templateElement, .taggedTemplateExpression,
   .sequenceExpression, .unaryExpression, .binaryExpression, .logicalExpression,
   .assignmentExpression, .updateExpression, .conditionalExpression, .callExpression,
   .newExpression, .memberExpression, .spreadElement, .yieldExpression, .awaitExpression,
   .identifier, .literal, .objectPattern, .arrayPattern, .assignmentPattern, .restElement,
   .importDeclaration, .importSpecifier, .importDefaultSpecifier, .importNamespaceSpecifier,
   .exportNamedDeclaration, .exportSpecifier, .exportDefaultDeclaration, .exportAllDeclaration,
   .ascription, .optionalMarker, .typeParameterDeclaration, .typeParameter,
   .typeParameterInstantiation, .anyType, .mixedType, .voidType, .numberType, .stringType,
   .booleanType, .nullLiteralType, .stringLiteralType, .numberLiteralType, .booleanLiteralType,
   .nullableType, .arrayType, .tupleType, .unionType, .intersectionType, .typeofType, .existsType,
   .genericType, .qualifiedTypeIdentifier, .functionType, .functionTypeParam, .objectType,
   .objectTypeProperty, .objectTypeIndexer, .objectTypeCallProperty, .interfaceDeclaration,
   .interfaceExtends, .typeAlias, .declareVariable, .declareFunction, .declareClass,
   .declareModule]

/-- Name of the kind in tree dumps. -/
def label : NodeKind → String
  | .program => "Program"
  | .expressionStatement => "ExpressionStatement"
  | .blockStatement => "BlockStatement"
  | .emptyStatement => "EmptyStatement"
  | .debuggerStatement => "DebuggerStatement"
  | .withStatement => "WithStatement"
  | .returnStatement => "ReturnStatement"
  | .labeledStatement => "LabeledStatement"
  | .breakStatement => "BreakStatement"
  | .continueStatement => "ContinueStatement"
  | .ifStatement => "IfStatement"
  | .switchStatement => "SwitchStatement"
  | .switchCase => "SwitchCase"
  | .throwStatement => "ThrowStatement"
  | .tryStatement => "TryStatement"
  | .catchClause => "CatchClause"
  | .whileStatement => "WhileStatement"
  | .doWhileStatement => "DoWhileStatement"
  | .forStatement => "ForStatement"
  | .forInStatement => "ForInStatement"
  | .forOfStatement => "ForOfStatement"
  | .functionDeclaration => "FunctionDeclaration"
  | .variableDeclaration => "VariableDeclaration"
  | .variableDeclarator => "VariableDeclarator"
  | .classDeclaration => "ClassDeclaration"
  | .thisExpression => "ThisExpression"
  | .super => "Super"
  | .arrayExpression => "ArrayExpression"
  | .objectExpression => "ObjectExpression"
  | .property => "Property"
  | .functionExpression => "FunctionExpression"
  | .arrowFunctionExpression => "ArrowFunctionExpression"
  | .classExpression => "ClassExpression"
  | .classBody => "ClassBody"
  | .methodDefinition => "MethodDefinition"
  | .classProperty => "ClassProperty"
  | .classImplements => "ClassImplements"
  | .templateLiteral => "TemplateLiteral"
  | .templateElement => "TemplateElement"
  | .taggedTemplateExpression => "TaggedTemplateExpression"
  | .sequenceExpression => "SequenceExpression"
  | .unaryExpression => "UnaryExpression"
  | .binaryExpression => "BinaryExpression"
  | .logicalExpression => "LogicalExpression"
  | .assignmentExpression => "AssignmentExpression"
  | .updateExpression => "UpdateExpression"
  | .conditionalExpression => "ConditionalExpression"
  | .callExpression => "CallExpression"
  | .newExpression => "NewExpression"
  | .memberExpression => "MemberExpression"
  | .spreadElement => "SpreadElement"
  | .yieldExpression => "YieldExpression"
  | .awaitExpression => "AwaitExpression"
  | .identifier => "Identifier"
  | .literal => "Literal"
  | .objectPattern => "ObjectPattern"
  | .arrayPattern => "ArrayPattern"
  | .assignmentPattern => "AssignmentPattern"
  | .restElement => "RestElement"
  | .importDeclaration => "ImportDeclaration"
  | .importSpecifier => "ImportSpecifier"
  | .importDefaultSpecifier => "ImportDefaultSpecifier"
  | .importNamespaceSpecifier => "ImportNamespaceSpecifier"
  | .exportNamedDeclaration => "ExportNamedDeclaration"
  | .exportSpecifier => "ExportSpecifier"
  | .exportDefaultDeclaration => "ExportDefaultDeclaration"
  | .exportAllDeclaration => "ExportAllDeclaration"
  | .ascription => "TypeAnnotation"
  | .optionalMarker => "OptionalMarker"
  | .typeParameterDeclaration => "TypeParameterDeclaration"
  | .typeParameter => "TypeParameter"
  | .typeParameterInstantiation => "TypeParameterInstantiation"
  | .anyType => "AnyTypeAnnotation"
  | .mixedType => "MixedTypeAnnotation"
  | .voidType => "VoidTypeAnnotation"
  | .numberType => "NumberTypeAnnotation"
  | .stringType => "StringTypeAnnotation"
  | .booleanType => "BooleanTypeAnnotation"
  | .nullLiteralType => "NullLiteralTypeAnnotation"
  | .stringLiteralType => "StringLiteralTypeAnnotation"
  | .numberLiteralType => "NumberLiteralTypeAnnotation"
  | .booleanLiteralType => "BooleanLiteralTypeAnnotation"
  | .nullableType => "NullableTypeAnnotation"
  | .arrayType => "ArrayTypeAnnotation"
  | .tupleType => "TupleTypeAnnotation"
  | .unionType => "UnionTypeAnnotation"
  | .intersectionType => "IntersectionTypeAnnotation"
  | .typeofType => "TypeofTypeAnnotation"
  | .existsType => "ExistsTypeAnnotation"
  | .genericType => "GenericTypeAnnotation"
  | .qualifiedTypeIdentifier => "QualifiedTypeIdentifier"
  | .functionType => "FunctionTypeAnnotation"
  | .functionTypeParam => "FunctionTypeParam"
  | .objectType => "ObjectTypeAnnotation"
  | .objectTypeProperty => "ObjectTypeProperty"
  | .objectTypeIndexer => "ObjectTypeIndexer"
  | .objectTypeCallProperty => "ObjectTypeCallProperty"
  | .interfaceDeclaration => "InterfaceDeclaration"
  | .interfaceExtends => "InterfaceExtends"
  | .typeAlias => "TypeAlias"
  | .declareVariable => "DeclareVariable"
  | .declareFunction => "DeclareFunction"
  | .declareClass => "DeclareClass"
  | .declareModule => "DeclareModule"

def ofLabel? (s : String) : Option NodeKind :=
  all.find? (·.label == s)

open FieldSpec in
/-- Fields of a kind, in source order. -/
def schema : NodeKind → List FieldSpec
  | .program | .blockStatement | .classBody => [block .body]
  | .expressionStatement => [one .expression]
  | .emptyStatement | .debuggerStatement | .thisExpression | .super | .templateElement | .literal
  | .optionalMarker | .anyType | .mixedType | .voidType | .numberType | .stringType | .booleanType
  | .nullLiteralType | .stringLiteralType | .numberLiteralType | .booleanLiteralType | .existsType =>
    []
  | .withStatement => [one .object, one .body]
  | .returnStatement | .yieldExpression => [maybe .argument]
  | .labeledStatement => [one .label, one .body]
  | .breakStatement | .continueStatement => [maybe .label]
  | .ifStatement => [one .test, one .consequent, maybe .alternate]
  | .switchStatement => [one .discriminant, block .cases]
  | .switchCase => [maybe .test, block .consequent]
  | .throwStatement | .unaryExpression | .updateExpression | .spreadElement | .awaitExpression
  | .restElement | .typeofType => [one .argument]
  | .tryStatement => [one .block, maybe .handler, maybe .finalizer]
  | .catchClause => [one .param, one .body]
  | .whileStatement => [one .test, one .body]
  | .doWhileStatement => [one .body, one .test]
  | .forStatement => [maybe .init, maybe .test, maybe .update, one .body]
  | .forInStatement | .forOfStatement => [one .left, one .right, one .body]
  | .functionDeclaration | .functionExpression =>
    [maybe .id, maybe .typeParameters, many .params, maybe .returnType, one .body]
  | .variableDeclaration => [many .declarations]
  | .variableDeclarator => [one .id, maybe .init]
  | .classDeclaration | .classExpression =>
    [maybe .id, maybe .typeParameters, maybe .superClass, maybe .superTypeParameters,
     maybeMany .implements, one .body]
  | .arrayExpression => [many .elements]
  | .objectExpression | .objectType => [many .properties]
  | .property => [maybe .key, one .value]
  | .arrowFunctionExpression =>
    [maybe .typeParameters, many .params, maybe .returnType, one .body]
  | .methodDefinition | .objectTypeProperty => [one .key, one .value]
  | .classProperty => [one .key, maybe .ascription]
  | .classImplements | .genericType | .interfaceExtends => [one .id, maybe .typeParameters]
  | .templateLiteral => [many .quasis, many .expressions]
  | .taggedTemplateExpression => [one .tag, one .quasi]
  | .sequenceExpression => [many .expressions]
  | .binaryExpression | .logicalExpression | .assignmentExpression | .assignmentPattern =>
    [one .left, one .right]
  | .conditionalExpression => [one .test, one .consequent, one .alternate]
  | .callExpression => [one .callee, many .arguments]
  | .newExpression => [one .callee, maybeMany .arguments]
  | .memberExpression => [one .object, one .property]
  | .identifier => [maybe .optional, maybe .ascription]
  | .objectPattern => [many .properties, maybe .ascription]
  | .arrayPattern => [many .elements, maybe .ascription]
  | .importDeclaration => [maybeMany .specifiers, one .source]
  | .importSpecifier => [maybe .imported, one .localName]
  | .importDefaultSpecifier | .importNamespaceSpecifier => [one .localName]
  | .exportNamedDeclaration => [maybe .declaration, maybeMany .specifiers, maybe .source]
  | .exportSpecifier => [one .localName, maybe .exported]
  | .exportDefaultDeclaration => [one .declaration]
  | .exportAllDeclaration => [one .source]
  | .ascription | .nullableType => [one .ascription]
  | .typeParameterDeclaration | .typeParameterInstantiation => [many .params]
  | .typeParameter => [maybe .bound, maybe .defaultType]
  | .arrayType => [one .elementType]
  | .tupleType | .unionType | .intersectionType => [many .types]
  | .qualifiedTypeIdentifier => [one .qualification, one .id]
  | .functionType => [maybe .typeParameters, many .params, maybe .rest, one .returnType]
  | .functionTypeParam => [maybe .name, one .ascription]
  | .objectTypeIndexer => [maybe .id, one .key, one .value]
  | .objectTypeCallProperty => [one .value]
  | .interfaceDeclaration | .declareClass =>
    [one .id, maybe .typeParameters, maybeMany .heritage, one .body]
  | .typeAlias => [one .id, maybe .typeParameters, one .right]
  | .declareVariable | .declareFunction => [one .id]
  | .declareModule => [one .id, one .body]

/-- Schema entry of a field. -/
def fieldSpec? (kind : NodeKind) (field : Field) : Option FieldSpec :=
  kind.schema.find? (·.field == field)

/-- Place of a field in the schema. -/
def fieldIndex? (kind : NodeKind) (field : Field) : Option Nat :=
  kind.schema.findIdx? (·.field == field)

end NodeKind

end FlowErasure
