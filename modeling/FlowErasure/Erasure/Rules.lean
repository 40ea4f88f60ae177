import FlowErasure.Syntax.Kind

/-!
# Erasure rules

What to do with a node is decided by its kind alone. The standard rules delete the nodes that only
speak of types and clear the fields that hold them.
-/

namespace FlowErasure

inductive Action where
  /-- Remove the node from its parent. -/
  | delete
  /-- Keep the node, clear these fields, and go on with what remains. -/
  | strip (fields : List Field)
  /-- Keep the node and go on. -/
  | passThrough
  deriving DecidableEq, Repr, Inhabited

/-- Kinds that mean nothing when the program runs. -/
def NodeKind.isTypeOnly : NodeKind → Bool
  | .classImplements | .classProperty | .interfaceDeclaration | .interfaceExtends | .typeAlias
  | .declareVariable | .declareFunction | .declareClass | .declareModule
  | .ascription | .optionalMarker | .typeParameterDeclaration | .typeParameter
  | .typeParameterInstantiation
  | .anyType | .mixedType | .voidType | .numberType | .stringType | .booleanType | .nullLiteralType
  | .stringLiteralType | .numberLiteralType | .booleanLiteralType | .nullableType | .arrayType
  | .tupleType | .unionType | .intersectionType | .typeofType | .existsType | .genericType
  | .qualifiedTypeIdentifier | .functionType | .functionTypeParam | .objectType
  | .objectTypeProperty | .objectTypeIndexer | .objectTypeCallProperty => true
  | _ => false

/-- One action per kind. -/
structure Rules where
  action : NodeKind → Action

namespace Rules

/-- Rules that change nothing. -/
def keepAll : Rules where
  action _ := .passThrough

/-- The same rules with another action for one kind. -/
def withAction (rules : Rules) (kind : NodeKind) (action : Action) : Rules where
  action k := if k = kind then action else rules.action k

def deletes (rules : Rules) (kind : NodeKind) : Bool :=
  rules.action kind == .delete

/-- The rules that erase types. -/
def standard : Rules where
  action
    | .identifier => .strip [.optional, .ascription]
    | .functionDeclaration | .functionExpression => .strip [.returnType, .typeParameters]
    | .classDeclaration | .classExpression =>
      .strip [.typeParameters, .superTypeParameters, .implements]
    | .arrayPattern | .objectPattern => .strip [.ascription]
    | kind => if kind.isTypeOnly then .delete else .passThrough

/-- Kinds that are deleted, in the order of `NodeKind.all`. -/
def deletedKinds (rules : Rules) : List NodeKind :=
  NodeKind.all.filter rules.deletes

/-- Do two tables have the same action for every kind? -/
def agree (rules other : Rules) : Bool :=
  NodeKind.all.all fun kind => rules.action kind == other.action kind

end Rules

/-- A rule that would leave a tree malformed. -/
inductive RuleDefect where
  | unknownField (kind : NodeKind) (field : Field)
  | requiredField (kind : NodeKind) (field : Field)
  | rootDeleted
  deriving DecidableEq, Repr, Inhabited

namespace RuleDefect

def label : RuleDefect → String
  | .unknownField _ _ => "UnknownField"
  | .requiredField _ _ => "RequiredField"
  | .rootDeleted => "RootDeleted"

def message : RuleDefect → String
  | .unknownField kind field =>
    kind.label ++ " has no field `" ++ field.spelling ++ "` to strip"
  | .requiredField kind field =>
    "field `" ++ field.spelling ++ "` of " ++ kind.label ++ " is required and cannot be stripped"
  | .rootDeleted => "Program is the tree root and cannot be deleted"

/-- What is wrong with clearing a field of a kind. -/
def ofField? (kind : NodeKind) (field : Field) : Option RuleDefect :=
  match kind.fieldSpec? field with
  | none => some (.unknownField kind field)
  | some spec =>
    if !spec.optional || spec.shape == .block then some (.requiredField kind field) else none

end RuleDefect

namespace Rules

/-- What is wrong with clearing the fields that the rules clear in a kind. -/
def fieldDefects (rules : Rules) (kind : NodeKind) : List RuleDefect :=
  match rules.action kind with
  | .strip fields => fields.filterMap (RuleDefect.ofField? kind)
  | _ => []

/-- All that is wrong with the rules. -/
def defects (rules : Rules) : List RuleDefect :=
  (if rules.deletes .program then [.rootDeleted] else []) ++
    NodeKind.all.flatMap rules.fieldDefects

end Rules

end FlowErasure
