/-!
# Fields

The named fields of syntax nodes and what a field may hold.
-/

namespace FlowErasure

/-- A named field of a node. -/
inductive Field where
  | alternate | argument | arguments | block | body | bound | callee | cases | consequent
  | declaration | declarations | defaultType | discriminant | elements | elementType | exported
  | expression | expressions | heritage | finalizer | handler | id | implements | imported | init
  | key | label | left | localName | name | object | optional | param | params | properties
  | property | qualification | quasi | quasis | rest | returnType | right | source | specifiers
  | superClass | superTypeParameters | tag | test | ascription | typeParameters | types | update
  | value
  deriving DecidableEq, Repr, Inhabited

namespace Field

/-- Every field. -/
def all : List Field :=
  [.alternate, .argument, .arguments, .block, .body, .bound, .callee, .cases, .consequent,
   .declaration, .declarations, .defaultType, .discriminant, .elements, .elementType, .exported,
   .expression, .expressions, .heritage, .finalizer, .handler, .id, .implements, .imported, .init,
   .key, .label, .left, .localName, .name, .object, .optional, .param, .params, .properties,
   .property, .qualification, .quasi, .quasis, .rest, .returnType, .right, .source, .specifiers,
   .superClass, .superTypeParameters, .tag, .test, .ascription, .typeParameters, .types, .update,
   .value]

/-- Name of the field in tree dumps. -/
def spelling : Field → String
  | .alternate => "alternate"
  | .argument => "argument"
  | .arguments => "arguments"
  | .block => "block"
  | .body => "body"
  | .bound => "bound"
  | .callee => "callee"
  | .cases => "cases"
  | .consequent => "consequent"
  | .declaration => "declaration"
  | .declarations => "declarations"
  | .defaultType => "default"
  | .discriminant => "discriminant"
  | .elements => "elements"
  | .elementType => "elementType"
  | .exported => "exported"
  | .expression => "expression"
  | .expressions => "expressions"
  | .heritage => "extends"
  | .finalizer => "finalizer"
  | .handler => "handler"
  | .id => "id"
  | .implements => "implements"
  | .imported => "imported"
  | .init => "init"
  | .key => "key"
  | .label => "label"
  | .left => "left"
  | .localName => "local"
  | .name => "name"
  | .object => "object"
  | .optional => "optional"
  | .param => "param"
  | .params => "params"
  | .properties => "properties"
  | .property => "property"
  | .qualification => "qualification"
  | .quasi => "quasi"
  | .quasis => "quasis"
  | .rest => "rest"
  | .returnType => "returnType"
  | .right => "right"
  | .source => "source"
  | .specifiers => "specifiers"
  | .superClass => "superClass"
  | .superTypeParameters => "superTypeParameters"
  | .tag => "tag"
  | .test => "test"
  | .ascription => "typeAnnotation"
  | .typeParameters => "typeParameters"
  | .types => "types"
  | .update => "update"
  | .value => "value"

def ofSpelling? (s : String) : Option Field :=
  all.find? (·.spelling == s)

end Field

/-- What a field holds: one node, a sequence with separators, or a sequence of statements or class
members without them. -/
inductive FieldShape where
  | node | list | block
  deriving DecidableEq, Repr, Inhabited

/-- Entry of a schema. An optional field may be absent from a well-formed node. -/
structure FieldSpec where
  field : Field
  shape : FieldShape
  optional : Bool
  deriving DecidableEq, Repr, Inhabited

namespace FieldSpec

/-- A node that is always there. -/
def one (field : Field) : FieldSpec :=
  ⟨field, .node, false⟩

def maybe (field : Field) : FieldSpec :=
  ⟨field, .node, true⟩

/-- A list that is always there, possibly empty. -/
def many (field : Field) : FieldSpec :=
  ⟨field, .list, false⟩

/-- A list whose whole clause may be missing. -/
def maybeMany (field : Field) : FieldSpec :=
  ⟨field, .list, true⟩

/-- Statements or class members. -/
def block (field : Field) : FieldSpec :=
  ⟨field, .block, false⟩

def isSequence (spec : FieldSpec) : Bool :=
  spec.shape != .node

end FieldSpec

end FlowErasure
