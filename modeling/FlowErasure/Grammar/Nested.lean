import FlowErasure.Grammar.Basic

/-!
# Nesting

The rules of the grammar that may contain themselves call each other through a `Nested`: the rules
one level of nesting deeper. A source may be nested as deep as `nestingLimit`; below that there is
`Nested.exhausted`, in which every rule fails.
-/

namespace FlowErasure.Grammar

/-- How many levels of nesting a source may have. -/
def nestingLimit : Nat :=
  1000

/-- The rules one level of nesting deeper. -/
structure Nested where
  statement : Parser NodeId
  /-- An expression without a comma operator. -/
  assignment : Parser NodeId
  /-- An operand for an operator of the given precedence. -/
  binary : Nat → Parser NodeId
  unary : Parser NodeId
  /-- An expression that starts with `new`. -/
  construction : Parser NodeId
  /-- A name or a pattern; the flag says whether a name may be marked optional. -/
  bindingTarget : Bool → Parser NodeId
  classMember : Parser NodeId
  type : Parser NodeId
  /-- A type that may start with `?`. -/
  prefixType : Parser NodeId
  primaryType : Parser NodeId
  /-- A member of an object type; the flag says whether it may be static. -/
  typeMember : Bool → Parser NodeId

/-- Refuses a source that is nested too deep. -/
def failTooDeep : Parser NodeId :=
  failAtTokenWith .nestingDepthExceeded [toString nestingLimit]

/-- The rules below the deepest level. -/
def Nested.exhausted : Nested where
  statement := failTooDeep
  assignment := failTooDeep
  binary _ := failTooDeep
  unary := failTooDeep
  construction := failTooDeep
  bindingTarget _ := failTooDeep
  classMember := failTooDeep
  type := failTooDeep
  prefixType := failTooDeep
  primaryType := failTooDeep
  typeMember _ := failTooDeep

end FlowErasure.Grammar
