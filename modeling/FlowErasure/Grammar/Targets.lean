import FlowErasure.Grammar.Basic

/-!
# Assignment targets

The left side of an assignment is read as an expression first. When it turns out to be a target,
object and array literals in it become patterns. Each pattern is a new node with the range of its
literal; the literal stays behind in the table, outside the tree.
-/

namespace FlowErasure.Grammar

/-- Refuses a node as an assignment target. -/
def failTarget {α : Type} (id : NodeId) : Parser α := do
  match ← getNode? id with
  | some node => failAt node.start (node.stop - node.start) .invalidAssignmentTarget
  | none => failAtToken .invalidAssignmentTarget

/-- A new node with the range and the flags of `node`. -/
def rebuild (node : Node) (kind : NodeKind) (flags : NodeFlags) (slots : List Slot) :
    Parser NodeId :=
  addNode { kind, start := node.start, stop := node.stop, slots, flags }

/-- An element of an array pattern, or the value of a property in an object pattern. -/
def patternElement (target : NodeId → Parser NodeId) (id : NodeId) : Parser NodeId := do
  let some node ← getNode? id | failTarget id
  match node.kind with
  | .spreadElement =>
    let some argument := (node.slot? .argument).bind Slot.node? | failTarget id
    let argument ← target argument
    rebuild node .restElement {} [.node argument]
  | .assignmentExpression =>
    if node.token == .equals then rebuild node .assignmentPattern {} node.slots else target id
  | .assignmentPattern => return id
  | _ => target id

/-- A property of an object pattern. -/
def patternProperty (target : NodeId → Parser NodeId) (id : NodeId) : Parser NodeId := do
  let some node ← getNode? id | failTarget id
  match node.kind with
  | .spreadElement => patternElement target id
  | .property =>
    if node.flags.method || node.flags.getter || node.flags.setter then failTarget id
    let some value := (node.slot? .value).bind Slot.node? | failTarget id
    let value ← patternElement target value
    rebuild node .property node.flags [(node.slot? .key).getD .absent, .node value]
  | _ => failTarget id

/-- The target for a node whose literals are nested less than `bound` deep. -/
def assignmentTargetWithin : Nat → NodeId → Parser NodeId
  | 0, id => failTarget id
  | bound + 1, id => do
    let some node ← getNode? id | failTarget id
    let target := assignmentTargetWithin bound
    match node.kind with
    | .identifier | .memberExpression | .objectPattern | .arrayPattern => return id
    | .objectExpression =>
      let some items := (node.slot? .properties).bind Slot.list? | failTarget id
      let nodes ← items.nodes.mapM fun
        | none => failTarget id
        | some property => some <$> patternProperty target property
      rebuild node .objectPattern {} [.list { items with nodes }]
    | .arrayExpression =>
      let some items := (node.slot? .elements).bind Slot.list? | failTarget id
      let nodes ← items.nodes.mapM fun
        | none => pure none
        | some element => some <$> patternElement target element
      rebuild node .arrayPattern {} [.list { items with nodes }]
    | _ => failTarget id

/-- Turns an expression into an assignment target. The nodes in a literal come before it in the
table, so literals are not nested deeper than the table is long. -/
def assignmentTarget (id : NodeId) : Parser NodeId :=
  assignmentTargetWithin (id + 1) id

end FlowErasure.Grammar
