import FlowErasure.Syntax.Tree

/-!
# Paths

A path names the root, a field of a node, or one element of a sequence field. It holds no part of
the tree, so it can be kept while the tree changes; each operation looks it up again. A change that
would store what is there already leaves the tree as it is.

A handle is a node that may or may not exist, or no node at all (`none`).
-/

namespace FlowErasure

/-- A reference to a node, or to none. -/
abbrev Handle := Option NodeId

inductive Path where
  | root (node : Handle)
  | field (parent : Handle) (field : Field)
  | element (parent : Handle) (field : Field) (index : Nat)
  deriving DecidableEq, Repr, Inhabited

/-- What a path leads to. -/
inductive PathValue where
  | absent
  | node (id : NodeId)
  | list (items : NodeList)
  deriving DecidableEq, Repr, Inhabited

inductive PathError where
  | missingNode (node : Handle)
  | unknownField (kind : NodeKind) (field : Field)
  | notAList (kind : NodeKind) (field : Field)
  | listField (kind : NodeKind) (field : Field)
  | indexOutOfBounds (kind : NodeKind) (field : Field) (index : Nat)
  | notANode
  | root
  deriving DecidableEq, Repr, Inhabited

/-- How messages write a handle; the reference to no node is written as the largest index. -/
def Handle.text (node : Handle) : String :=
  "NodeIndex(" ++ toString (node.getD 4294967295) ++ ")"

namespace PathError

def label : PathError → String
  | .missingNode _ => "MissingNode"
  | .unknownField _ _ => "UnknownField"
  | .notAList _ _ => "NotAList"
  | .listField _ _ => "ListField"
  | .indexOutOfBounds _ _ _ => "IndexOutOfBounds"
  | .notANode => "NotANode"
  | .root => "Root"

def message : PathError → String
  | .missingNode node => "node " ++ Handle.text node ++ " does not exist"
  | .unknownField kind field => kind.label ++ " has no field `" ++ field.spelling ++ "`"
  | .notAList kind field => "field `" ++ field.spelling ++ "` of " ++ kind.label ++ " is not a list"
  | .listField kind field =>
    "field `" ++ field.spelling ++ "` of " ++ kind.label ++
      " holds a list; address one of its elements"
  | .indexOutOfBounds kind field index =>
    "index " ++ toString index ++ " is out of bounds for `" ++ field.spelling ++ "` of " ++
      kind.label
  | .notANode => "the path does not hold a single node"
  | .root => "the tree root cannot be replaced"

end PathError

namespace Tree

/-- The node a handle refers to. -/
def lookup? (tree : Tree) (node : Handle) : Option Node :=
  node.bind tree.get?

end Tree

namespace Path

/-- The place that holds a node, from what the node knows of its parent. A node without a parent is
a root. -/
def of (tree : Tree) (id : Handle) : Path :=
  match (tree.lookup? id).bind (·.parent) with
  | none => .root id
  | some (parent, f) =>
    match (tree.slot? parent f).bind Slot.list? with
    | some items =>
      match items.nodes.findIdx? (· == id) with
      | some index => .element (some parent) f index
      | none => .field (some parent) f
    | none => .field (some parent) f

def parent? : Path → Option Handle
  | .root _ => none
  | .field parent _ | .element parent _ _ => some parent

/-- The parent's place and kind, with the place, schema entry and contents of the field. -/
structure Located where
  parent : NodeId
  kind : NodeKind
  index : Nat
  spec : FieldSpec
  slot : Slot

/-- Looks up a field of a node. -/
def locate (tree : Tree) (parent : Handle) (f : Field) : Except PathError Located := do
  let some (id, node) := parent.bind fun id => (tree.get? id).map (id, ·)
    | throw (.missingNode parent)
  let some index := node.kind.fieldIndex? f | throw (.unknownField node.kind f)
  let some spec := node.kind.schema[index]? | throw (.unknownField node.kind f)
  return ⟨id, node.kind, index, spec, node.slots.getD index .absent⟩

/-- Reads what a path leads to. -/
def get (tree : Tree) : Path → Except PathError PathValue
  | .root node =>
    match node.bind fun id => (tree.get? id).map fun _ => id with
    | some id => return .node id
    | none => throw (.missingNode node)
  | .field parent f => do
    match (← locate tree parent f).slot with
    | .absent => return .absent
    | .node id => return .node id
    | .list items => return .list items
  | .element parent f index => do
    let place ← locate tree parent f
    let .list items := place.slot | throw (.notAList place.kind f)
    match items.nodes[index]? with
    | none => throw (.indexOutOfBounds place.kind f index)
    | some none => return .absent
    | some (some id) => return .node id

/-- The node a path leads to. -/
def node? (tree : Tree) (path : Path) : Option NodeId :=
  match path.get tree with
  | .ok (.node id) => some id
  | _ => none

/-- The path leads to a node or to a list with elements. -/
def isPopulated (tree : Tree) (path : Path) : Bool :=
  match path.get tree with
  | .ok (.node _) => true
  | .ok (.list items) => !items.nodes.isEmpty
  | _ => false

/-- Puts something else where a path leads; `none` means nothing.

A single-node field becomes empty or holds the new node. A sequence field can only be cleared as a
whole. An element is taken out of its list, or exchanged. Answers whether the tree has changed. -/
def replace (tree : Tree) (replacement : Option Handle) : Path → Except PathError (Bool × Tree)
  | .root _ => throw .root
  | .field parent f => do
    let place ← locate tree parent f
    match replacement with
    | none => return tree.replaceSlot place.parent place.index .absent
    | some node =>
      if place.spec.isSequence then throw (.listField place.kind f)
      else return tree.replaceSlot place.parent place.index (.ofOption node)
  | .element parent f index => do
    let place ← locate tree parent f
    let .list items := place.slot | throw (.notAList place.kind f)
    if index < items.nodes.length then
      let nodes :=
        match replacement with
        | none => items.nodes.eraseIdx index
        | some node => items.nodes.set index node
      return tree.replaceSlot place.parent place.index (.list { items with nodes })
    else throw (.indexOutOfBounds place.kind f index)

/-- Removes what a path leads to. -/
def delete (tree : Tree) (path : Path) : Except PathError (Bool × Tree) :=
  path.replace tree none

/-- The path to a field of the node a path leads to. -/
def child (tree : Tree) (path : Path) (f : Field) : Except PathError Path := do
  let some id := path.node? tree | throw .notANode
  let some kind := tree.kind? id | throw (.missingNode id)
  let some _ := kind.fieldIndex? f | throw (.unknownField kind f)
  return .field id f

/-- One path per single-node field and per list element of the node a path leads to. -/
def children (tree : Tree) (path : Path) : Except PathError (List Path) := do
  let some id := path.node? tree | throw .notANode
  let some node := tree.get? id | throw (.missingNode id)
  return node.fields.flatMap fun (spec, slot) =>
    match slot with
    | .list items => (List.range items.nodes.length).map (.element id spec.field)
    | _ => [.field id spec.field]

end Path

end FlowErasure
