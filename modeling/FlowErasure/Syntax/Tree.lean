import FlowErasure.Names
import FlowErasure.Token
import FlowErasure.Syntax.Flags
import FlowErasure.Syntax.Kind

/-!
# Syntax trees

A tree is a table of nodes. Nodes are only appended; a node is referred to by its place in the
table and holds its children in slots, one per field of its schema. Each node knows the node and
field that adopted it last.

Changing a slot keeps the slots the node had before its first change, marks the node, and marks
every node above it.
-/

namespace FlowErasure

/-- Place of a node in the table. -/
abbrev NodeId := Nat

/-- A sequence of children with the source range of the construct it was read from. A missing
element, as in an array with holes, is `none`. -/
structure NodeList where
  nodes : List (Option NodeId)
  start : Nat
  stop : Nat
  deriving DecidableEq, Repr, Inhabited

/-- Contents of one field of one node. -/
inductive Slot where
  | absent
  | node (id : NodeId)
  | list (items : NodeList)
  deriving DecidableEq, Repr, Inhabited

namespace Slot

def ofOption : Option NodeId → Slot
  | some id => .node id
  | none => .absent

def node? : Slot → Option NodeId
  | .node id => some id
  | _ => none

def list? : Slot → Option NodeList
  | .list items => some items
  | _ => none

/-- Nothing is held by an absent slot or an empty list. -/
def isPopulated : Slot → Bool
  | .absent => false
  | .node _ => true
  | .list items => !items.nodes.isEmpty

/-- The nodes held, in order, without holes. -/
def children : Slot → List NodeId
  | .absent => []
  | .node id => [id]
  | .list items => items.nodes.filterMap id

end Slot

/-- What has changed at a node: its own slots, or something below it. -/
structure Marks where
  own : Bool := false
  below : Bool := false
  deriving DecidableEq, Repr, Inhabited

namespace Marks

def any (marks : Marks) : Bool :=
  marks.own || marks.below

def labels (marks : Marks) : List String :=
  (if marks.own then ["MODIFIED"] else []) ++ if marks.below then ["SUBTREE_MODIFIED"] else []

end Marks

structure Node where
  kind : NodeKind
  /-- Byte offset of the first character. -/
  start : Nat
  /-- Byte offset after the last character. -/
  stop : Nat
  flags : NodeFlags := {}
  /-- Operator, declaration keyword or literal token, where the kind has one. -/
  token : Token := .unknown
  /-- Name of an identifier or a type parameter. -/
  name : Atom := 0
  /-- One slot per field of the schema. -/
  slots : List Slot
  /-- The node and field that adopted this node last. -/
  parent : Option (NodeId × Field) := none
  marks : Marks := {}
  /-- The slots before the first change. -/
  before : Option (List Slot) := none
  deriving DecidableEq, Repr, Inhabited

namespace Node

/-- The node covers some source text. -/
def hasSpan (node : Node) : Bool :=
  node.start < node.stop

/-- Children in schema order, without holes. -/
def children (node : Node) : List NodeId :=
  node.slots.flatMap Slot.children

/-- Fields with their contents. -/
def fields (node : Node) : List (FieldSpec × Slot) :=
  node.kind.schema.zip node.slots

def slot? (node : Node) (field : Field) : Option Slot := do
  node.slots[← node.kind.fieldIndex? field]?

end Node

/-- A table of nodes with the names they use. -/
structure Tree where
  nodes : Array Node
  names : Names
  deriving DecidableEq, Repr, Inhabited

namespace Tree

/-- A tree without nodes, with the names every source starts with. -/
def empty : Tree where
  nodes := #[]
  names := .common

def size (tree : Tree) : Nat :=
  tree.nodes.size

def get? (tree : Tree) (id : NodeId) : Option Node :=
  tree.nodes[id]?

def kind? (tree : Tree) (id : NodeId) : Option NodeKind :=
  (tree.get? id).map (·.kind)

/-- Slots of a node; a node that does not exist has none. -/
def slots (tree : Tree) (id : NodeId) : List Slot :=
  ((tree.get? id).map (·.slots)).getD []

def slot? (tree : Tree) (id : NodeId) (field : Field) : Option Slot := do
  (← tree.get? id).slot? field

/-- The node in a single-node field. -/
def child? (tree : Tree) (id : NodeId) (field : Field) : Option NodeId := do
  (← tree.slot? id field).node?

/-- The list in a sequence field. -/
def list? (tree : Tree) (id : NodeId) (field : Field) : Option NodeList := do
  (← tree.slot? id field).list?

def children (tree : Tree) (id : NodeId) : List NodeId :=
  ((tree.get? id).map (·.children)).getD []

def name (tree : Tree) (id : NodeId) : String :=
  ((tree.get? id).map fun node => tree.names.resolve node.name).getD ""

/-- The node or something below it has changed. -/
def isDirty (tree : Tree) (id : NodeId) : Bool :=
  (tree.get? id).any (·.marks.any)

def modify (tree : Tree) (id : NodeId) (f : Node → Node) : Tree :=
  { tree with nodes := tree.nodes.modify id f }

/-- Records `parent` and `field` as the place that holds the nodes of a slot. -/
def adopt (tree : Tree) (parent : NodeId) (field : Field) (slot : Slot) : Tree :=
  slot.children.foldl
    (fun tree child => tree.modify child fun node => { node with parent := some (parent, field) })
    tree

/-- Fills the slots that are not given and drops those the schema has no field for. -/
def fitSlots (kind : NodeKind) (slots : List Slot) : List Slot :=
  (slots ++ List.replicate kind.schema.length Slot.absent).take kind.schema.length

/-- Appends a node, which adopts its children. Slots are given in schema order; those left out at
the end are absent. -/
def add (tree : Tree) (node : Node) : NodeId × Tree :=
  let id := tree.size
  let node := { node with slots := fitSlots node.kind node.slots }
  let tree := node.fields.foldl (fun tree (spec, slot) => tree.adopt id spec.field slot) tree
  (id, { tree with nodes := tree.nodes.push node })

/-- The first `size` nodes. A node that stays is left as it is, even if it has been adopted by one
that goes. -/
def truncate (tree : Tree) (size : Nat) : Tree :=
  { tree with nodes := tree.nodes.take size }

/-- Marks nodes upwards as having a change below them, up to the first that is marked already:
everything above that one was marked with it. At most `bound` nodes are marked. -/
def markAbove : Nat → Option NodeId → Tree → Tree
  | 0, _, tree => tree
  | _, none, tree => tree
  | bound + 1, some id, tree =>
    match tree.get? id with
    | none => tree
    | some node =>
      if node.marks.below then tree
      else
        markAbove bound (node.parent.map (·.1))
          (tree.modify id fun node => { node with marks := { node.marks with below := true } })

/-- Replaces the slot at `index` of a node. Answers whether that changes anything; if not, the tree
stays as it is. -/
def replaceSlot (tree : Tree) (id : NodeId) (index : Nat) (value : Slot) : Bool × Tree :=
  match tree.get? id with
  | none => (false, tree)
  | some node =>
    match node.slots[index]?, node.kind.schema[index]? with
    | some current, some spec =>
      if current = value then (false, tree)
      else
        let tree := tree.adopt id spec.field value
        let tree := tree.modify id fun node =>
          { node with
            slots := node.slots.set index value
            before := node.before <|> some node.slots
            marks := { node.marks with own := true } }
        let parent := (tree.get? id).bind (·.parent)
        (true, markAbove tree.size (parent.map (·.1)) tree)
    | _, _ => (false, tree)

/-- Nodes reachable from `id` in pre-order, at most `depth` levels of them, in front of `rest`. -/
def descendantsOnto (tree : Tree) : Nat → NodeId → List NodeId → List NodeId
  | 0, _, rest => rest
  | depth + 1, id, rest =>
    match tree.get? id with
    | none => rest
    | some node => id :: node.children.foldr (tree.descendantsOnto depth) rest

/-- Nodes reachable from `id` in pre-order. No path in a tree without cycles is longer than the
table. -/
def descendants (tree : Tree) (id : NodeId) : List NodeId :=
  tree.descendantsOnto tree.size id []

/-- Nodes that have changed or have a change below them. -/
def dirtyNodes (tree : Tree) : List NodeId :=
  (List.range tree.size).filter tree.isDirty

end Tree

end FlowErasure
