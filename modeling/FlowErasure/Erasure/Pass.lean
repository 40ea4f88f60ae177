import FlowErasure.Erasure.Rules
import FlowErasure.Syntax.Path

/-!
# The erasure pass

One pass over a tree, parents before children. At each node the fields that the rules strip are
cleared first, then the children that the rules delete are taken out, and then what remains is
visited from left to right. So nothing below a removed node is ever visited.
-/

namespace FlowErasure

/-- What a pass has done. -/
structure ErasureStats where
  /-- Nodes visited. -/
  visited : Nat := 0
  /-- Nodes taken out by themselves; what is below them is not counted. -/
  deleted : Nat := 0
  /-- Fields cleared that were not empty. -/
  cleared : Nat := 0
  deriving DecidableEq, Repr, Inhabited

/-- The pass has changed the tree. -/
def ErasureStats.changed (stats : ErasureStats) : Bool :=
  0 < stats.deleted || 0 < stats.cleared

namespace Erasure

/-- A tree in the middle of a pass. -/
structure Progress where
  tree : Tree
  stats : ErasureStats := {}
  deriving DecidableEq, Repr, Inhabited

namespace Progress

/-- Clears a field. A field the node does not have is passed over. -/
def clearField (id : NodeId) (p : Progress) (field : Field) : Progress :=
  match (Path.field id field).delete p.tree with
  | .ok (true, tree) => { tree, stats := { p.stats with cleared := p.stats.cleared + 1 } }
  | _ => p

def clearFields (p : Progress) (rules : Rules) (id : NodeId) (kind : NodeKind) : Progress :=
  match rules.action kind with
  | .strip fields => fields.foldl (clearField id) p
  | _ => p

/-- Takes out what a path leads to. -/
def deleteAt (p : Progress) (path : Path) : Progress :=
  match path.delete p.tree with
  | .ok (true, tree) => { tree, stats := { p.stats with deleted := p.stats.deleted + 1 } }
  | _ => p

end Progress

/-- Does a handle refer to a node of a kind that is deleted? -/
def isDeleted (rules : Rules) (tree : Tree) (node : Handle) : Bool :=
  (tree.lookup? node).any fun node => rules.deletes node.kind

/-- The places of the deleted children in one slot. In a list the last comes first, so that the
places before it stay right while it is taken out. -/
def deletedIn (rules : Rules) (tree : Tree) (id : NodeId) (field : Field) : Slot → List Path
  | .absent => []
  | .node child => if isDeleted rules tree child then [.field id field] else []
  | .list items =>
    (items.nodes.zipIdx.reverse.filter fun (child, _) => isDeleted rules tree child).map
      fun (_, index) => .element id field index

/-- The places of all deleted children of a node. -/
def deletedChildren (rules : Rules) (tree : Tree) (id : NodeId) (node : Node) : List Path :=
  node.fields.flatMap fun (spec, slot) => deletedIn rules tree id spec.field slot

/-- Clears fields and takes out children at one node. -/
def visit (rules : Rules) (id : NodeId) (p : Progress) : Progress :=
  match p.tree.get? id with
  | none => p
  | some node =>
    let p := { p with stats := { p.stats with visited := p.stats.visited + 1 } }
    let p := p.clearFields rules id node.kind
    match p.tree.get? id with
    | none => p
    | some node => (deletedChildren rules p.tree id node).foldl Progress.deleteAt p

/-- Visits a node and what is below it, at most `depth` levels. -/
def passWithin (rules : Rules) : Nat → NodeId → Progress → Progress
  | 0, _, p => p
  | depth + 1, id, p =>
    let p := visit rules id p
    (p.tree.children id).foldl (fun p child => passWithin rules depth child p) p

end Erasure

/-- Erases what the rules say below `root`. A root that the rules delete has no parent to be taken
out of, and a root that does not exist has nothing below it: then nothing is done. -/
def Tree.erase (tree : Tree) (rules : Rules) (root : NodeId) : Tree × ErasureStats :=
  match tree.kind? root with
  | none => (tree, {})
  | some kind =>
    if rules.deletes kind then (tree, {})
    else
      let p := Erasure.passWithin rules tree.size root { tree }
      (p.tree, p.stats)

end FlowErasure
