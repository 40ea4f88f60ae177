import FlowErasure.Syntax.Tree

/-!
# Outlines

The part of a tree below a node, written out as nested data. Two trees have the same structure
exactly when their outlines are equal.
-/

namespace FlowErasure

inductive Outline where
  /-- An absent field, a hole in a list, or a node that does not exist. -/
  | missing
  | node (kind : NodeKind) (start stop : Nat) (name : Option String) (token : Option Token)
      (flags : NodeFlags) (fields : List (Field × Outline))
  | list (items : List Outline)
  deriving Repr, Inhabited

namespace Tree

/-- The outline below `id`, at most `depth` levels of it. A token is shown when its text is fixed,
and for literals always. -/
def outlineWithin (tree : Tree) : Nat → NodeId → Outline
  | 0, _ => .missing
  | depth + 1, id =>
    match tree.get? id with
    | none => .missing
    | some node =>
      let name := if node.name = 0 then none else some (tree.names.resolve node.name)
      let token :=
        if node.token.spelling?.isSome || node.kind == .literal then some node.token else none
      let fields := node.fields.map fun (spec, slot) =>
        let contents :=
          match slot with
          | .absent => .missing
          | .node child => tree.outlineWithin depth child
          | .list items => .list <| items.nodes.map fun
            | none => .missing
            | some child => tree.outlineWithin depth child
        (spec.field, contents)
      .node node.kind node.start node.stop name token node.flags fields

/-- The outline below `id`. -/
def outline (tree : Tree) (id : NodeId) : Outline :=
  tree.outlineWithin tree.size id

end Tree

end FlowErasure
