import FlowErasure.Proofs.Syntax.Table
import FlowErasure.Proofs.Text.Offset
import FlowErasure.Token.Lexer

/-!
# How expressions end

An assignment ends with its right side, a conditional with its second branch, and so on: what comes
after such an expression comes after its last part too. In the first branch of a conditional that is
the colon, which must not be taken for that of a return type.
-/

namespace FlowErasure

def FollowedBy (text : List Char) (offset : Nat) (c : Char) : Prop :=
  ∃ rest, Text.At text offset rest ∧ (Lexer.skipGap .blank offset false rest).rest.head? = some c

theorem FollowedBy.unique {text : List Char} {offset : Nat} {c d : Char}
    (h : FollowedBy text offset c) (h' : FollowedBy text offset d) : c = d := by
  obtain ⟨rest, hat, hc⟩ := h
  obtain ⟨rest', hat', hd⟩ := h'
  obtain rfl := hat.unique hat'
  exact Option.some.inj (hc.symm.trans hd)

namespace Node

def child? (node : Node) (field : Field) : Option NodeId :=
  (node.slot? field).bind Slot.node?

/-- The expression that may end an expression: the right side of an assignment, the second branch
of a conditional, the body of an arrow function, and what is yielded. -/
def last? (node : Node) : Option NodeId :=
  match node.kind with
  | .assignmentExpression => node.child? .right
  | .conditionalExpression => node.child? .alternate
  | .arrowFunctionExpression => if node.flags.expressionBody then node.child? .body else none
  | .yieldExpression => node.child? .argument
  | _ => none

theorem mem_children_of_child? {node : Node} {field : Field} {id : NodeId}
    (h : node.child? field = some id) : id ∈ node.children := by
  obtain ⟨slot, hslot, hid⟩ := Option.bind_eq_some_iff.mp h
  obtain ⟨index, -, hindex⟩ := Option.bind_eq_some_iff.mp hslot
  refine List.mem_flatMap.mpr ⟨slot, List.mem_of_getElem? hindex, ?_⟩
  cases slot with
  | absent => simp [Slot.node?] at hid
  | node other => simpa [Slot.node?, Slot.children, eq_comm] using hid
  | list items => simp [Slot.node?] at hid

theorem mem_children_of_last? {node : Node} {id : NodeId} (h : node.last? = some id) :
    id ∈ node.children := by
  unfold last? at h
  split at h
  · exact mem_children_of_child? h
  · exact mem_children_of_child? h
  · split at h
    · exact mem_children_of_child? h
    · simp at h
  · exact mem_children_of_child? h
  · simp at h

end Node

/-- An expression of this kind hands on to its last part that it ends a conditional's first
branch. -/
def NodeKind.HandsOn (kind : NodeKind) : Prop :=
  kind ≠ .yieldExpression

namespace Tree

variable {text : List Char} {tree tree' : Tree} {along : NodeKind → Prop}

inductive EndsIn (tree : Tree) (along : NodeKind → Prop) : NodeId → NodeId → Prop
  | refl (id : NodeId) : EndsIn tree along id id
  | step {id child x : NodeId} {node last : Node} : tree.get? id = some node → along node.kind →
      node.last? = some child → tree.get? child = some last → last.stop = node.stop →
      EndsIn tree along child x → EndsIn tree along id x

/-- No arrow function that an expression ends with has a return type. -/
def EndsUntyped (tree : Tree) (along : NodeKind → Prop) (id : NodeId) : Prop :=
  ∀ x arrow, tree.EndsIn along id x → tree.get? x = some arrow →
    arrow.kind = .arrowFunctionExpression → arrow.child? .returnType = none

/-- If a colon comes right after the first branch of a conditional, that is, if there is no
parenthesis between them, the branch does not end with a return type. -/
def KeepsColon (text : List Char) (tree : Tree) (along : NodeKind → Prop) (node : Node) : Prop :=
  node.kind = .conditionalExpression → ∀ id consequent, node.child? .consequent = some id →
    tree.get? id = some consequent → FollowedBy text consequent.stop ':' →
      tree.EndsUntyped along id

/-! ## Tables that agree -/

def SameUpTo (tree tree' : Tree) (n : NodeId) : Prop :=
  ∀ i < n, ∀ node', tree'.get? i = some node' →
    ∃ node, tree.get? i = some node ∧ node' = { node with parent := node'.parent }

theorem SameUpTo.endsIn {n : NodeId} (h : SameUpTo tree tree' n)
    (hbelow : ∀ i node, tree.get? i = some node → ∀ c ∈ node.children, c < i) {id x : NodeId}
    (hid : id < n) (hends : tree'.EndsIn along id x) : tree.EndsIn along id x ∧ x < n := by
  induction hends with
  | refl id => exact ⟨.refl id, hid⟩
  | @step id child x node' last' hget' halong hlast hchild' hstop _ ih =>
      obtain ⟨node, hget, hnode⟩ := h id hid node' hget'
      rw [hnode] at halong hlast hstop
      have hlt : child < n :=
        Nat.lt_trans (hbelow id node hget child (Node.mem_children_of_last? hlast)) hid
      obtain ⟨last, hchild, hlast'⟩ := h child hlt last' hchild'
      rw [hlast'] at hstop
      obtain ⟨hrest, hx⟩ := ih hlt
      exact ⟨.step hget halong hlast hchild hstop hrest, hx⟩

theorem SameUpTo.endsUntyped {n : NodeId} (h : SameUpTo tree tree' n)
    (hbelow : ∀ i node, tree.get? i = some node → ∀ c ∈ node.children, c < i) {id : NodeId}
    (hid : id < n) (huntyped : tree.EndsUntyped along id) : tree'.EndsUntyped along id := by
  intro x arrow' hends hget' hkind
  obtain ⟨hends, hx⟩ := h.endsIn hbelow hid hends
  obtain ⟨arrow, hget, harrow⟩ := h x hx arrow' hget'
  rw [harrow] at hkind ⊢
  exact huntyped x arrow hends hget hkind

theorem SameUpTo.keepsColon {n : NodeId} (h : SameUpTo tree tree' n)
    (hbelow : ∀ i node, tree.get? i = some node → ∀ c ∈ node.children, c < i) {node : Node}
    (hnode : ∀ c ∈ node.children, c < n) (hkeeps : tree.KeepsColon text along node) :
    tree'.KeepsColon text along node := by
  intro hkind id consequent' hchild hget' hcolon
  have hid := hnode id (Node.mem_children_of_child? hchild)
  obtain ⟨consequent, hget, hconsequent⟩ := h id hid consequent' hget'
  rw [hconsequent] at hcolon
  exact h.endsUntyped hbelow hid (hkeeps hkind id consequent hchild hget hcolon)

end Tree

end FlowErasure
