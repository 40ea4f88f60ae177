import FlowErasure.Proofs.Syntax.Coverage

/-!
# Assignment targets and the expressions they come from

A target is a name, a member, or a pattern of targets, some of which may have defaults. It is made of
an expression that has been read before: literals become patterns, spreads become rest elements, and
assignments become defaults, each at its place and with the range it had.
-/

namespace FlowErasure

inductive Place where
  /-- What is assigned to. -/
  | target
  /-- The value of a property. -/
  | value
  /-- In an array pattern. -/
  | element
  /-- In an object pattern. -/
  | property
  deriving DecidableEq

namespace Place

def allowsTarget (place : Place) : Bool :=
  place != .property

def allowsDefault (place : Place) : Bool :=
  place == .value || place == .element

def allowsRest (place : Place) : Bool :=
  place == .element || place == .property

end Place

namespace Tree

/-! ## Targets -/

/-- A target that is a pattern all the way down, or a part of one. -/
inductive IsPattern (tree : Tree) : Place → NodeId → Prop
  | name {place : Place} {id : NodeId} {node : Node} (allowed : place.allowsTarget)
      (get : tree.get? id = some node)
      (kind : node.kind = .identifier ∨ node.kind = .memberExpression) : IsPattern tree place id
  | array {place : Place} {id : NodeId} {node : Node} {items : NodeList}
      (allowed : place.allowsTarget) (get : tree.get? id = some node)
      (kind : node.kind = .arrayPattern) (slot : node.slot? .elements = some (.list items))
      (elements : ∀ element, some element ∈ items.nodes → IsPattern tree .element element) :
      IsPattern tree place id
  | object {place : Place} {id : NodeId} {node : Node} {items : NodeList}
      (allowed : place.allowsTarget) (get : tree.get? id = some node)
      (kind : node.kind = .objectPattern) (slot : node.slot? .properties = some (.list items))
      (whole : none ∉ items.nodes)
      (properties : ∀ property, some property ∈ items.nodes → IsPattern tree .property property) :
      IsPattern tree place id
  | default {place : Place} {id left : NodeId} {node : Node} (allowed : place.allowsDefault)
      (get : tree.get? id = some node) (kind : node.kind = .assignmentPattern)
      (slot : node.slot? .left = some (.node left)) (target : IsPattern tree .target left) :
      IsPattern tree place id
  | rest {place : Place} {id argument : NodeId} {node : Node} (allowed : place.allowsRest)
      (get : tree.get? id = some node) (kind : node.kind = .restElement)
      (slot : node.slot? .argument = some (.node argument))
      (target : IsPattern tree .target argument) : IsPattern tree place id
  | property {id value : NodeId} {node : Node} (get : tree.get? id = some node)
      (kind : node.kind = .property) (slot : node.slot? .value = some (.node value))
      (plain : IsPattern tree .value value) : IsPattern tree .property id

/-! ## Expressions -/

/-- An expression as it has been read, as far as a target may be made of it, or a part of one. What an
assignment assigns to is a target already, and so is a name with a default in an object. -/
inductive IsExpression (tree : Tree) : Place → NodeId → Prop
  | other {place : Place} {id : NodeId} {node : Node} (allowed : place.allowsTarget)
      (get : tree.get? id = some node)
      (kind : node.kind.pattern? = none ∧ node.kind.isPattern = false) : IsExpression tree place id
  | array {place : Place} {id : NodeId} {node : Node} {items : NodeList}
      (allowed : place.allowsTarget) (get : tree.get? id = some node)
      (kind : node.kind = .arrayExpression) (slots : node.slots = [.list items])
      (elements : ∀ element, some element ∈ items.nodes → IsExpression tree .element element) :
      IsExpression tree place id
  | object {place : Place} {id : NodeId} {node : Node} {items : NodeList}
      (allowed : place.allowsTarget) (get : tree.get? id = some node)
      (kind : node.kind = .objectExpression) (slots : node.slots = [.list items])
      (properties : ∀ property, some property ∈ items.nodes → IsExpression tree .property property) :
      IsExpression tree place id
  | assignment {place : Place} {id left : NodeId} {node : Node} {right : Slot}
      (allowed : place.allowsTarget) (get : tree.get? id = some node)
      (kind : node.kind = .assignmentExpression) (slots : node.slots = [.node left, right])
      (target : node.token = .equals → tree.IsPattern .target left) : IsExpression tree place id
  | default {place : Place} {id left : NodeId} {node : Node} (allowed : place.allowsDefault)
      (get : tree.get? id = some node) (kind : node.kind = .assignmentPattern)
      (slot : node.slot? .left = some (.node left)) (target : tree.IsPattern .target left) :
      IsExpression tree place id
  | spread {place : Place} {id argument : NodeId} {node : Node} (allowed : place.allowsRest)
      (get : tree.get? id = some node) (kind : node.kind = .spreadElement)
      (slots : node.slots = [.node argument]) (target : IsExpression tree .target argument) :
      IsExpression tree place id
  | property {id value : NodeId} {node : Node} {key : Slot} (get : tree.get? id = some node)
      (kind : node.kind = .property) (slots : node.slots = [key, .node value])
      (plain : IsExpression tree .value value) : IsExpression tree .property id

def IsExpressionNode (tree : Tree) (place : Place) (node : Node) : Prop :=
  match node.kind with
  | .arrayExpression => place.allowsTarget ∧ ∃ items, node.slots = [.list items] ∧
      ∀ element, some element ∈ items.nodes → tree.IsExpression .element element
  | .objectExpression => place.allowsTarget ∧ ∃ items, node.slots = [.list items] ∧
      ∀ property, some property ∈ items.nodes → tree.IsExpression .property property
  | .assignmentExpression => place.allowsTarget ∧ ∃ left right, node.slots = [.node left, right] ∧
      (node.token = .equals → tree.IsPattern .target left)
  | .assignmentPattern => place.allowsDefault ∧ ∃ left, node.slot? .left = some (.node left) ∧
      tree.IsPattern .target left
  | .spreadElement => place.allowsRest ∧ ∃ argument, node.slots = [.node argument] ∧
      tree.IsExpression .target argument
  | .property => place = .property ∧ ∃ key value, node.slots = [key, .node value] ∧
      tree.IsExpression .value value
  | .objectPattern | .arrayPattern | .restElement => False
  | _ => place.allowsTarget

theorem IsExpression.node {tree : Tree} {place : Place} {id : NodeId} {node : Node}
    (h : tree.IsExpression place id) (hget : tree.get? id = some node) :
    tree.IsExpressionNode place node := by
  unfold IsExpressionNode
  cases h with
  | other allowed get kind =>
      obtain rfl := Option.some.inj (get.symm.trans hget)
      obtain ⟨hpattern, hother⟩ := kind
      split <;> simp_all [NodeKind.pattern?, NodeKind.isPattern]
  | array allowed get kind slots elements =>
      obtain rfl := Option.some.inj (get.symm.trans hget)
      rw [kind]
      exact ⟨allowed, _, slots, elements⟩
  | object allowed get kind slots properties =>
      obtain rfl := Option.some.inj (get.symm.trans hget)
      rw [kind]
      exact ⟨allowed, _, slots, properties⟩
  | assignment allowed get kind slots target =>
      obtain rfl := Option.some.inj (get.symm.trans hget)
      rw [kind]
      exact ⟨allowed, _, _, slots, target⟩
  | default allowed get kind slot target =>
      obtain rfl := Option.some.inj (get.symm.trans hget)
      rw [kind]
      exact ⟨allowed, _, slot, target⟩
  | spread allowed get kind slots target =>
      obtain rfl := Option.some.inj (get.symm.trans hget)
      rw [kind]
      exact ⟨allowed, _, slots, target⟩
  | property get kind slots plain =>
      obtain rfl := Option.some.inj (get.symm.trans hget)
      rw [kind]
      exact ⟨rfl, _, _, slots, plain⟩

theorem IsExpression.exists_get? {tree : Tree} {place : Place} {id : NodeId}
    (h : tree.IsExpression place id) : ∃ node, tree.get? id = some node := by
  cases h <;> exact ⟨_, ‹tree.get? id = some _›⟩

/-! ## What becomes of an expression -/

structure Rereads (tree : Tree) (id id' : NodeId) (node node' : Node) : Prop where
  get : tree.get? id = some node
  get' : tree.get? id' = some node'
  start : node'.start = node.start
  stop : node'.stop = node.stop

/-- The second list has as many elements, and holes at the same places. -/
def SameHoles (nodes nodes' : List (Option NodeId)) : Prop :=
  nodes'.map Option.isNone = nodes.map Option.isNone

/-- The second node is the target that the first has become, level by level. -/
inductive Becomes (tree : Tree) : NodeId → NodeId → Prop
  | same (id : NodeId) : Becomes tree id id
  | array {id id' : NodeId} {node node' : Node} {items : NodeList} {nodes : List (Option NodeId)}
      (rereads : tree.Rereads id id' node node')
      (kind : node.kind = .arrayExpression) (kind' : node'.kind = .arrayPattern)
      (slot : node.slot? .elements = some (.list items))
      (slot' : node'.slot? .elements = some (.list { items with nodes }))
      (holes : SameHoles items.nodes nodes)
      (elements : ∀ a b, (some a, some b) ∈ items.nodes.zip nodes → Becomes tree a b) :
      Becomes tree id id'
  | object {id id' : NodeId} {node node' : Node} {items : NodeList} {nodes : List (Option NodeId)}
      (rereads : tree.Rereads id id' node node')
      (kind : node.kind = .objectExpression) (kind' : node'.kind = .objectPattern)
      (slot : node.slot? .properties = some (.list items))
      (slot' : node'.slot? .properties = some (.list { items with nodes }))
      (holes : SameHoles items.nodes nodes)
      (properties : ∀ a b, (some a, some b) ∈ items.nodes.zip nodes → Becomes tree a b) :
      Becomes tree id id'
  | default {id id' : NodeId} {node node' : Node} (rereads : tree.Rereads id id' node node')
      (kind : node.kind = .assignmentExpression) (kind' : node'.kind = .assignmentPattern)
      (slots : node'.slots = node.slots) : Becomes tree id id'
  | rest {id id' argument argument' : NodeId} {node node' : Node}
      (rereads : tree.Rereads id id' node node')
      (kind : node.kind = .spreadElement) (kind' : node'.kind = .restElement)
      (slot : node.slot? .argument = some (.node argument))
      (slot' : node'.slot? .argument = some (.node argument'))
      (becomes : Becomes tree argument argument') : Becomes tree id id'
  | property {id id' value value' : NodeId} {node node' : Node}
      (rereads : tree.Rereads id id' node node')
      (kind : node.kind = .property) (kind' : node'.kind = .property)
      (flags : node'.flags = node.flags) (key : node'.slot? .key = node.slot? .key)
      (slot : node.slot? .value = some (.node value))
      (slot' : node'.slot? .value = some (.node value'))
      (becomes : Becomes tree value value') : Becomes tree id id'

theorem Rereads.range? {tree : Tree} {id id' : NodeId} {node node' : Node}
    (h : tree.Rereads id id' node node') : tree.range? id' = tree.range? id := by
  simp [Tree.range?, face?, h.get, h.get', Node.face, h.start, h.stop]

theorem Becomes.range? {tree : Tree} {id id' : NodeId} (h : tree.Becomes id id') :
    tree.range? id' = tree.range? id := by
  cases h with
  | same => rfl
  | array rereads => exact rereads.range?
  | object rereads => exact rereads.range?
  | default rereads => exact rereads.range?
  | rest rereads => exact rereads.range?
  | property rereads => exact rereads.range?

end Tree

end FlowErasure
