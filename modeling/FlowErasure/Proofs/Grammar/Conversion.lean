import FlowErasure.Proofs.Frame.Answering
import FlowErasure.Proofs.Syntax.Targets

/-!
# Expressions that become targets

Turning an expression into a target appends nodes and leaves those that are there as they are, so the
expression and the target can be compared in the table in the end. Each of the three conversions keeps
this relation, if what it calls does.
-/

namespace FlowErasure

def Node.unheld (node : Node) : Node :=
  { node with parent := none }

instance : Intrinsic Node.unheld :=
  ⟨fun _ _ => rfl⟩

theorem Tree.Shows.get? {tree : Tree} {id : NodeId} {node : Node}
    (h : tree.Shows Node.unheld id node.unheld) :
    ∃ parent, tree.get? id = some { node with parent } := by
  obtain ⟨found, hget, hsame⟩ := Option.map_eq_some_iff.mp h
  refine ⟨found.parent, hget.trans (congrArg some ?_)⟩
  cases found
  cases node
  simp only [Node.unheld, Node.mk.injEq] at hsame ⊢
  simp [hsame]

namespace Grammar

variable {final : Tree} {c : Context}

/-- If the first node is an expression in its place, the second is the target made of it. -/
def Turns (final : Tree) (place : Place) (id id' : NodeId) : Prop :=
  final.IsExpression place id → final.IsPattern place id' ∧ final.Becomes id id'

abbrev TurnsTargets (final : Tree) (c : Context) (convert : NodeId → Parser NodeId) : Prop :=
  ∀ id, AnswersIn Node.unheld final c (convert id) fun t => ∀ place, Turns final place id t

abbrev TurnsParts (final : Tree) (c : Context) (convert : NodeId → Parser NodeId) : Prop :=
  ∀ id, AnswersIn Node.unheld final c (convert id) fun t =>
    ∀ place, place ≠ .target → Turns final place id t

abbrev rebuilt (node : Node) (kind : NodeKind) (flags : NodeFlags) (slots : List Slot)
    (parent : Option (NodeId × Field)) : Node :=
  { kind, start := node.start, stop := node.stop, flags, parent
    slots := Tree.fitSlots kind slots }

namespace AnswersIn

theorem node {id : NodeId} {R : NodeId → Prop} {rest : Node → Parser NodeId}
    (hrest : ∀ node parent, AnswersIn Node.unheld final c (rest node) fun t =>
      final.get? id = some { node with parent } → R t) :
    AnswersIn Node.unheld final c (do
      let some node ← Grammar.getNode? id | failTarget id
      rest node) R := by
  apply found
  intro node s t s' hrun hgrows
  have hrest := fun parent => hrest node parent s t s' hrun hgrows
  refine ⟨(hrest none).1, fun hshows => ?_⟩
  obtain ⟨parent, hget⟩ := hshows.get?
  exact (hrest parent).2 hget

theorem rebuild {node : Node} {kind : NodeKind} {flags : NodeFlags} {slots : List Slot} :
    AnswersIn Node.unheld final c (rebuild node kind flags slots) fun id => ∃ parent,
      final.get? id = some (rebuilt node kind flags slots parent) :=
  (addNode _).mono fun _ hid => hid.get?

end AnswersIn

/-! ## Lists -/

/-- What becomes of one place in a list. A hole stays one, where there may be `holes`. -/
def TurnsAt (final : Tree) (place : Place) (holes : Prop) : Option NodeId → Option NodeId → Prop
  | none, none => holes
  | some a, some b => Turns final place a b
  | _, _ => False

section Lists

variable {place : Place} {holes : Prop} {nodes nodes' : List (Option NodeId)}
  (h : List.Forall₂ (TurnsAt final place holes) nodes nodes')

include h

theorem sameHoles_of_turns : Tree.SameHoles nodes nodes' := by
  induction h with
  | nil => rfl
  | @cons node node' nodes nodes' hnode _ ih =>
      have hhole : node'.isNone = node.isNone := by
        cases node <;> cases node' <;> first | rfl | exact hnode.elim
      unfold Tree.SameHoles at ih ⊢
      rw [List.map_cons, List.map_cons, ih, hhole]

theorem holes_of_mem (hmem : none ∈ nodes') : holes := by
  induction h with
  | nil => cases hmem
  | @cons node node' nodes nodes' hnode _ ih =>
      rcases List.mem_cons.mp hmem with rfl | hmem
      · cases node with
        | none => exact hnode
        | some a => exact hnode.elim
      · exact ih hmem

/-- Nodes that are expressions in their places become patterns there. -/
theorem isPattern_of_turns (hnodes : ∀ a, some a ∈ nodes → final.IsExpression place a) :
    ∀ b, some b ∈ nodes' → final.IsPattern place b := by
  intro b hb
  induction h with
  | nil => cases hb
  | @cons node node' nodes nodes' hnode _ ih =>
      rcases List.mem_cons.mp hb with rfl | hb
      · cases node with
        | none => exact hnode.elim
        | some a => exact (hnode (hnodes a List.mem_cons_self)).1
      · exact ih (fun a ha => hnodes a (List.mem_cons_of_mem _ ha)) hb

theorem becomes_of_turns (hnodes : ∀ a, some a ∈ nodes → final.IsExpression place a) :
    ∀ a b, (some a, some b) ∈ nodes.zip nodes' → final.Becomes a b := by
  intro a b hmem
  have hturns : Turns final place a b := (List.forall₂_iff_zip.mp h).2 hmem
  exact (hturns (hnodes a (List.of_mem_zip hmem).1)).2

end Lists

theorem turns_mapM (place : Place) (hplace : place ≠ .target) (holes : Prop)
    {convert : NodeId → Parser NodeId} {hole : Parser (Option NodeId)}
    (hconvert : TurnsParts final c convert)
    (hhole : AnswersIn Node.unheld final c hole fun a => a = none ∧ holes)
    (nodes : List (Option NodeId)) :
    AnswersIn Node.unheld final c (nodes.mapM fun
      | none => hole
      | some element => some <$> convert element)
      (List.Forall₂ (TurnsAt final place holes) nodes) := by
  apply AnswersIn.mapM
  intro node
  cases node with
  | none =>
      apply hhole.mono
      rintro a ⟨rfl, hholes⟩
      exact hholes
  | some element => exact (hconvert element).map fun t ht => ht place hplace

/-! ## Nodes -/

section Nodes

variable {id t : NodeId} {node : Node} {parent parent' : Option (NodeId × Field)} {place : Place}

/-- A place for defaults, if it is one for targets and not for whole targets alone. -/
theorem allowsDefault_of_ne (hallowed : place.allowsTarget) (hne : place ≠ .target) :
    place.allowsDefault := by
  cases place <;> simp_all [Place.allowsTarget, Place.allowsDefault]

variable (hget : final.get? id = some { node with parent })

include hget

/-- Names and members are targets as they are, and patterns are no expressions. -/
theorem turns_same (hkind : node.kind = .identifier ∨ node.kind = .memberExpression ∨
    node.kind = .objectPattern ∨ node.kind = .arrayPattern) : Turns final place id id := by
  intro hexpression
  have hnode := hexpression.node hget
  rcases hkind with hkind | hkind | hkind | hkind <;>
    simp only [Tree.IsExpressionNode, hkind] at hnode
  · exact ⟨.name hnode hget (.inl hkind), .same id⟩
  · exact ⟨.name hnode hget (.inr hkind), .same id⟩

theorem turns_assignmentPattern (hkind : node.kind = .assignmentPattern) :
    Turns final place id id := by
  intro hexpression
  have hnode := hexpression.node hget
  simp only [Tree.IsExpressionNode, hkind] at hnode
  obtain ⟨hallowed, left, hslot, hleft⟩ := hnode
  exact ⟨.default hallowed hget hkind (by simpa [Node.slot?, hkind] using hslot) hleft, .same id⟩

theorem turns_assignment (hkind : node.kind = .assignmentExpression) (hequals : node.token = .equals)
    (hget' : final.get? t = some (rebuilt node .assignmentPattern {} node.slots parent'))
    (hplace : place ≠ .target) : Turns final place id t := by
  intro hexpression
  have hnode := hexpression.node hget
  simp only [Tree.IsExpressionNode, hkind] at hnode
  obtain ⟨hallowed, left, right, hslots, hleft⟩ := hnode
  have hfit : Tree.fitSlots .assignmentPattern node.slots = node.slots := by
    rw [hslots]
    rfl
  have hslots' : (rebuilt node .assignmentPattern {} node.slots parent').slots =
      [.node left, right] := hfit.trans hslots
  have hslot : (rebuilt node .assignmentPattern {} node.slots parent').slot? .left =
      some (.node left) := by
    rw [Node.slot?, hslots']
    rfl
  exact ⟨.default (allowsDefault_of_ne hallowed hplace) hget' rfl hslot (hleft hequals),
    .default ⟨hget, hget', rfl, rfl⟩ hkind rfl hfit⟩

theorem turns_spread {argument argument' : NodeId} (hkind : node.kind = .spreadElement)
    (hargument : (node.slot? .argument).bind Slot.node? = some argument)
    (hget' : final.get? t = some (rebuilt node .restElement {} [.node argument'] parent'))
    (hturns : Turns final .target argument argument') : Turns final place id t := by
  intro hexpression
  have hnode := hexpression.node hget
  simp only [Tree.IsExpressionNode, hkind] at hnode
  obtain ⟨hallowed, old, hslots, hold⟩ := hnode
  have hslot : node.slot? .argument = some (.node old) := by
    rw [Node.slot?, hkind, hslots]
    rfl
  obtain rfl : old = argument := by simpa [hslot, Slot.node?] using hargument
  obtain ⟨hpattern, hbecomes⟩ := hturns hold
  exact ⟨.rest hallowed hget' rfl rfl hpattern,
    .rest ⟨hget, hget', rfl, rfl⟩ hkind rfl hslot rfl hbecomes⟩

theorem turns_property {value value' : NodeId} (hkind : node.kind = .property)
    (hvalue : (node.slot? .value).bind Slot.node? = some value)
    (hget' : final.get? t = some
      (rebuilt node .property node.flags [(node.slot? .key).getD .absent, .node value'] parent'))
    (hturns : Turns final .value value value') : Turns final place id t := by
  intro hexpression
  have hnode := hexpression.node hget
  simp only [Tree.IsExpressionNode, hkind] at hnode
  obtain ⟨rfl, key, old, hslots, hold⟩ := hnode
  have hkey : node.slot? .key = some key := by
    rw [Node.slot?, hkind, hslots]
    rfl
  have hslot : node.slot? .value = some (.node old) := by
    rw [Node.slot?, hkind, hslots]
    rfl
  obtain rfl : old = value := by simpa [hslot, Slot.node?] using hvalue
  obtain ⟨hpattern, hbecomes⟩ := hturns hold
  rw [hkey] at hget'
  exact ⟨.property hget' rfl rfl hpattern,
    .property ⟨hget, hget', rfl, rfl⟩ hkind rfl rfl hkey.symm hslot rfl hbecomes⟩

variable {items : NodeList} {nodes : List (Option NodeId)}

theorem turns_array (hkind : node.kind = .arrayExpression)
    (hitems : (node.slot? .elements).bind Slot.list? = some items)
    (hget' : final.get? t = some
      (rebuilt node .arrayPattern {} [.list { items with nodes }] parent'))
    (hturns : List.Forall₂ (TurnsAt final .element True) items.nodes nodes) :
    Turns final place id t := by
  intro hexpression
  have hnode := hexpression.node hget
  simp only [Tree.IsExpressionNode, hkind] at hnode
  obtain ⟨hallowed, old, hslots, hold⟩ := hnode
  have hslot : node.slot? .elements = some (.list old) := by
    rw [Node.slot?, hkind, hslots]
    rfl
  obtain rfl : old = items := by simpa [hslot, Slot.list?] using hitems
  exact ⟨.array hallowed hget' rfl rfl (isPattern_of_turns hturns hold),
    .array ⟨hget, hget', rfl, rfl⟩ hkind rfl hslot rfl (sameHoles_of_turns hturns)
      (becomes_of_turns hturns hold)⟩

theorem turns_object (hkind : node.kind = .objectExpression)
    (hitems : (node.slot? .properties).bind Slot.list? = some items)
    (hget' : final.get? t = some
      (rebuilt node .objectPattern {} [.list { items with nodes }] parent'))
    (hturns : List.Forall₂ (TurnsAt final .property False) items.nodes nodes) :
    Turns final place id t := by
  intro hexpression
  have hnode := hexpression.node hget
  simp only [Tree.IsExpressionNode, hkind] at hnode
  obtain ⟨hallowed, old, hslots, hold⟩ := hnode
  have hslot : node.slot? .properties = some (.list old) := by
    rw [Node.slot?, hkind, hslots]
    rfl
  obtain rfl : old = items := by simpa [hslot, Slot.list?] using hitems
  exact ⟨.object hallowed hget' rfl rfl (fun hmem => holes_of_mem hturns hmem)
      (isPattern_of_turns hturns hold),
    .object ⟨hget, hget', rfl, rfl⟩ hkind rfl hslot rfl (sameHoles_of_turns hturns)
      (becomes_of_turns hturns hold)⟩

end Nodes

/-! ## The conversions -/

variable {target : NodeId → Parser NodeId}

theorem turns_patternElement (htarget : TurnsTargets final c target) :
    TurnsParts final c (patternElement target) := by
  intro id
  have hwhole : AnswersIn Node.unheld final c (target id) fun t =>
      ∀ place, place ≠ .target → Turns final place id t :=
    (htarget id).mono fun t ht place _ => ht place
  apply AnswersIn.node
  intro node parent
  split
  · rename_i hkind
    split
    · rename_i argument hargument
      apply (htarget argument).bind
      intro argument'
      apply AnswersIn.rebuild.mono
      rintro t ⟨parent', hget'⟩ hturns hget place -
      exact turns_spread hget hkind hargument hget' (hturns .target)
    · exact .fail
  · rename_i hkind
    split
    · rename_i hequals
      apply AnswersIn.rebuild.mono
      rintro t ⟨parent', hget'⟩ hget place hplace
      exact turns_assignment hget hkind (beq_iff_eq.mp hequals) hget' hplace
    · exact hwhole.mono fun t ht _ => ht
  · rename_i hkind
    exact .pure fun hget place _ => turns_assignmentPattern hget hkind
  · exact hwhole.mono fun t ht _ => ht

theorem turns_patternProperty (htarget : TurnsTargets final c target) :
    TurnsParts final c (patternProperty target) := by
  intro id
  apply AnswersIn.node
  intro node parent
  split
  · exact (turns_patternElement htarget id).mono fun t ht _ => ht
  · rename_i hkind
    apply AnswersIn.when
    split
    · rename_i value hvalue
      apply (turns_patternElement htarget value).bind
      intro value'
      apply AnswersIn.rebuild.mono
      rintro t ⟨parent', hget'⟩ hturns hget place -
      exact turns_property hget hkind hvalue hget' (hturns .value (by decide))
    · exact .fail
  · exact .fail

theorem turns_assignmentTargetWithin (bound : Nat) :
    TurnsTargets final c (assignmentTargetWithin bound) := by
  intro id
  induction bound generalizing id with
  | zero => exact .fail (p := failTarget id)
  | succ bound ih =>
      apply AnswersIn.node
      intro node parent
      split
      · rename_i hkind
        exact .pure fun hget place => turns_same hget (.inl hkind)
      · rename_i hkind
        exact .pure fun hget place => turns_same hget (.inr (.inl hkind))
      · rename_i hkind
        exact .pure fun hget place => turns_same hget (.inr (.inr (.inl hkind)))
      · rename_i hkind
        exact .pure fun hget place => turns_same hget (.inr (.inr (.inr hkind)))
      · rename_i hkind
        split
        · rename_i items hitems
          apply (turns_mapM .property (by decide) False (turns_patternProperty ih) .fail _).bind
          intro nodes
          apply AnswersIn.rebuild.mono
          rintro t ⟨parent', hget'⟩ hturns hget place
          exact turns_object hget hkind hitems hget' hturns
        · exact .fail
      · rename_i hkind
        split
        · rename_i items hitems
          apply (turns_mapM .element (by decide) True (turns_patternElement ih)
            (.pure ⟨rfl, trivial⟩) _).bind
          intro nodes
          apply AnswersIn.rebuild.mono
          rintro t ⟨parent', hget'⟩ hturns hget place
          exact turns_array hget hkind hitems hget' hturns
        · exact .fail
      · exact .fail

/-- Whatever is turned into a target keeps its shape, if it is an expression. -/
theorem turns_assignmentTarget : TurnsTargets final c assignmentTarget :=
  fun id => turns_assignmentTargetWithin (id + 1) id

end Grammar

end FlowErasure
