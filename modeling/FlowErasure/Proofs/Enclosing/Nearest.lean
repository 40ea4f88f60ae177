import FlowErasure.Proofs.Frame.Answering
import FlowErasure.Proofs.Syntax.Reach

/-!
# The function around a node

Where `await` and `yield` are operators depends on the nearest function alone. `NearestFunction` looks
for that function among the nodes above; `Permits` goes the other way, from a node down to everything
in it, and decides anew at each function which operators may stand inside. The two meet in
`Permits.nearest`: what is allowed at a node is what the nearest function allows.
-/

namespace FlowErasure

def NodeKind.isFunction : NodeKind → Bool
  | .functionDeclaration | .functionExpression | .arrowFunctionExpression => true
  | _ => false

def NodeKind.isNeutral : NodeKind → Bool
  | .awaitExpression | .yieldExpression => false
  | kind => !kind.isFunction

structure Operators where
  await : Bool
  yield : Bool

namespace Operators

/-- Outside of all functions there is neither. -/
def none : Operators :=
  ⟨false, false⟩

/-- The operators in a function. No arrow function is a generator. -/
def ofFunction (kind : NodeKind) (flags : NodeFlags) : Operators :=
  ⟨flags.async, kind != .arrowFunctionExpression && flags.generator⟩

theorem ofFunction_of_ne {kind : NodeKind} (hkind : kind ≠ .arrowFunctionExpression)
    (flags : NodeFlags) : ofFunction kind flags = ⟨flags.async, flags.generator⟩ := by
  simp [ofFunction, hkind]

def within (around : Operators) (kind : NodeKind) (flags : NodeFlags) : Operators :=
  if kind.isFunction then ofFunction kind flags else around

def admits (around : Operators) : NodeKind → Bool
  | .awaitExpression => around.await
  | .yieldExpression => around.yield
  | _ => true

theorem of_isNeutral (around : Operators) {kind : NodeKind} (flags : NodeFlags)
    (h : kind.isNeutral) : around.admits kind ∧ around.within kind flags = around := by
  cases kind <;> first | exact ⟨rfl, rfl⟩ | cases h

end Operators

/-- What decides which operators may stand in a node. -/
def Node.content (node : Node) : NodeKind × List Slot × NodeFlags :=
  (node.kind, node.slots, node.flags)

instance : Intrinsic Node.content :=
  ⟨fun _ _ => rfl⟩

namespace Tree

variable {tree : Tree} {root a b f g id : NodeId} {ids ids' : List NodeId} {around : Operators}
  {node : Node}

structure Encloses (tree : Tree) (f id : NodeId) : Prop where
  isFunction : ∃ node, tree.get? f = some node ∧ node.kind.isFunction
  ne : f ≠ id
  reaches : tree.Reaches f id

/-- The nearest function around a node: all the others are around that function too. -/
structure NearestFunction (tree : Tree) (root f id : NodeId) : Prop where
  reached : tree.Reaches root f
  encloses : tree.Encloses f id
  nearest : ∀ g, tree.Reaches root g → tree.Encloses g id → tree.Reaches g f

/-- The operators may stand at the node, and those in it may stand where they do. -/
inductive Permits (tree : Tree) : Operators → NodeId → Prop
  | intro {around : Operators} {id : NodeId} {kind : NodeKind} {slots : List Slot}
      {flags : NodeFlags} (shows : tree.Shows Node.content id (kind, slots, flags))
      (admitted : around.admits kind)
      (parts : ∀ child ∈ slots.flatMap Slot.children,
        tree.Permits (around.within kind flags) child) : tree.Permits around id

def AllPermit (tree : Tree) (around : Operators) (ids : List NodeId) : Prop :=
  ∀ id ∈ ids, tree.Permits around id

@[simp] theorem allPermit_nil : tree.AllPermit around [] := by
  simp [AllPermit]

@[simp] theorem allPermit_cons :
    tree.AllPermit around (id :: ids) ↔ tree.Permits around id ∧ tree.AllPermit around ids := by
  simp [AllPermit]

@[simp] theorem allPermit_append : tree.AllPermit around (ids ++ ids') ↔
    tree.AllPermit around ids ∧ tree.AllPermit around ids' := by
  simp [AllPermit, or_imp, forall_and]

@[simp] theorem allPermit_reverse :
    tree.AllPermit around ids.reverse ↔ tree.AllPermit around ids := by
  simp [AllPermit]

namespace Permits

theorem of_content {kind : NodeKind} {slots : List Slot} {flags : NodeFlags}
    (hshows : tree.Shows Node.content id (kind, fitSlots kind slots, flags))
    (hadmits : around.admits kind)
    (hparts : tree.AllPermit (around.within kind flags) (slots.flatMap Slot.children)) :
    tree.Permits around id := by
  refine .intro hshows hadmits fun child hchild => hparts child ?_
  obtain ⟨slot, hslot, hchild⟩ := List.mem_flatMap.mp hchild
  -- The slots that are filled up hold nothing.
  rcases List.mem_append.mp (List.mem_of_mem_take hslot) with hslot | hslot
  · exact List.mem_flatMap.mpr ⟨slot, hslot, hchild⟩
  · rw [List.eq_of_mem_replicate hslot] at hchild
    cases hchild

theorem of_get? (h : tree.Permits around id) (hget : tree.get? id = some node) :
    around.admits node.kind ∧ tree.AllPermit (around.within node.kind node.flags) node.children := by
  cases h with
  | intro shows admitted parts =>
      rw [Shows, hget] at shows
      cases shows
      exact ⟨admitted, parts⟩

theorem of_holds (h : tree.Permits around a) (hget : tree.get? a = some node)
    (hab : tree.Holds a b) : tree.Permits (around.within node.kind node.flags) b := by
  apply (h.of_get? hget).2
  rwa [Holds, children_of_get? hget] at hab

end Permits

/-! ## Nearest functions -/

theorem NearestFunction.eq (htree : tree.IsTreeBelow root) (hf : tree.NearestFunction root f id)
    (hg : tree.NearestFunction root g id) : f = g := by
  have hfg : tree.Reaches f g := hg.nearest f hf.reached hf.encloses
  have hgf : tree.Reaches g f := hf.nearest g hg.reached hg.encloses
  by_contra hne
  obtain ⟨b, hholds, hreaches⟩ := (Relation.ReflTransGen.cases_head hfg).resolve_left hne
  exact htree.acyclic f b hf.reached hholds (hreaches.trans hgf)

section Step

variable (htree : tree.IsTreeBelow root) (ha : tree.Reaches root a) (hab : tree.Holds a b)

include htree ha hab

theorem reaches_of_encloses (hg : tree.Reaches root g) (h : tree.Encloses g b) :
    tree.Reaches g a := by
  rcases Relation.ReflTransGen.cases_tail h.reaches with heq | ⟨x, hgx, hxb⟩
  · exact absurd heq.symm h.ne
  · obtain rfl : x = a := htree.parent x a b (hg.trans hgx) ha hxb hab
    exact hgx

/-- The parts of a function have this function as the nearest. -/
theorem nearestFunction_of_isFunction (hget : tree.get? a = some node)
    (hfunction : node.kind.isFunction) : tree.NearestFunction root a b where
  reached := ha
  encloses :=
    { isFunction := ⟨node, hget, hfunction⟩
      ne := fun heq => htree.acyclic a b ha hab (heq ▸ .refl)
      reaches := .single hab }
  nearest _ hg henclosed := reaches_of_encloses htree ha hab hg henclosed

variable (hget : tree.get? a = some node) (hother : node.kind.isFunction = false)

include hget hother

theorem encloses_of_not_isFunction (hg : tree.Reaches root g) (h : tree.Encloses g b) :
    tree.Encloses g a where
  isFunction := h.isFunction
  ne := by
    rintro rfl
    obtain ⟨node', hget', hfunction⟩ := h.isFunction
    obtain rfl := Option.some.inj (hget.symm.trans hget')
    exact absurd hfunction (by simp [hother])
  reaches := reaches_of_encloses htree ha hab hg h

/-- The parts of any other node have the nearest function of the node. -/
theorem nearestFunction_of_not_isFunction (hf : tree.NearestFunction root f a) :
    tree.NearestFunction root f b where
  reached := hf.reached
  encloses :=
    { isFunction := hf.encloses.isFunction
      ne := fun heq => htree.acyclic a b ha hab (heq ▸ hf.encloses.reaches)
      reaches := hf.encloses.reaches.tail hab }
  nearest g hg henclosed :=
    hf.nearest g hg (encloses_of_not_isFunction htree ha hab hget hother hg henclosed)

end Step

/-- At a node below the root, the operators may stand that its nearest function allows, if there is
one, and otherwise those that may stand at the root. -/
theorem Permits.nearest (htree : tree.IsTreeBelow root) (hroot : tree.Permits around root)
    (hid : tree.Reaches root id) :
    (∃ f function, tree.NearestFunction root f id ∧ tree.get? f = some function ∧
      tree.Permits (.ofFunction function.kind function.flags) id) ∨
    ((∀ g, tree.Reaches root g → ¬tree.Encloses g id) ∧ tree.Permits around id) := by
  induction hid with
  | refl =>
      refine .inr ⟨fun g hg h => ?_, hroot⟩
      obtain ⟨b, hholds, hreaches⟩ := (Relation.ReflTransGen.cases_head hg).resolve_left h.ne.symm
      exact htree.acyclic root b .refl hholds (hreaches.trans h.reaches)
  | @tail a b ha hab ih =>
      obtain ⟨node, hget, -⟩ := exists_get?_of_holds hab
      cases hfunction : node.kind.isFunction with
      | true =>
          have hnearest := nearestFunction_of_isFunction htree ha hab hget hfunction
          have hpermits : tree.Permits (.ofFunction node.kind node.flags) b := by
            rcases ih with ⟨f, function, -, -, hpermits⟩ | ⟨-, hpermits⟩
            · simpa [Operators.within, hfunction] using hpermits.of_holds hget hab
            · simpa [Operators.within, hfunction] using hpermits.of_holds hget hab
          exact .inl ⟨a, node, hnearest, hget, hpermits⟩
      | false =>
          rcases ih with ⟨f, function, hnearest, hf, hpermits⟩ | ⟨hnone, hpermits⟩
          · have hpermits := hpermits.of_holds hget hab
            refine .inl ⟨f, function, ?_, hf, by simpa [Operators.within, hfunction] using hpermits⟩
            exact nearestFunction_of_not_isFunction htree ha hab hget hfunction hnearest
          · have hpermits := hpermits.of_holds hget hab
            refine .inr ⟨fun g hg h => ?_, by simpa [Operators.within, hfunction] using hpermits⟩
            exact hnone g hg (encloses_of_not_isFunction htree ha hab hget hfunction hg h)

end Tree

end FlowErasure
