import FlowErasure.Proofs.Syntax.Changes
import FlowErasure.Proofs.Syntax.Extending

/-!
# What a change marks

Marking upwards stops at the first marked node, so which nodes it marks depends on the marks that
are there. Which nodes are marked in the end does not: those that were, and all that are met on the
way up from parent to parent, as long as every marked node is below marked ones.
-/

namespace FlowErasure

namespace Tree

variable {tree tree' : Tree} {above : Option NodeId} {id i p : NodeId} {node node' : Node}

inductive Rises (tree : Tree) : Option NodeId → NodeId → Prop
  | here (id : NodeId) : Rises tree (some id) id
  | up {id i : NodeId} (h : Rises tree (tree.parentId? id) i) : Rises tree (some id) i

theorem not_rises_none (tree : Tree) (i : NodeId) : ¬tree.Rises none i :=
  nofun

theorem rises_some_iff : tree.Rises (some id) i ↔ i = id ∨ tree.Rises (tree.parentId? id) i := by
  constructor
  · intro h
    cases h with
    | here => exact .inl rfl
    | up h => exact .inr h
  · rintro (rfl | h)
    · exact .here i
    · exact .up h

theorem Rises.tail (h : tree.Rises above i) (hp : tree.parentId? i = some p) :
    tree.Rises above p := by
  induction h with
  | here id =>
      apply Rises.up
      rw [hp]
      exact .here p
  | up _ ih => exact .up (ih hp)

theorem Rises.congr (h : tree.Rises above i) (hparent : ∀ i, tree'.parentId? i = tree.parentId? i) :
    tree'.Rises above i := by
  induction h with
  | here id => exact .here id
  | up _ ih =>
      apply Rises.up
      rwa [hparent]

theorem rises_congr (hparent : ∀ i, tree'.parentId? i = tree.parentId? i) :
    tree'.Rises above i ↔ tree.Rises above i :=
  ⟨fun h => h.congr fun i => (hparent i).symm, fun h => h.congr hparent⟩

def BelowUp (above : Option NodeId) (tree : Tree) : Prop :=
  ∀ {i p : NodeId} {node parent : Node}, tree.get? i = some node → node.marks.below →
    tree.parentId? i = some p → tree.get? p = some parent → parent.marks.below ∨ above = some p

theorem BelowUp.of_rises (h : tree.BelowUp none) (hrises : tree.Rises above i)
    (habove : ∀ a node, above = some a → tree.get? a = some node → node.marks.below)
    (hget : tree.get? i = some node) : node.marks.below := by
  induction hrises with
  | here id => exact habove id node rfl hget
  | @up id i hrises ih =>
      apply ih _ hget
      intro p parent hp hparent
      obtain ⟨child, hchild, -⟩ := Option.bind_eq_some_iff.mp hp
      exact (h hchild (habove id child rfl hchild) hp hparent).resolve_right (by simp)

theorem parentId?_eq_none (hget : tree.get? id = none) : tree.parentId? id = none := by
  simp [parentId?, hget]

theorem names_exchanged (tree : Tree) (id : NodeId) (index : Nat) (value : Slot) (field : Field) :
    (tree.exchanged id index value field).names = tree.names :=
  names_adopt tree id field value

theorem Climbs.names (h : Climbs above tree tree') : tree'.names = tree.names := by
  induction h with
  | top | missing | marked => rfl
  | mark _ _ _ ih => exact ih

theorem names_replaceSlot (tree : Tree) (id : NodeId) (index : Nat) (value : Slot) :
    (tree.replaceSlot id index value).2.names = tree.names := by
  rcases tree.replaceSlot_cases id index value with h | ⟨node, spec, h, -⟩
  · rw [h]
  · exact h.climbs.names.trans (names_exchanged ..)

theorem Climbs.below_iff (h : Climbs above tree tree') (hup : tree.BelowUp above)
    (hget : tree.get? i = some node) (hget' : tree'.get? i = some node') :
    node'.marks.below ↔ node.marks.below ∨ tree.Rises above i := by
  induction h generalizing node with
  | @top tree =>
      obtain rfl := Option.some.inj (hget.symm.trans hget')
      simp [not_rises_none]
  | @missing tree id hmissing =>
      obtain rfl := Option.some.inj (hget.symm.trans hget')
      have hid : i ≠ id := by
        rintro rfl
        rw [hmissing] at hget
        cases hget
      simp [rises_some_iff, hid, parentId?_eq_none hmissing, not_rises_none]
  | @marked tree id found hfound hbelow =>
      obtain rfl := Option.some.inj (hget.symm.trans hget')
      have hup' : tree.BelowUp none := by
        intro j p child parent hchild hmarked hp hparent
        refine .inl ((hup hchild hmarked hp hparent).elim (fun h => h) fun heq => ?_)
        rw [Option.some.inj heq, hparent] at hfound
        rwa [Option.some.inj hfound]
      refine ⟨.inl, fun h => h.elim (fun h => h) fun hrises => hup'.of_rises hrises ?_ hget⟩
      intro a other ha hother
      rw [← Option.some.inj ha, hfound] at hother
      rwa [← Option.some.inj hother]
  | @mark tree tree' id found hfound hbelow hrest ih =>
      have hparent : tree.parentId? id = found.parent.map (·.1) := by simp [parentId?, hfound]
      have hsame : ∀ j, (tree.markBelow id).parentId? j = tree.parentId? j :=
        parentId?_below tree id
      have hnext : ((tree.markBelow id).get? i).map (·.marks.below) =
          some (decide (i = id) || node.marks.below) := by
        rw [markBelow, get?_modify]
        rcases eq_or_ne i id with rfl | hi
        · simp [hget]
        · simp [hi, hget]
      obtain ⟨next, hnode, hmarks⟩ := Option.map_eq_some_iff.mp hnext
      rw [ih _ hnode hget', hmarks, rises_congr hsame, rises_some_iff, hparent]
      · simp only [Bool.or_eq_true, decide_eq_true_eq]
        tauto
      · intro j p child parent hchild hmarked hp hother
        rw [hsame] at hp
        rw [markBelow, get?_modify] at hchild hother
        by_cases hj : j = id
        · right
          rw [← hparent, ← hj, hp]
        · left
          rw [if_neg hj] at hchild
          by_cases hpid : p = id
          · obtain ⟨old, -, rfl⟩ := Option.map_eq_some_iff.mp (if_pos hpid ▸ hother)
            rfl
          · rw [if_neg hpid] at hother
            refine (hup hchild hmarked hp hother).resolve_right fun heq => ?_
            exact hpid (Option.some.inj heq).symm

end Tree

end FlowErasure
