import FlowErasure.Proofs.Syntax.Table
import Mathlib.Logic.Relation

/-!
# What can be reached from a node

The part of a table below a node is a tree when no way down comes back and no node is held in two
places. Then of two nodes above a third one is above the other, which is what keeps the parts below
two children of one node apart.
-/

namespace FlowErasure

namespace Tree

def Holds (tree : Tree) (a b : NodeId) : Prop :=
  b ∈ tree.children a

def Reaches (tree : Tree) : NodeId → NodeId → Prop :=
  Relation.ReflTransGen tree.Holds

/-- What can be reached from `root` is a tree: no cycle, and no node is held twice. -/
structure IsTreeBelow (tree : Tree) (root : NodeId) : Prop where
  acyclic : ∀ a b, tree.Reaches root a → tree.Holds a b → ¬tree.Reaches b a
  nodup : ∀ a, tree.Reaches root a → (tree.children a).Nodup
  parent : ∀ a b c, tree.Reaches root a → tree.Reaches root b → tree.Holds a c →
    tree.Holds b c → a = b

def IsAcyclicBelow (tree : Tree) (root : NodeId) : Prop :=
  ∀ a b, tree.Reaches root a → tree.Holds a b → ¬tree.Reaches b a

theorem lt_size_of_holds {tree : Tree} {a b : NodeId} (h : tree.Holds a b) : a < tree.size := by
  by_contra hle
  have hnone : tree.get? a = none := by
    simpa [get?, size] using hle
  simp [Holds, children, hnone] at h

namespace IsTreeBelow

variable {tree : Tree} {root a b c : NodeId}

theorem reaches_or_reaches (h : tree.IsTreeBelow root) (ha : tree.Reaches root a)
    (hb : tree.Reaches root b) (hac : tree.Reaches a c) (hbc : tree.Reaches b c) :
    tree.Reaches a b ∨ tree.Reaches b a := by
  induction hac with
  | refl => exact .inr hbc
  | @tail y z hay hyz ih =>
      cases hbc with
      | refl => exact .inl (hay.tail hyz)
      | @tail x _ hbx hxz =>
          have hxy : x = y := h.parent x y z (hb.trans hbx) (ha.trans hay) hxz hyz
          exact ih (hxy ▸ hbx)

/-- A child of a node cannot be reached from another child of that node. -/
theorem not_reaches_sibling (h : tree.IsTreeBelow root) (ha : tree.Reaches root a)
    (hb : tree.Holds a b) (hc : tree.Holds a c) (hne : b ≠ c) : ¬tree.Reaches b c := by
  intro hbc
  cases hbc with
  | refl => exact hne rfl
  | @tail x _ hbx hxc =>
      have hxa : x = a := h.parent x a c ((ha.tail hb).trans hbx) ha hxc hc
      exact h.acyclic a b ha hb (hxa ▸ hbx)

/-- Nothing can be reached from two children of one node. -/
theorem not_reaches_both (h : tree.IsTreeBelow root) (ha : tree.Reaches root a)
    (hb : tree.Holds a b) (hc : tree.Holds a c) (hne : b ≠ c) {x : NodeId}
    (hbx : tree.Reaches b x) : ¬tree.Reaches c x := by
  intro hcx
  rcases h.reaches_or_reaches (ha.tail hb) (ha.tail hc) hbx hcx with hbc | hcb
  · exact h.not_reaches_sibling ha hb hc hne hbc
  · exact h.not_reaches_sibling ha hc hb hne.symm hcb

end IsTreeBelow

/-- Where children come before their parents, so does everything below them. -/
theorem le_of_reaches_of_lt {tree : Tree} (hlt : ∀ a b, tree.Holds a b → b < a) {a b : NodeId}
    (hab : tree.Reaches a b) : b ≤ a := by
  induction hab with
  | refl => exact Nat.le_refl _
  | tail _ hbc ih => exact Nat.le_trans (Nat.le_of_lt (hlt _ _ hbc)) ih

theorem isAcyclicBelow_of_lt {tree : Tree} (root : NodeId)
    (hlt : ∀ a b, tree.Holds a b → b < a) : tree.IsAcyclicBelow root :=
  fun a b _ hab hba => Nat.not_lt_of_le (le_of_reaches_of_lt hlt hba) (hlt a b hab)

/-- A table in which every child comes before its parent and is held once is a tree below every
node. -/
theorem isTreeBelow_of_children_lt {tree : Tree} (root : NodeId)
    (hlt : ∀ a < tree.size, ∀ b ∈ tree.children a, b < a)
    (hnodup : ∀ a < tree.size, (tree.children a).Nodup)
    (honce : ∀ a < tree.size, ∀ b < tree.size, ∀ c ∈ tree.children a,
      c ∈ tree.children b → a = b) : tree.IsTreeBelow root where
  acyclic := isAcyclicBelow_of_lt root fun a b hab => hlt a (lt_size_of_holds hab) b hab
  nodup a _ := by
    by_cases ha : a < tree.size
    · exact hnodup a ha
    · have hnone : tree.get? a = none := by
        simpa [get?, size] using ha
      simp [children, hnone]
  parent a b c _ _ hac hbc :=
    honce a (lt_size_of_holds hac) b (lt_size_of_holds hbc) c hac hbc

end Tree

end FlowErasure
