import FlowErasure.Proofs.Syntax.Reach
import Mathlib.Data.List.Nodup
import Mathlib.Data.List.Perm.Subperm

/-!
# Nodes in pre-order

`Tree.descendants` reads as many levels below a node as the table is long. Where no way down comes back
that is enough: a way down meets no node twice, so it ends before the levels do. Hence the list of a
node is the node with the lists of its children behind it, and it lists what can be reached. In a tree it
lists nothing twice.
-/

namespace FlowErasure

namespace Tree

variable {tree : Tree} {root id i : NodeId} {node : Node} {depth depth' : Nat}

theorem IsAcyclicBelow.of_subset {a b : Tree} (h : a.IsAcyclicBelow root)
    (hsub : ∀ i, b.children i ⊆ a.children i) : b.IsAcyclicBelow root := by
  have hreach : ∀ {x y}, b.Reaches x y → a.Reaches x y :=
    fun hxy => hxy.lift id fun x _ hholds => hsub x hholds
  exact fun x y hx hxy hyx => h x y (hreach hx) (hsub x hxy) (hreach hyx)

theorem descendantsOnto_none (hget : tree.get? id = none) (rest : List NodeId) :
    tree.descendantsOnto depth id rest = rest := by
  cases depth with
  | zero => rfl
  | succ depth => simp [descendantsOnto, hget]

/-- What is put in front does not depend on what it is put in front of. -/
theorem descendantsOnto_append (depth : Nat) (id : NodeId) (rest : List NodeId) :
    tree.descendantsOnto depth id rest = tree.descendantsOnto depth id [] ++ rest := by
  induction depth generalizing id rest with
  | zero => rfl
  | succ depth ih =>
      have hfold : ∀ (ids rest : List NodeId),
          ids.foldr (tree.descendantsOnto depth) rest =
            ids.foldr (tree.descendantsOnto depth) [] ++ rest := by
        intro ids
        induction ids with
        | nil => exact fun _ => rfl
        | cons child ids ihids =>
            intro rest
            rw [List.foldr_cons, List.foldr_cons, ih child, ihids, ih child (List.foldr _ [] ids),
              List.append_assoc]
      simp only [descendantsOnto]
      cases tree.get? id with
      | none => rfl
      | some node => exact congrArg (id :: ·) (hfold node.children rest)

/-- One level more: the node, and the lists of its children. -/
theorem descendantsOnto_succ (hget : tree.get? id = some node) (depth : Nat) :
    tree.descendantsOnto (depth + 1) id [] =
      id :: node.children.flatMap fun child => tree.descendantsOnto depth child [] := by
  simp only [descendantsOnto, hget, List.cons.injEq, true_and]
  induction node.children with
  | nil => rfl
  | cons child ids ih => rw [List.foldr_cons, List.flatMap_cons, descendantsOnto_append, ih]

/-! ## Enough levels -/

/-- There is nothing more than `depth` levels below a node. -/
def FitsIn (tree : Tree) : Nat → NodeId → Prop
  | 0, id => tree.get? id = none
  | depth + 1, id => ∀ child ∈ tree.children id, tree.FitsIn depth child

theorem fitsIn_of_none (hget : tree.get? id = none) : tree.FitsIn depth id := by
  cases depth with
  | zero => exact hget
  | succ depth => simp [FitsIn, children_of_none hget]

theorem FitsIn.succ (h : tree.FitsIn depth id) : tree.FitsIn (depth + 1) id := by
  induction depth generalizing id with
  | zero => exact fitsIn_of_none h
  | succ depth ih => exact fun child hchild => ih (h child hchild)

/-- The nodes above a node are distinct, so there are not more levels than nodes. -/
theorem IsAcyclicBelow.fitsIn_of_above (h : tree.IsAcyclicBelow root) (hid : tree.Reaches root id)
    {above : List NodeId} (hnodup : above.Nodup) (hnot : id ∉ above)
    (habove : ∀ a ∈ above, a < tree.size ∧ tree.Reaches a id)
    (hlength : tree.size ≤ above.length + depth) : tree.FitsIn depth id := by
  induction depth generalizing id above with
  | zero =>
      refine Classical.byContradiction fun hsome => ?_
      obtain ⟨node, hget⟩ := Option.ne_none_iff_exists'.mp hsome
      have hmem : ∀ a ∈ id :: above, a ∈ List.range tree.size := by
        intro a ha
        rw [List.mem_range]
        rcases List.mem_cons.mp ha with rfl | ha
        · exact lt_size_of_get? hget
        · exact (habove a ha).1
      have hle := ((List.nodup_cons.mpr ⟨hnot, hnodup⟩).subperm hmem).length_le
      rw [List.length_cons, List.length_range] at hle
      omega
  | succ depth ih =>
      intro child hchild
      have hholds : tree.Holds id child := hchild
      have hback : ∀ a ∈ id :: above, tree.Reaches a id := by
        intro a ha
        rcases List.mem_cons.mp ha with rfl | ha
        · exact .refl
        · exact (habove a ha).2
      refine ih (hid.tail hholds) (List.nodup_cons.mpr ⟨hnot, hnodup⟩) ?_ ?_ ?_
      · exact fun hmem => h id child hid hholds (hback child hmem)
      · intro a ha
        refine ⟨?_, (hback a ha).tail hholds⟩
        rcases List.mem_cons.mp ha with rfl | ha
        · exact lt_size_of_holds hholds
        · exact (habove a ha).1
      · rw [List.length_cons]
        omega

theorem IsAcyclicBelow.fitsIn (h : tree.IsAcyclicBelow root) (hid : tree.Reaches root id) :
    tree.FitsIn tree.size id :=
  h.fitsIn_of_above hid List.nodup_nil (by simp) (by simp) (by simp)

/-- Any number of levels that is enough gives the same list. -/
theorem FitsIn.descendantsOnto_eq (h : tree.FitsIn depth id) (h' : tree.FitsIn depth' id) :
    tree.descendantsOnto depth id [] = tree.descendantsOnto depth' id [] := by
  induction depth generalizing id depth' with
  | zero => rw [descendantsOnto_none h, descendantsOnto_none h]
  | succ depth ih =>
      cases hget : tree.get? id with
      | none => rw [descendantsOnto_none hget, descendantsOnto_none hget]
      | some node =>
          cases depth' with
          | zero => cases hget.symm.trans h'
          | succ depth' =>
              rw [descendantsOnto_succ hget, descendantsOnto_succ hget]
              rw [FitsIn, children_of_get? hget] at h h'
              exact congrArg (id :: ·)
                (List.flatMap_congr fun child hchild => ih (h child hchild) (h' child hchild))

/-- From a node there is a way to the node itself and to what its children lead to. -/
theorem reaches_iff : tree.Reaches id i ↔ i = id ∨ ∃ child ∈ tree.children id, tree.Reaches child i := by
  rw [Reaches, Relation.ReflTransGen.cases_head_iff, eq_comm]
  rfl

theorem mem_descendantsOnto_of_none (hget : tree.get? id = none) :
    i ∈ tree.descendantsOnto depth id [] ↔ tree.Reaches id i ∧ i < tree.size := by
  rw [descendantsOnto_none hget, reaches_iff, children_of_none hget]
  refine iff_of_false List.not_mem_nil fun ⟨hi, hlt⟩ => ?_
  obtain rfl : i = id := by simpa using hi
  obtain ⟨node, hsome⟩ := exists_get? hlt
  cases hsome.symm.trans hget

theorem FitsIn.mem_descendantsOnto (h : tree.FitsIn depth id) :
    i ∈ tree.descendantsOnto depth id [] ↔ tree.Reaches id i ∧ i < tree.size := by
  induction depth generalizing id with
  | zero => exact mem_descendantsOnto_of_none h
  | succ depth ih =>
      cases hget : tree.get? id with
      | none => exact mem_descendantsOnto_of_none hget
      | some node =>
          have hlt := lt_size_of_get? hget
          rw [FitsIn, children_of_get? hget] at h
          rw [descendantsOnto_succ hget, List.mem_cons, List.mem_flatMap, reaches_iff,
            children_of_get? hget]
          constructor
          · rintro (rfl | ⟨child, hchild, hi⟩)
            · exact ⟨.inl rfl, hlt⟩
            · obtain ⟨hreach, hi⟩ := (ih (h child hchild)).mp hi
              exact ⟨.inr ⟨child, hchild, hreach⟩, hi⟩
          · rintro ⟨rfl | ⟨child, hchild, hreach⟩, hi⟩
            · exact .inl rfl
            · exact .inr ⟨child, hchild, (ih (h child hchild)).mpr ⟨hreach, hi⟩⟩

/-! ## Lists of descendants -/

/-- A node comes first, and then come the lists of its children, from left to right. -/
theorem descendants_eq (h : tree.IsAcyclicBelow root) (hid : tree.Reaches root id)
    (hget : tree.get? id = some node) :
    tree.descendants id = id :: node.children.flatMap tree.descendants := by
  obtain ⟨depth, hsize⟩ : ∃ depth, tree.size = depth + 1 :=
    Nat.exists_eq_succ_of_ne_zero (Nat.ne_zero_of_lt (lt_size_of_get? hget))
  have hfits := h.fitsIn hid
  rw [hsize, FitsIn, children_of_get? hget] at hfits
  unfold descendants
  rw [hsize, descendantsOnto_succ hget]
  refine congrArg (id :: ·) (List.flatMap_congr fun child hchild => ?_)
  exact (hfits child hchild).descendantsOnto_eq (hfits child hchild).succ

theorem mem_descendants (h : tree.IsAcyclicBelow root) (hid : tree.Reaches root id) :
    i ∈ tree.descendants id ↔ tree.Reaches id i ∧ i < tree.size :=
  (h.fitsIn hid).mem_descendantsOnto

/-- Of lists below different children of a node no two have a node in common. -/
theorem IsTreeBelow.nodup_cons_flatMap (h : tree.IsTreeBelow root) (hid : tree.Reaches root id)
    {ids : List NodeId} (hsub : ids.Sublist (tree.children id)) {f : NodeId → List NodeId}
    (hf : ∀ child ∈ ids, (f child).Nodup)
    (hreach : ∀ child ∈ ids, ∀ i ∈ f child, tree.Reaches child i) :
    (id :: ids.flatMap f).Nodup := by
  have hholds : ∀ child ∈ ids, tree.Holds id child := fun child hchild => hsub.subset hchild
  refine List.nodup_cons.mpr ⟨?_, List.nodup_flatMap.mpr ⟨hf, ?_⟩⟩
  · intro hmem
    obtain ⟨child, hchild, hi⟩ := List.mem_flatMap.mp hmem
    exact h.acyclic id child hid (hholds child hchild) (hreach child hchild id hi)
  · refine ((h.nodup id hid).sublist hsub).imp_of_mem fun hb hc hne i hi hi' => ?_
    exact h.not_reaches_both hid (hholds _ hb) (hholds _ hc) hne (hreach _ hb i hi)
      (hreach _ hc i hi')

theorem IsTreeBelow.nodup_descendants (h : tree.IsTreeBelow root) (hid : tree.Reaches root id) :
    (tree.descendants id).Nodup := by
  unfold descendants
  have hfits : tree.FitsIn tree.size id := IsAcyclicBelow.fitsIn h.acyclic hid
  generalize tree.size = depth at hfits
  induction depth generalizing id with
  | zero => exact List.nodup_nil
  | succ depth ih =>
      cases hget : tree.get? id with
      | none => rw [descendantsOnto_none hget]; exact List.nodup_nil
      | some node =>
          rw [descendantsOnto_succ hget, ← children_of_get? hget]
          exact h.nodup_cons_flatMap hid (.refl _)
            (fun child hchild => ih (hid.tail hchild) (hfits child hchild))
            fun child hchild i hi => ((hfits child hchild).mem_descendantsOnto.mp hi).1

end Tree

end FlowErasure
