import FlowErasure.Erasure.Pass
import FlowErasure.Proofs.Syntax.Trimming

/-!
# A pass as a sequence of removals

All that a pass does to a tree are removals at nodes it visits. So what one removal keeps, a visit keeps,
and what removals at the nodes below a node keep, a pass from that node keeps.
-/

namespace FlowErasure

namespace Erasure

variable {rules : Rules} {tree : Tree} {id : NodeId} {p : Progress} {motive : Tree → Prop}

theorem parent?_of_mem_deletedIn {field : Field} {slot : Slot} {path : Path}
    (h : path ∈ deletedIn rules tree id field slot) : path.parent? = some (some id) := by
  cases slot with
  | absent => simp [deletedIn] at h
  | node child =>
      by_cases hdel : isDeleted rules tree child
      · have hpath : path = .field id field := by simpa [deletedIn, hdel] using h
        rw [hpath]
        rfl
      · simp [deletedIn, hdel] at h
  | list items =>
      obtain ⟨_, -, rfl⟩ := List.mem_map.mp h
      rfl

def KeptAt (motive : Tree → Prop) (id : NodeId) : Prop :=
  ∀ {a : Tree} {path : Path} {result : Bool × Tree}, motive a → path.parent? = some (some id) →
    path.delete a = .ok result → motive result.2

section

variable (hkept : KeptAt motive id)

include hkept

theorem kept_clearField (h : motive p.tree) (field : Field) :
    motive (p.clearField id field).tree := by
  unfold Progress.clearField
  split
  · rename_i hok
    exact hkept h rfl hok
  · exact h

theorem kept_deleteAt (h : motive p.tree) {path : Path} (hpath : path.parent? = some (some id)) :
    motive (p.deleteAt path).tree := by
  unfold Progress.deleteAt
  split
  · rename_i hok
    exact hkept h hpath hok
  · exact h

theorem kept_visit (rules : Rules) (h : motive p.tree) : motive (visit rules id p).tree := by
  unfold visit
  split
  · exact h
  · rename_i node _
    simp only
    generalize hcounted : { p with stats := { p.stats with visited := p.stats.visited + 1 } } = counted
    have hclear : motive (counted.clearFields rules id node.kind).tree := by
      rw [clearFields_eq]
      refine List.foldlRecOn (motive := fun p : Progress => motive p.tree) _ _ ?_
        fun p hp field _ => kept_clearField hkept hp field
      rw [← hcounted]
      exact h
    split
    · exact hclear
    · refine List.foldlRecOn (motive := fun p : Progress => motive p.tree) _ _ hclear
        fun p hp path hpath => kept_deleteAt hkept hp ?_
      obtain ⟨⟨spec, slot⟩, -, hpath⟩ := List.mem_flatMap.mp hpath
      exact parent?_of_mem_deletedIn hpath

end

/-- A pass from a node keeps what removals at the node and below it keep. -/
theorem kept_passWithin (below : NodeId → Prop) (hkept : ∀ id, below id → KeptAt motive id)
    (hchild : ∀ {a id child}, motive a → below id → child ∈ a.children id → below child)
    (rules : Rules) (depth : Nat) (hid : below id) (h : motive p.tree) :
    motive (passWithin rules depth id p).tree := by
  induction depth generalizing id p with
  | zero => exact h
  | succ depth ih =>
      have hvisit := kept_visit (hkept id hid) rules h
      rw [passWithin]
      exact List.foldlRecOn (motive := fun p : Progress => motive p.tree) _ _ hvisit
        fun p hp child hmem => ih (hchild hvisit hid hmem) hp

theorem kept_erase (below : NodeId → Prop) (hkept : ∀ id, below id → KeptAt motive id)
    (hchild : ∀ {a id child}, motive a → below id → child ∈ a.children id → below child)
    (rules : Rules) {root : NodeId} (hroot : below root) (h : motive tree) :
    motive (tree.erase rules root).1 := by
  unfold Tree.erase
  cases tree.kind? root with
  | none => exact h
  | some kind =>
      by_cases hdeletes : rules.deletes kind
      · simpa [hdeletes] using h
      · simpa [hdeletes] using kept_passWithin below hkept hchild rules tree.size hroot h

theorem trims_erase (tree : Tree) (rules : Rules) (root : NodeId) :
    tree.Trims (tree.erase rules root).1 :=
  kept_erase (motive := tree.Trims) (fun _ => True)
    (fun _ _ _ _ _ h _ hok => h.trans (Path.trims_delete hok)) (fun _ _ _ => trivial) rules trivial
    (.refl tree)

end Erasure

end FlowErasure
