import FlowErasure.Proofs.Erasure.Removals
import FlowErasure.Proofs.Grammar.Program
import FlowErasure.Proofs.Syntax.Marks

/-!
# Pruning by erasure

A pass removes something only at nodes it has come to from the root, so it prunes the table. And what
the parser reads is a tree, so the pass visits the nodes that survive.
-/

namespace FlowErasure

namespace Erasure

variable {rules : Rules} {tree : Tree} {id : NodeId} {p : Progress}

/-- A pass from a node prunes if everything below the node holds its children. -/
theorem prunes_passWithin (rules : Rules) (hafter : tree.ParentsAfter) (depth : Nat)
    (hkeeps : ∀ x, tree.Reaches id x → tree.Keeps x) (h : tree.Prunes p.tree) :
    tree.Prunes (passWithin rules depth id p).tree :=
  kept_passWithin (motive := tree.Prunes) (tree.Reaches id)
    (fun x hx _ _ _ h hpath hok => h.delete hafter hpath (hkeeps x hx) hok)
    (fun h hx hchild => hx.tail (h.trims.children_subset _ hchild)) rules depth .refl h

end Erasure

namespace Tree.ReadFrom

variable {text : List Char} {tree : Tree} {root : NodeId}

theorem isDeleted_root (h : tree.ReadFrom text root) :
    Erasure.isDeleted .standard tree root = false := by
  obtain ⟨node, hget, hkind, -⟩ := h.program
  simp only [Erasure.isDeleted, Tree.lookup?, Option.bind_some, hget, Option.any_some, hkind]
  decide

theorem prunes_erase (h : tree.ReadFrom text root) : tree.Prunes (tree.erase .standard root).1 := by
  rw [Erasure.erase_eq_passWithin h.isDeleted_root]
  refine Erasure.prunes_passWithin .standard h.parent tree.size (fun x hx _ => h.parentId? hx) ?_
  exact prunes_refl fun hget => (h.shape hget).unmarked

end Tree.ReadFrom

end FlowErasure
