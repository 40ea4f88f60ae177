import FlowErasure.Proofs.Erasure.Outcome
import FlowErasure.Proofs.Syntax.Removal

/-!
# Trimming

Removals can only take things out of a table. `Tree.Trims` compares a table with what is left of it
after any number of removals: a slot is as it was, or empty, or a list that has lost elements.
-/

namespace FlowErasure

inductive Slot.Trims : Slot → Slot → Prop where
  | same (slot : Slot) : Trims slot slot
  | cleared (slot : Slot) : Trims slot .absent
  | shortened {nodes nodes' : List (Option NodeId)} (start stop : Nat) (h : nodes'.Sublist nodes) :
    Trims (.list ⟨nodes, start, stop⟩) (.list ⟨nodes', start, stop⟩)

theorem Slot.Trims.trans {a b c : Slot} (h : a.Trims b) (h' : b.Trims c) : a.Trims c := by
  cases h' with
  | same => exact h
  | cleared => exact .cleared _
  | shortened start stop hsub =>
      cases h with
      | same => exact .shortened start stop hsub
      | shortened _ _ hsub' => exact .shortened start stop (hsub.trans hsub')

theorem Slot.Trims.children_sublist {a b : Slot} (h : a.Trims b) :
    b.children.Sublist a.children := by
  cases h with
  | same => exact .refl _
  | cleared => exact List.nil_sublist _
  | shortened start stop hsub => exact hsub.filterMap id

theorem Slot.flatMap_children_sublist {as bs : List Slot} (hlength : bs.length = as.length)
    (hslots : ∀ (i : Nat) (a b : Slot), as[i]? = some a → bs[i]? = some b → a.Trims b) :
    (bs.flatMap Slot.children).Sublist (as.flatMap Slot.children) := by
  induction as generalizing bs with
  | nil => simp [List.length_eq_zero_iff.mp hlength]
  | cons a as ih =>
      cases bs with
      | nil => exact List.nil_sublist _
      | cons b bs =>
          have hfirst : a.Trims b := hslots 0 a b rfl rfl
          rw [List.flatMap_cons, List.flatMap_cons]
          refine hfirst.children_sublist.append (ih (by simpa using hlength) ?_)
          exact fun i a' b' ha hb => hslots (i + 1) a' b' ha hb

namespace Tree

structure Trims (a b : Tree) : Prop where
  kin : a.Kin b
  length : ∀ id, (b.slots id).length = (a.slots id).length
  slot : ∀ {id : NodeId} {index : Nat} {x y : Slot}, (a.slots id)[index]? = some x →
    (b.slots id)[index]? = some y → x.Trims y

namespace Trims

variable {a b c : Tree}

theorem refl (a : Tree) : a.Trims a where
  kin := .refl a
  length _ := rfl
  slot hx hy := Option.some.inj (hx.symm.trans hy) ▸ .same _

theorem trans (h : a.Trims b) (h' : b.Trims c) : a.Trims c where
  kin := h.kin.trans h'.kin
  length id := (h'.length id).trans (h.length id)
  slot {id index x z} hx hz := by
    have hlt : index < (b.slots id).length := by
      rw [← h'.length id]
      exact (List.getElem?_eq_some_iff.mp hz).choose
    have hy := List.getElem?_eq_getElem hlt
    exact (h.slot hx hy).trans (h'.slot hy hz)

/-- No child comes in, and those that stay keep their order. -/
theorem children_sublist (h : a.Trims b) (id : NodeId) :
    (b.children id).Sublist (a.children id) := by
  rw [children_eq, children_eq]
  exact Slot.flatMap_children_sublist (h.length id) fun _ _ _ hx hy => h.slot hx hy

theorem children_subset (h : a.Trims b) (id : NodeId) : b.children id ⊆ a.children id :=
  (h.children_sublist id).subset

end Trims

theorem trims_replaceSlot {tree : Tree} {id : NodeId} {index : Nat} {node : Node}
    {spec : FieldSpec} (hget : tree.get? id = some node)
    (hspec : node.kind.schema[index]? = some spec) {value : Slot}
    (hvalue : ∀ slot, node.slots[index]? = some slot → slot.Trims value) :
    tree.Trims (tree.replaceSlot id index value).2 where
  kin := kin_replaceSlot tree id index value
  length i := by
    rw [slots_replaceSlot hget hspec]
    split <;> simp
  slot {i j x y} hx hy := by
    rw [slots_replaceSlot hget hspec] at hy
    by_cases hi : i = id
    · subst hi
      rw [if_pos rfl, List.getElem?_set] at hy
      rw [slots_of_get? hget] at hx hy
      by_cases hj : index = j
      · subst hj
        have hlt : index < node.slots.length := (List.getElem?_eq_some_iff.mp hx).choose
        obtain rfl : value = y := by simpa [hlt] using hy
        exact hvalue x hx
      · rw [if_neg hj] at hy
        exact Option.some.inj (hx.symm.trans hy) ▸ .same x
    · rw [if_neg hi] at hy
      exact Option.some.inj (hx.symm.trans hy) ▸ .same x

end Tree

namespace Path

variable {tree : Tree} {path : Path}

/-- A removal fails or replaces one slot by what can be left of it. -/
theorem delete_cases (tree : Tree) (path : Path) :
    (∀ result, path.delete tree ≠ .ok result) ∨
      ∃ id index node spec value, path.parent? = some (some id) ∧ tree.get? id = some node ∧
        node.kind.schema[index]? = some spec ∧
        (∀ slot, node.slots[index]? = some slot → slot.Trims value) ∧
        path.delete tree = .ok (tree.replaceSlot id index value) := by
  rcases path with node | ⟨_ | id, f⟩ | ⟨_ | id, f, i⟩
  · exact .inl fun _ h => by cases h
  · exact .inl fun _ h => by cases h
  · cases hget : tree.get? id with
    | none => exact .inl (by simp [delete, replace, locate_missing hget, bind, Except.bind])
    | some node =>
        cases hindex : node.kind.fieldIndex? f with
        | none => exact .inl (by simp [delete_field_none hget hindex])
        | some index =>
            obtain ⟨spec, hspec, -⟩ := NodeKind.exists_of_fieldIndex? hindex
            exact .inr ⟨id, index, node, spec, .absent, rfl, hget, hspec,
              fun slot _ => .cleared slot, delete_field hget hindex⟩
  · exact .inl fun _ h => by cases h
  · cases hget : tree.get? id with
    | none => exact .inl (by simp [delete, replace, locate_missing hget, bind, Except.bind])
    | some node =>
        cases hindex : node.kind.fieldIndex? f with
        | none =>
            exact .inl (by simp [delete, replace, locate_unknown hget hindex, bind, Except.bind])
        | some index =>
            obtain ⟨spec, hspec, -⟩ := NodeKind.exists_of_fieldIndex? hindex
            by_cases hitems : ∃ items, node.slots[index]? = some (.list items) ∧ i < items.nodes.length
            · obtain ⟨items, hslot, hi⟩ := hitems
              refine .inr ⟨id, index, node, spec, _, rfl, hget, hspec, fun slot hslot' => ?_,
                delete_element hget hindex hslot hi⟩
              obtain rfl := Option.some.inj (hslot.symm.trans hslot')
              exact .shortened _ _ (List.eraseIdx_sublist _ _)
            · refine .inl fun result h => hitems ?_
              exact exists_of_delete_element hget hindex h

theorem trims_delete {result : Bool × Tree} (h : path.delete tree = .ok result) :
    tree.Trims result.2 := by
  rcases delete_cases tree path with hfails |
    ⟨id, index, node, spec, value, -, hget, hspec, hvalue, hok⟩
  · exact absurd h (hfails result)
  · obtain rfl := Except.ok.inj (hok.symm.trans h)
    exact Tree.trims_replaceSlot hget hspec hvalue

/-- Removes what each of some paths leads to, one after the other. A removal that fails changes
nothing. -/
def deleteEach (tree : Tree) (paths : List Path) : Tree :=
  paths.foldl (fun tree path => ((path.delete tree).toOption.map (·.2)).getD tree) tree

theorem trims_deleteEach (tree : Tree) (paths : List Path) : tree.Trims (deleteEach tree paths) := by
  induction paths generalizing tree with
  | nil => exact .refl tree
  | cons path paths ih =>
      rw [deleteEach, List.foldl_cons]
      refine Tree.Trims.trans ?_ (ih _)
      cases h : path.delete tree with
      | error e => exact .refl tree
      | ok result => exact trims_delete h

end Path

end FlowErasure
