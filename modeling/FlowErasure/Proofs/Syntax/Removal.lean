import FlowErasure.Proofs.Syntax.Table

/-!
# Removing through paths

`Path.delete` looks a slot up by the name of its field. The fields of a schema are distinct, so a name
leads to one slot only, and a removal is one replacement of that slot.
-/

namespace FlowErasure

namespace NodeKind

theorem nodup_schema (kind : NodeKind) : (kind.schema.map (·.field)).Nodup := by
  cases kind <;> decide

theorem fieldIndex?_field {kind : NodeKind} {index : Nat} {spec : FieldSpec}
    (h : kind.schema[index]? = some spec) : kind.fieldIndex? spec.field = some index := by
  obtain ⟨hlt, rfl⟩ := List.getElem?_eq_some_iff.mp h
  unfold fieldIndex?
  rw [List.findIdx?_eq_some_iff_getElem]
  refine ⟨hlt, by simp, fun j hj => ?_⟩
  have hnodup := kind.nodup_schema
  rw [List.nodup_iff_getElem?_ne_getElem?] at hnodup
  have hne := hnodup j index hj (by simpa using hlt)
  have hjlt : j < kind.schema.length := by omega
  simpa [List.getElem?_map, List.getElem?_eq_getElem hlt, List.getElem?_eq_getElem hjlt] using hne

theorem exists_of_fieldIndex? {kind : NodeKind} {field : Field} {index : Nat}
    (h : kind.fieldIndex? field = some index) :
    ∃ spec, kind.schema[index]? = some spec ∧ spec.field = field := by
  unfold fieldIndex? at h
  rw [List.findIdx?_eq_some_iff_getElem] at h
  obtain ⟨hlt, hfield, -⟩ := h
  exact ⟨kind.schema[index], List.getElem?_eq_getElem hlt, by simpa using hfield⟩

end NodeKind

namespace Path

variable {tree : Tree} {id : NodeId} {node : Node} {field : Field} {index : Nat}

theorem locate_missing (hget : tree.get? id = none) :
    locate tree (some id) field = .error (.missingNode (some id)) := by
  simp [locate, hget, throw, throwThe, MonadExceptOf.throw]

theorem locate_unknown (hget : tree.get? id = some node)
    (hindex : node.kind.fieldIndex? field = none) :
    locate tree (some id) field = .error (.unknownField node.kind field) := by
  simp [locate, hget, hindex, throw, throwThe, MonadExceptOf.throw]

theorem delete_field (hget : tree.get? id = some node)
    (hindex : node.kind.fieldIndex? field = some index) :
    (Path.field id field).delete tree = .ok (tree.replaceSlot id index .absent) := by
  obtain ⟨spec, hspec, -⟩ := NodeKind.exists_of_fieldIndex? hindex
  simp [delete, replace, locate, hget, hindex, hspec, bind, Except.bind, pure, Except.pure]

theorem delete_field_none (hget : tree.get? id = some node)
    (hindex : node.kind.fieldIndex? field = none) :
    (Path.field id field).delete tree = .error (.unknownField node.kind field) := by
  simp [delete, replace, locate, hget, hindex, bind, Except.bind, throw, throwThe,
    MonadExceptOf.throw]

/-- Removing an element of a list takes it out of the list. -/
theorem delete_element {items : NodeList} {i : Nat} (hget : tree.get? id = some node)
    (hindex : node.kind.fieldIndex? field = some index)
    (hslot : node.slots[index]? = some (.list items)) (hi : i < items.nodes.length) :
    (Path.element id field i).delete tree =
      .ok (tree.replaceSlot id index (.list { items with nodes := items.nodes.eraseIdx i })) := by
  obtain ⟨spec, hspec, -⟩ := NodeKind.exists_of_fieldIndex? hindex
  simp [delete, replace, locate, hget, hindex, hspec, hslot, hi, bind, Except.bind, pure,
    Except.pure]

/-- Only an element of a list that is there can be removed. -/
theorem exists_of_delete_element {i : Nat} {result : Bool × Tree} (hget : tree.get? id = some node)
    (hindex : node.kind.fieldIndex? field = some index)
    (h : (Path.element id field i).delete tree = .ok result) :
    ∃ items, node.slots[index]? = some (.list items) ∧ i < items.nodes.length := by
  obtain ⟨spec, hspec, -⟩ := NodeKind.exists_of_fieldIndex? hindex
  cases hslot : node.slots[index]? with
  | none =>
      simp [delete, replace, locate, hget, hindex, hspec, hslot, bind, Except.bind, pure,
        Except.pure, throw, throwThe, MonadExceptOf.throw] at h
  | some slot =>
      cases slot with
      | list items =>
          refine ⟨items, rfl, ?_⟩
          by_contra hi
          simp [delete, replace, locate, hget, hindex, hspec, hslot, hi, bind, Except.bind, pure,
            Except.pure, throw, throwThe, MonadExceptOf.throw] at h
      | absent | node _ =>
          simp [delete, replace, locate, hget, hindex, hspec, hslot, bind, Except.bind, pure,
            Except.pure, throw, throwThe, MonadExceptOf.throw] at h

end Path

end FlowErasure
