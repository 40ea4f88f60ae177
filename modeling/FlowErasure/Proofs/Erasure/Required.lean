import FlowErasure.Compile
import FlowErasure.Proofs.Erasure.Regions
import FlowErasure.Proofs.Syntax.Removal

/-!
# Required fields

The standard rules clear optional fields only, and the grammar puts declarations of types into lists,
where nothing depends on one element. The exception is an exported type as the body of a branch, a
loop or a label: the grammar takes it there, and erasing it leaves the statement without its body.
-/

namespace FlowErasure

open Erasure

/-- A field for one node holds a node of the table, and a field for more holds a list. -/
def Tree.IsFilled (tree : Tree) (spec : FieldSpec) : Slot → Prop
  | .absent => False
  | .node id => spec.shape = .node ∧ (tree.get? id).isSome
  | .list _ => spec.shape ≠ .node

theorem Rules.strips_required {kind : NodeKind} {spec : FieldSpec} (h : spec ∈ kind.schema)
    (hrequired : spec.optional = false) : Rules.standard.strips kind spec.field = false := by
  have hall : ∀ spec ∈ kind.schema, spec.optional = false →
      Rules.standard.strips kind spec.field = false := by
    cases kind <;> decide
  exact hall spec h hrequired

theorem Node.field_unique {node : Node} {spec : FieldSpec} {slot slot' : Slot}
    (h : (spec, slot) ∈ node.fields) (h' : (spec, slot') ∈ node.fields) : slot = slot' := by
  obtain ⟨i, hi⟩ := List.mem_iff_getElem?.mp h
  obtain ⟨j, hj⟩ := List.mem_iff_getElem?.mp h'
  obtain ⟨hspec, hslot⟩ := List.getElem?_zip_eq_some.mp hi
  obtain ⟨hspec', hslot'⟩ := List.getElem?_zip_eq_some.mp hj
  have hij : some i = some j :=
    (NodeKind.fieldIndex?_field hspec).symm.trans (NodeKind.fieldIndex?_field hspec')
  rw [Option.some.inj hij, hslot'] at hslot
  exact (Option.some.inj hslot).symm

theorem isDeleted_of_isExportedType {tree : Tree} {id : NodeId} (h : tree.IsExportedType id) :
    isDeleted .standard tree (some id) := by
  obtain ⟨face, hface, -, hkind⟩ := h
  obtain ⟨node, hget, rfl⟩ := Tree.get?_of_face? hface
  rw [isDeleted, Tree.lookup?, Option.bind_some, hget, Option.any_some, deletes_standard]
  rcases hkind with hkind | hkind <;> rw [show node.kind = _ from hkind] <;> rfl

/-- Of the nodes in required fields only exported types are deleted. -/
theorem NodeShape.isDeleted_iff {text : List Char} {tree : Tree} {id c : NodeId} {node : Node}
    (h : NodeShape text tree id node) (hkind : node.kind.isTypeOnly = false) {spec : FieldSpec}
    (hfield : (spec, .node c) ∈ node.fields) (hrequired : spec.optional = false) :
    isDeleted .standard tree (some c) ↔ tree.IsExportedType c := by
  refine ⟨fun hdeleted => ?_, isDeleted_of_isExportedType⟩
  have hvalue : ¬tree.IsValue c := fun hvalue => by simp [isDeleted_of_isValue hvalue] at hdeleted
  have hshape : spec.shape = .node := by simpa [FieldSpec.accepts] using h.accepts hfield
  have hc : c ∈ (Slot.node c).children := List.mem_singleton.mpr rfl
  by_cases hembeds : node.kind.embeds spec
  · exact (h.embedded c (NodeKind.mem_childrenWhere.mpr ⟨spec, _, hfield, hembeds, hc⟩)).resolve_left
      hvalue
  · refine absurd (h.needed c ?_) hvalue
    rw [NodeKind.needed, hkind, if_neg Bool.false_ne_true]
    refine NodeKind.mem_childrenWhere.mpr ⟨spec, _, hfield, ?_, hc⟩
    simp [FieldSpec.matters, hshape, hrequired, hembeds]

namespace Tree.Erased

variable {text : List Char} {t₀ tree : Tree} {root id : NodeId} {spec : FieldSpec} {slot : Slot}

theorem survives (h : t₀.Erased text tree root) (hreach : tree.Reaches root id)
    (hsome : (tree.get? id).isSome) : Survives .standard t₀ root id := by
  have hkin := h.prunes.trims.kin
  induction hreach with
  | refl => exact .root (hkin.isSome root ▸ hsome)
  | @tail a b _ hholds ih =>
      obtain ⟨node, hget, -⟩ := exists_get?_of_holds hholds
      have ha := ih (by simp [hget])
      obtain ⟨old, hold⟩ := Option.isSome_iff_exists.mp ha.isSome
      rw [Holds, children_eq, h.slots ha hold] at hholds
      exact .child ha hold hholds (hkin.isSome b ▸ hsome)

theorem exists_field (h : t₀.Erased text tree root) (hid : Survives .standard t₀ root id)
    (hfield : (spec, slot) ∈ tree.fields id) : ∃ old before, t₀.get? id = some old ∧
      (spec, before) ∈ old.fields ∧ slot =
        if Rules.standard.strips old.kind spec.field then .absent
        else keptOf .standard t₀ before := by
  obtain ⟨old, hold⟩ := Option.isSome_iff_exists.mp hid.isSome
  obtain ⟨node, hget, hkin⟩ := h.prunes.trims.kin.get? hold
  rw [fields_of_get? hget] at hfield
  obtain ⟨i, hi⟩ := List.mem_iff_getElem?.mp hfield
  obtain ⟨hspec, hslot⟩ := List.getElem?_zip_eq_some.mp hi
  rw [← hkin.kind] at hspec
  rw [← slots_of_get? hget, h.slots hid hold, getElem?_erasedSlots hspec] at hslot
  obtain ⟨before, hbefore, hslot⟩ := Option.map_eq_some_iff.mp hslot
  exact ⟨old, before, hold, List.mem_iff_getElem?.mpr
    ⟨i, List.getElem?_zip_eq_some.mpr ⟨hspec, hbefore⟩⟩, hslot.symm⟩

/-- A required field is empty after the pass if it held an exported type, and only then. -/
theorem isFilled_iff (h : t₀.Erased text tree root) (hid : Survives .standard t₀ root id)
    (hfield : (spec, slot) ∈ tree.fields id) (hrequired : spec.optional = false) :
    tree.IsFilled spec slot ↔ ∀ c, (spec, .node c) ∈ t₀.fields id → ¬t₀.IsExportedType c := by
  obtain ⟨old, before, hold, hbefore, rfl⟩ := h.exists_field hid hfield
  have hshape := h.read.shape hold
  have haccepts := hshape.accepts hbefore
  rw [fields_of_get? hold, Rules.strips_required (List.of_mem_zip hbefore).1 hrequired,
    if_neg Bool.false_ne_true]
  cases before with
  | absent => simp [FieldSpec.accepts, hrequired] at haccepts
  | list items =>
      have hlist : spec.shape ≠ .node := by simpa [FieldSpec.accepts] using haccepts
      refine iff_of_true hlist fun c hc => ?_
      exact absurd (Node.field_unique hc hbefore) (by simp)
  | node c =>
      have hnode : spec.shape = .node := by simpa [FieldSpec.accepts] using haccepts
      have honly : (∀ other, (spec, .node other) ∈ old.fields → ¬t₀.IsExportedType other) ↔
          isDeleted .standard t₀ (some c) = false := by
        rw [← Bool.not_eq_true,
          hshape.isDeleted_iff (h.isTypeOnly hid hold) hbefore hrequired]
        refine ⟨fun hall => hall c hbefore, fun hc other hother => ?_⟩
        have hsame := Node.field_unique hother hbefore
        simp only [Slot.node.injEq] at hsame
        exact hsame ▸ hc
      rw [honly]
      by_cases hdeleted : isDeleted .standard t₀ (some c)
      · simp [keptOf, hdeleted, IsFilled]
      · have hlt := Nat.lt_trans (hshape.below c (List.mem_flatMap.mpr
          ⟨_, (List.of_mem_zip hbefore).2, List.mem_singleton.mpr rfl⟩)) (lt_size_of_get? hold)
        obtain ⟨child, hchild⟩ := exists_get? hlt
        have hsome : (tree.get? c).isSome := by
          rw [h.prunes.trims.kin.isSome, hchild]
          rfl
        simp [keptOf, hdeleted, IsFilled, hnode, hsome]

end Tree.Erased

/-- After erasing types a required field holds what it should, unless it held an exported type. -/
theorem isFilled_erase_iff {text : List Char} {fileName : Option String} {parsed : Parsed}
    (h : parse text fileName = .ok parsed) {id : NodeId} {spec : FieldSpec} {slot : Slot}
    (hid : parsed.erase.1.tree.Reaches parsed.root id)
    (hfield : (spec, slot) ∈ parsed.erase.1.tree.fields id) (hrequired : spec.optional = false) :
    parsed.erase.1.tree.IsFilled spec slot ↔
      ∀ c, (spec, .node c) ∈ parsed.tree.fields id → ¬parsed.tree.IsExportedType c := by
  obtain ⟨-, -, hread⟩ := readFrom_of_parse h
  have hsome : (parsed.erase.1.tree.get? id).isSome := by
    cases hget : parsed.erase.1.tree.get? id with
    | none => simp [Tree.fields, hget] at hfield
    | some node => rfl
  exact hread.erased.isFilled_iff (hread.erased.survives hid hsome) hfield hrequired

theorem isFilled_erase_while : ∃ parsed id spec slot,
    parse "while (a) b".toList none = .ok parsed ∧ parsed.erase.1.tree.Reaches parsed.root id ∧
      (spec, slot) ∈ parsed.erase.1.tree.fields id ∧ spec.optional = false ∧
        (parsed.erase.1.tree.IsFilled spec slot ↔
          ∀ c, (spec, .node c) ∈ parsed.tree.fields id → ¬parsed.tree.IsExportedType c) := by
  have hfields : (parse "while (a) b".toList none).toOption.any (fun parsed =>
      (parsed.erase.1.tree.children parsed.root).any fun id =>
        (parsed.erase.1.tree.fields id).any fun field => !field.1.optional) := by
    decide +kernel
  cases hparse : parse "while (a) b".toList none with
  | error e =>
      rw [hparse] at hfields
      exact absurd hfields Bool.false_ne_true
  | ok parsed =>
      rw [hparse] at hfields
      obtain ⟨id, hid, hfield⟩ := List.any_eq_true.mp hfields
      obtain ⟨field, hmem, hrequired⟩ := List.any_eq_true.mp hfield
      have hrequired : field.1.optional = false := by simpa using hrequired
      have hreach : parsed.erase.1.tree.Reaches parsed.root id := .single hid
      exact ⟨parsed, id, field.1, field.2, rfl, hreach, hmem, hrequired,
        isFilled_erase_iff hparse hreach hmem hrequired⟩

/-- Required fields are not always filled: here a branch loses its body. -/
theorem not_isFilled_erase : ¬∀ (text : List Char) (fileName : Option String) (parsed : Parsed)
    (id : NodeId) (spec : FieldSpec) (slot : Slot), parse text fileName = .ok parsed →
      parsed.erase.1.tree.Reaches parsed.root id → (spec, slot) ∈ parsed.erase.1.tree.fields id →
        spec.optional = false → parsed.erase.1.tree.IsFilled spec slot := by
  intro hall
  have hfields : (parse "if (a) export type T = number;\nb".toList none).toOption.any (fun parsed =>
      (parsed.erase.1.tree.children parsed.root).any fun id =>
        (parsed.erase.1.tree.fields id).any fun field =>
          !field.1.optional && field.2 == .absent) := by
    decide +kernel
  cases hparse : parse "if (a) export type T = number;\nb".toList none with
  | error e =>
      rw [hparse] at hfields
      exact absurd hfields Bool.false_ne_true
  | ok parsed =>
      rw [hparse] at hfields
      obtain ⟨id, hid, hfield⟩ := List.any_eq_true.mp hfields
      obtain ⟨field, hmem, hempty⟩ := List.any_eq_true.mp hfield
      simp only [Bool.and_eq_true, Bool.not_eq_true', beq_iff_eq] at hempty
      have hfilled := hall _ _ _ _ _ _ hparse (.single hid) hmem hempty.1
      rw [hempty.2] at hfilled
      exact hfilled

end FlowErasure
