import FlowErasure.Proofs.Syntax.Growth

/-!
# Tables that extend one another

A table extends another one when it goes on where the other ends: nothing in the other has changed,
and the nodes after it hold no nodes of it. Dropping the nodes after it then gives it back.
-/

namespace FlowErasure

structure Names.Grows (names names' : Names) : Prop where
  size : names.size ≤ names'.size
  resolve : ∀ atom < names.size, names'.resolve atom = names.resolve atom

namespace Names.Grows

theorem refl (names : Names) : names.Grows names :=
  ⟨Nat.le_refl _, fun _ _ => rfl⟩

theorem trans {names names' names'' : Names} (h : names.Grows names') (h' : names'.Grows names'') :
    names.Grows names'' where
  size := Nat.le_trans h.size h'.size
  resolve atom hatom := by
    rw [h'.resolve atom (Nat.lt_of_lt_of_le hatom h.size)]
    exact h.resolve atom hatom

theorem intern (names : Names) (s : String) : names.Grows (names.intern s).2 := by
  unfold Names.intern
  split
  · exact .refl names
  · refine ⟨by simp [Names.size], fun atom hatom => ?_⟩
    have hne : atom ≠ names.strings.size := Nat.ne_of_lt hatom
    simp [Names.resolve, Array.getD_eq_getD_getElem?, Array.getElem?_push, hne]

end Names.Grows

namespace Tree

theorem names_adopt (tree : Tree) (parent : NodeId) (field : Field) (slot : Slot) :
    (tree.adopt parent field slot).names = tree.names := by
  unfold adopt
  generalize slot.children = children
  induction children generalizing tree with
  | nil => rfl
  | cons child children ih => exact ih _

theorem names_adoptAll (tree : Tree) (parent : NodeId) (fields : List (FieldSpec × Slot)) :
    (fields.foldl (fun tree (spec, slot) => tree.adopt parent spec.field slot) tree).names =
      tree.names := by
  induction fields generalizing tree with
  | nil => rfl
  | cons field fields ih => rw [List.foldl_cons, ih, names_adopt]

theorem names_add (tree : Tree) (node : Node) : (tree.add node).2.names = tree.names :=
  names_adoptAll tree tree.size (fitted node).fields

def Later (base : Tree) (ids : List NodeId) : Prop :=
  ∀ id ∈ ids, base.size ≤ id

section Later

variable {base : Tree} {ids ids' : List NodeId}

@[simp] theorem later_nil : base.Later [] := by
  simp [Later]

@[simp] theorem later_cons {id : NodeId} :
    base.Later (id :: ids) ↔ base.size ≤ id ∧ base.Later ids := by
  simp [Later]

@[simp] theorem later_append : base.Later (ids ++ ids') ↔ base.Later ids ∧ base.Later ids' := by
  simp [Later, or_imp, forall_and]

@[simp] theorem later_reverse : base.Later ids.reverse ↔ base.Later ids := by
  simp [Later]

theorem Later.of_subset (h : base.Later ids) (hsub : ids' ⊆ ids) : base.Later ids' :=
  fun id hid => h id (hsub hid)

theorem later_flatMap {α : Type} {nodes : α → List NodeId} {items : List α} :
    base.Later (items.flatMap nodes) ↔ ∀ item ∈ items, base.Later (nodes item) := by
  constructor
  · intro h item hitem id hid
    exact h id (List.mem_flatMap.mpr ⟨item, hitem, hid⟩)
  · intro h id hid
    obtain ⟨item, hitem, hid⟩ := List.mem_flatMap.mp hid
    exact h item hitem id hid

theorem Later.of_slot? {node : Node} {field : Field} {slot : Slot} (h : base.Later node.children)
    (hslot : node.slot? field = some slot) : base.Later slot.children := by
  obtain ⟨index, -, hget⟩ := Option.bind_eq_some_iff.mp hslot
  exact fun id hid => h id (List.mem_flatMap.mpr ⟨slot, List.mem_of_getElem? hget, hid⟩)

theorem Later.of_node? {node : Node} {field : Field} {id : NodeId} (h : base.Later node.children)
    (hid : (node.slot? field).bind Slot.node? = some id) : base.size ≤ id := by
  obtain ⟨slot, hslot, hnode⟩ := Option.bind_eq_some_iff.mp hid
  cases slot <;> cases hnode
  exact h.of_slot? hslot id (List.mem_singleton_self id)

theorem Later.of_list? {node : Node} {field : Field} {items : NodeList}
    (h : base.Later node.children) (hitems : (node.slot? field).bind Slot.list? = some items) :
    base.Later (items.nodes.filterMap id) := by
  obtain ⟨slot, hslot, hlist⟩ := Option.bind_eq_some_iff.mp hitems
  cases slot <;> cases hlist
  exact h.of_slot? hslot

end Later

theorem get?_truncate (tree : Tree) (size : Nat) (id : NodeId) :
    (tree.truncate size).get? id = if id < size then tree.get? id else none := by
  unfold truncate get?
  rw [Array.take_eq_extract, Array.getElem?_extract]
  by_cases hid : id < size
  · by_cases hlt : id < tree.nodes.size
    · simp [hid, Nat.lt_min.mpr ⟨hid, hlt⟩]
    · simp [hid, Nat.le_of_not_lt hlt]
  · have hout : ¬id < min size tree.nodes.size := fun h =>
      hid (Nat.lt_of_lt_of_le h (Nat.min_le_left _ _))
    simp [hid, hout]

theorem size_truncate (tree : Tree) (n : Nat) : (tree.truncate n).size = min n tree.size := by
  simp [truncate, size]

structure Extends (base tree : Tree) : Prop where
  size : base.size ≤ tree.size
  get : ∀ id < base.size, tree.get? id = base.get? id
  later : ∀ id node, base.size ≤ id → tree.get? id = some node → base.Later node.children
  names : base.names.Grows tree.names

namespace Extends

variable {base tree : Tree}

theorem refl (base : Tree) : base.Extends base where
  size := Nat.le_refl _
  get _ _ := rfl
  later _ _ hle hget := absurd (lt_size_of_get? hget) (Nat.not_lt_of_le hle)
  names := .refl _

theorem renamed (h : base.Extends tree) (s : String) :
    base.Extends { tree with names := (tree.names.intern s).2 } :=
  ⟨h.size, h.get, h.later, h.names.trans (.intern tree.names s)⟩

theorem add (h : base.Extends tree) {node : Node} (hnode : base.Later node.children) :
    base.Extends (tree.add node).2 ∧ base.size ≤ (tree.add node).1 := by
  have hchildren : base.Later (fitted node).children := by
    refine hnode.of_subset fun child hchild => ?_
    obtain ⟨slot, hslot, hmem⟩ := List.mem_flatMap.mp hchild
    rcases List.mem_append.mp (List.mem_of_mem_take hslot) with hslot | hslot
    · exact List.mem_flatMap.mpr ⟨slot, hslot, hmem⟩
    · rw [List.eq_of_mem_replicate hslot] at hmem
      cases hmem
  refine ⟨⟨?_, fun id hid => ?_, fun id other hle hget => ?_, ?_⟩, h.size⟩
  · rw [size_add]
    exact Nat.le_succ_of_le h.size
  · -- A node of `base` is not adopted, because every child comes after it.
    rw [get?_add_of_not_mem node (Nat.lt_of_lt_of_le hid h.size) (length_fitSlots _ _)]
    · exact h.get id hid
    · exact fun hmem => absurd hid (Nat.not_lt_of_le (hchildren id hmem))
  · rw [get?_add] at hget
    split at hget
    · cases hget
      exact hchildren
    · obtain ⟨old, hold, rfl⟩ := Option.map_eq_some_iff.mp hget
      exact h.later id old hle hold
  · rw [names_add]
    exact h.names

theorem modify (h : base.Extends tree) {id : NodeId} {f : Node → Node} (hid : base.size ≤ id)
    (hf : ∀ node, (f node).children = node.children) : base.Extends (tree.modify id f) where
  size := by
    rw [size_modify]
    exact h.size
  get i hi := by
    rw [get?_modify, if_neg (Nat.ne_of_lt (Nat.lt_of_lt_of_le hi hid))]
    exact h.get i hi
  later i other hle hget := by
    rw [get?_modify] at hget
    split at hget
    · obtain ⟨old, hold, rfl⟩ := Option.map_eq_some_iff.mp hget
      rw [hf]
      exact h.later i old hle hold
    · exact h.later i other hle hget
  names := h.names

theorem truncate (h : base.Extends tree) {size : Nat} (hsize : base.size ≤ size) :
    base.Extends (tree.truncate size) where
  size := by
    rw [size_truncate]
    exact Nat.le_min.mpr ⟨hsize, h.size⟩
  get id hid := by
    rw [get?_truncate, if_pos (Nat.lt_of_lt_of_le hid hsize)]
    exact h.get id hid
  later id node hle hget := by
    rw [get?_truncate] at hget
    split at hget
    · exact h.later id node hle hget
    · cases hget
  names := h.names

theorem truncate_eq (h : base.Extends tree) :
    tree.truncate base.size = { base with names := tree.names } := by
  have hnodes : tree.nodes.take base.size = base.nodes := by
    apply Array.ext_getElem?
    intro id
    show (tree.truncate base.size).get? id = base.get? id
    rw [get?_truncate]
    split
    · exact h.get id ‹_›
    · exact (Array.getElem?_eq_none (Nat.le_of_not_lt ‹_›)).symm
  unfold Tree.truncate
  rw [hnodes]

end Extends

end Tree

end FlowErasure
