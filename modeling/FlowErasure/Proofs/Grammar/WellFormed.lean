import FlowErasure.Proofs.Grammar.Program

/-!
# The tree of a source

What the parser answers is a tree below its last node: every node fits its kind, comes before its
parent and knows it. Beside the tree there are only the expressions that were read again as patterns,
for an attempt that fails takes its nodes with it.
-/

namespace FlowErasure

/-- The part of a table below its last node is a tree, and what is beside it has been replaced by
something in it. -/
structure Tree.WellFormed (tree : Tree) (root : NodeId) : Prop where
  last : tree.size = root + 1
  /-- There is one slot for each field of the schema. -/
  fits : tree.Fits
  /-- A required field for one node holds a node, an optional one a node or nothing, and fields for
  more hold lists. -/
  accepts : ∀ id spec slot, (spec, slot) ∈ tree.fields id → spec.accepts slot
  below : ∀ a b, tree.Holds a b → b < a
  /-- No node is held twice. -/
  isTree : tree.IsTreeBelow root
  parent : ∀ id, tree.Reaches root id → ∀ spec slot, (spec, slot) ∈ tree.fields id →
    ∀ c ∈ slot.children, tree.parent? c = some (id, spec.field)
  replaced : ∀ id < tree.size, ¬tree.Reaches root id →
    ∃ pattern, tree.Reaches root pattern ∧ tree.StandsFor pattern id

namespace Tree.ReadFrom

variable {text : List Char} {tree : Tree} {root : NodeId}

theorem accepts (h : tree.ReadFrom text root) {id : NodeId} {spec : FieldSpec} {slot : Slot}
    (hfield : (spec, slot) ∈ tree.fields id) : spec.accepts slot := by
  cases hget : tree.get? id with
  | none => simp [fields, hget] at hfield
  | some node =>
      rw [fields_of_get? hget] at hfield
      exact (h.shape hget).accepts hfield

theorem replaced (h : tree.ReadFrom text root) {id : NodeId} (hlt : id < tree.size)
    (hid : ¬tree.Reaches root id) :
    ∃ pattern, tree.Reaches root pattern ∧ tree.StandsFor pattern id := by
  obtain ⟨top, htop, pattern, hreach, hpattern⟩ := h.covered id hlt
  rw [List.mem_singleton] at htop
  subst htop
  rcases hpattern with rfl | hpattern
  · exact absurd hreach hid
  · exact ⟨pattern, hreach, hpattern⟩

end Tree.ReadFrom

/-- Every source that can be read gives a tree. -/
theorem wellFormed_of_parse {text : List Char} {fileName : Option String} {parsed : Parsed}
    (h : parse text fileName = .ok parsed) : parsed.tree.WellFormed parsed.root := by
  obtain ⟨-, -, hread⟩ := readFrom_of_parse h
  exact
    { last := hread.size
      fits := hread.fits
      accepts := fun _ _ _ hfield => hread.accepts hfield
      below := fun _ _ hab => hread.lt_of_holds hab
      isTree := hread.isTreeBelow
      parent := fun id hid => (hread.owned id hid).2
      replaced := fun _ hlt hid => hread.replaced hlt hid }

/-- The literal on the left becomes a pattern here. -/
theorem wellFormed_destructuring : ∃ parsed, parse "[a = 1] = b".toList none = .ok parsed ∧
    parsed.tree.WellFormed parsed.root := by
  have hsome : (parse "[a = 1] = b".toList none).toOption.isSome := by decide +kernel
  cases hparse : parse "[a = 1] = b".toList none with
  | error e =>
      rw [hparse] at hsome
      exact absurd hsome Bool.false_ne_true
  | ok parsed => exact ⟨parsed, rfl, wellFormed_of_parse hparse⟩

end FlowErasure
