import FlowErasure.Proofs.Erasure.Regions

/-!
# Runs and gaps

Where a pass deletes all that stands between two statements or class members, these come next to each
other. Such a gap is a removed region with a survivor before it and one after it. Any longest run of
deleted statements or class members is removed as one region, at the ends of a list too.
-/

namespace FlowErasure

namespace Erasure

/-- Two elements of a list remain, and all that is between them is deleted. It has this range. -/
def GapIn (deleted : Handle → Bool) (tree : Tree) (elements : List Handle) (before after : NodeId)
    (range : Nat × Nat) : Prop :=
  ∃ front run back, elements = front ++ some before :: (run ++ some after :: back) ∧ run ≠ [] ∧
    (∀ element ∈ run, deleted element) ∧ deleted (some before) = false ∧
    deleted (some after) = false ∧ Spans tree run range

def GapAt (rules : Rules) (tree : Tree) (node : Node) (before after : NodeId)
    (range : Nat × Nat) : Prop :=
  ∃ spec items, (spec, .list items) ∈ node.fields ∧ spec.shape = .block ∧
    GapIn (isDeleted rules tree) tree items.nodes before after range

def Gap (rules : Rules) (tree : Tree) (root before after : NodeId) (range : Nat × Nat) : Prop :=
  ∃ id node, Survives rules tree root id ∧ tree.get? id = some node ∧
    GapAt rules tree node before after range

variable {rules : Rules} {deleted : Handle → Bool} {tree : Tree} {root before after : NodeId}
  {node : Node} {elements : List Handle} {range : Nat × Nat}

theorem GapIn.exists_isRun (h : GapIn deleted tree elements before after range) :
    ∃ run, IsRun deleted elements run ∧ Spans tree run range := by
  obtain ⟨front, run, back, rfl, hne, hdeleted, hbefore, hafter, hspans⟩ := h
  refine ⟨run, ⟨front ++ [some before], some after :: back, by simp, hne, hdeleted, ?_, ?_⟩, hspans⟩
  · simpa using hbefore
  · simpa using hafter

theorem GapIn.mem_kept (h : GapIn deleted tree elements before after range) :
    some before ∈ elements.filter (!deleted ·) ∧ some after ∈ elements.filter (!deleted ·) := by
  obtain ⟨front, run, back, rfl, -, -, hbefore, hafter, -⟩ := h
  simp [hbefore, hafter]

/-- From a node with a list of statements or class members no field is cleared. -/
theorem not_strips_of_block {kind : NodeKind} {block spec : FieldSpec} (hblock : block ∈ kind.schema)
    (hshape : block.shape = .block) (hspec : spec ∈ kind.schema) :
    Rules.standard.strips kind spec.field = false := by
  have hall : ∀ block ∈ kind.schema, block.shape = .block → ∀ spec ∈ kind.schema,
      Rules.standard.strips kind spec.field = false := by
    cases kind <;> decide
  exact hall block hblock hshape spec hspec

/-- No list of statements or class members is cleared as a whole. -/
theorem strips_of_block {kind : NodeKind} {spec : FieldSpec} (h : spec ∈ kind.schema)
    (hshape : spec.shape = .block) : Rules.standard.strips kind spec.field = false :=
  not_strips_of_block h hshape h

/-- A longest run of deleted statements or class members of a node has this range. -/
def RunAt (rules : Rules) (tree : Tree) (node : Node) (range : Nat × Nat) : Prop :=
  ∃ spec items run, (spec, .list items) ∈ node.fields ∧ spec.shape = .block ∧
    IsRun (isDeleted rules tree) items.nodes run ∧ Spans tree run range

theorem RunAt.removedAt (h : RunAt .standard tree node range) :
    RemovedAt .standard tree node range := by
  obtain ⟨spec, items, run, hfield, hshape, hrun, hspans⟩ := h
  have hstrips := strips_of_block (List.of_mem_zip hfield).1 hshape
  exact ⟨spec, _, hfield, .run hstrips hshape hrun hspans⟩

theorem GapAt.runAt (h : GapAt rules tree node before after range) : RunAt rules tree node range := by
  obtain ⟨spec, items, hfield, hshape, hgap⟩ := h
  obtain ⟨run, hrun, hspans⟩ := hgap.exists_isRun
  exact ⟨spec, items, run, hfield, hshape, hrun, hspans⟩

theorem GapAt.removedAt (h : GapAt .standard tree node before after range) :
    RemovedAt .standard tree node range :=
  h.runAt.removedAt

theorem Gap.removed (h : Gap .standard tree root before after range) :
    Removed .standard tree root range := by
  obtain ⟨id, node, hid, hget, hgap⟩ := h
  exact ⟨id, node, hid, hget, hgap.removedAt⟩

/-- A gap below a node is at the node or below a surviving child. -/
theorem gap_iff (hget : tree.get? root = some node) :
    Gap rules tree root before after range ↔ GapAt rules tree node before after range ∨
      ∃ child ∈ keptChildren rules tree node, Gap rules tree child before after range := by
  constructor
  · rintro ⟨id, other, hsurvives, hother, hgap⟩
    rcases (survives_iff hget).mp hsurvives with rfl | ⟨child, hchild, hsurvives⟩
    · obtain rfl := Option.some.inj (hget.symm.trans hother)
      exact .inl hgap
    · exact .inr ⟨child, hchild, id, other, hsurvives, hother, hgap⟩
  · rintro (hgap | ⟨child, hchild, id, other, hsurvives, hother, hgap⟩)
    · exact ⟨root, node, .root (by simp [hget]), hget, hgap⟩
    · exact ⟨id, other, (survives_iff hget).mpr (.inr ⟨child, hchild, hsurvives⟩), hother, hgap⟩

end Erasure

end FlowErasure
