import FlowErasure.Proofs.Erasure.Gaps
import FlowErasure.Proofs.Layout.Edits

/-!
# The edits of runs and gaps

For every longest run of deleted statements or class members at a surviving node there is one edit
that drops it with its lines. In a gap it is given a semicolon if the survivor after the gap would be
read as a continuation of the one before it.
-/

namespace FlowErasure

namespace Layout

open Erasure

variable {source : Source} {tree : Tree} {deleted : Handle → Bool} {a b : NodeId}
  {before after : Node} {range : Nat × Nat} {edits : List Edit}

def gapEdit (source : Source) (before after : Node) (range : Nat × Nat) : Edit :=
  ⟨range.1, range.2, .removeLines (continuesAcross source before after)⟩

theorem editOfRun_gap {run : List NodeId} (hbefore : tree.get? a = some before)
    (hafter : tree.get? b = some after) (hspans : Spans tree (run.reverse.map some) range) :
    editOfRun source tree .block (some a) (some b) run =
      .ok [gapEdit source before after range] := by
  obtain ⟨x, y, first, last, hx, hy, hfirst, hlast, rfl⟩ := hspans
  have hx : run.getLast? = some x := by simpa using hx
  have hy : run.head? = some y := by simpa using hy
  simp [editOfRun, hx, hy, require_some hfirst, require_some hlast, editOfLines,
    require_some hbefore, require_some hafter, gapEdit, bind, Except.bind, pure, Except.pure]

/-- The run of a gap is collected up to the survivor after it. -/
theorem mem_editsOfRuns_run {pending : List NodeId} {run back : List Handle}
    (hnone : deleted none = false) (hdeleted : ∀ element ∈ run, deleted element)
    (hstays : deleted (some b) = false) (hbefore : tree.get? a = some before)
    (hafter : tree.get? b = some after)
    (hspans : Spans tree (pending.reverse.map some ++ run) range)
    (h : editsOfRuns source tree .block (some a) pending
      ((run ++ some b :: back).map fun old => (old, deleted old)) = .ok edits) :
    gapEdit source before after range ∈ edits := by
  induction run generalizing pending with
  | nil =>
      rw [List.append_nil] at hspans
      rw [List.nil_append, List.map_cons, hstays, editsOfRuns] at h
      obtain ⟨runs, hruns, h⟩ := exists_of_bind_ok h
      obtain ⟨rest, -, h⟩ := exists_of_bind_ok h
      obtain rfl := Except.ok.inj h
      have hgap := (editOfRun_gap hbefore hafter hspans).symm.trans hruns
      obtain rfl := Except.ok.inj hgap
      exact List.mem_append_left _ (List.mem_singleton_self _)
  | cons element run ih =>
      have helement := hdeleted element List.mem_cons_self
      obtain ⟨child, rfl⟩ : ∃ child, element = some child := by
        cases element with
        | none => simp [hnone] at helement
        | some child => exact ⟨child, rfl⟩
      rw [List.cons_append, List.map_cons, helement, editsOfRuns] at h
      exact ih (fun other hother => hdeleted other (List.mem_cons_of_mem _ hother))
        (by simpa using hspans) h

theorem mem_editsOfRuns_gap {handle : Handle} {pending : List NodeId} {olds : List Handle}
    (hnone : deleted none = false) (hgap : GapIn deleted tree olds a b range)
    (hbefore : tree.get? a = some before) (hafter : tree.get? b = some after)
    (h : editsOfRuns source tree .block handle pending
      (olds.map fun old => (old, deleted old)) = .ok edits) :
    gapEdit source before after range ∈ edits := by
  obtain ⟨front, run, back, rfl, -, hdeleted, hstays, hstays', hspans⟩ := hgap
  induction front generalizing handle pending edits with
  | nil =>
      rw [List.nil_append, List.map_cons, hstays, editsOfRuns] at h
      obtain ⟨runs, -, h⟩ := exists_of_bind_ok h
      obtain ⟨rest, hrest, h⟩ := exists_of_bind_ok h
      obtain rfl := Except.ok.inj h
      exact List.mem_append_right _
        (mem_editsOfRuns_run hnone hdeleted hstays' hbefore hafter (by simpa using hspans) hrest)
  | cons old front ih =>
      rw [List.cons_append, List.map_cons] at h
      cases hold : deleted old with
      | true =>
          rw [hold, editsOfRuns] at h
          exact ih h
      | false =>
          rw [hold, editsOfRuns] at h
          obtain ⟨runs, -, h⟩ := exists_of_bind_ok h
          obtain ⟨rest, hrest, h⟩ := exists_of_bind_ok h
          obtain rfl := Except.ok.inj h
          exact List.mem_append_right _ (ih hrest)

theorem mem_editsOfList_gap {kind : NodeKind} {spec : FieldSpec} {olds : List Handle}
    (hshape : spec.shape = .block) (hnone : deleted none = false)
    (hgap : GapIn deleted tree olds a b range) (hbefore : tree.get? a = some before)
    (hafter : tree.get? b = some after)
    (h : editsOfList source tree kind spec olds (olds.filter (!deleted ·)) = .ok edits) :
    gapEdit source before after range ∈ edits := by
  rw [editsOfList, alignList_filter, hshape] at h
  obtain ⟨aligned, haligned, h⟩ := exists_of_bind_ok h
  obtain rfl := Except.ok.inj haligned
  obtain ⟨runs, hruns, h⟩ := exists_of_bind_ok h
  obtain rfl := Except.ok.inj h
  exact List.mem_append_right _ (mem_editsOfRuns_gap hnone hgap hbefore hafter hruns)

/-- The edits of a surviving node hold those of its gaps. -/
theorem mem_editsOfNode_gap {text : List Char} {t₀ : Tree} {root id : NodeId} {old node : Node}
    (h : t₀.Erased text tree root) (hid : Survives .standard t₀ root id)
    (hold : t₀.get? id = some old) (hget : tree.get? id = some node)
    (hgap : GapAt .standard t₀ old a b range) (hbefore : tree.get? a = some before)
    (hafter : tree.get? b = some after) (hedits : editsOfNode source tree node = .ok edits) :
    gapEdit source before after range ∈ edits := by
  obtain ⟨spec, items, hfield, hshape, hgap⟩ := hgap
  have hkin := h.prunes.trims.kin
  have hfields := fields_eq_erasedFields h hid hold hget
  rw [Node.original] at hfields
  rw [editsOfNode, hfields, ← (hkin.node hold hget).kind] at hedits
  obtain ⟨lists, hlists, hedits⟩ := exists_of_bind_ok hedits
  obtain rfl := Except.ok.inj hedits
  have hmem : ((spec, Slot.list items), keptOf .standard t₀ (.list items)) ∈ erasedFields t₀ old :=
    List.mem_map.mpr ⟨_, hfield, by simp [strips_of_block (List.of_mem_zip hfield).1 hshape]⟩
  obtain ⟨edits, hmem, hedits⟩ := exists_of_mapM_ok hlists hmem
  obtain ⟨front, run, back, hitems, hne, hdeleted, ha, hb, hspans⟩ := hgap
  have hgap : GapIn (isDeleted .standard t₀) tree items.nodes a b range :=
    ⟨front, run, back, hitems, hne, hdeleted, ha, hb, (spans_kin hkin).mpr hspans⟩
  exact List.mem_flatten.mpr
    ⟨edits, hmem, mem_editsOfList_gap hshape rfl hgap hbefore hafter hedits⟩

/-! ## Runs -/

theorem action_editOfRun {before after : Handle} {run : List NodeId} {edit : Edit}
    (h : editOfRun source tree .block before after run = .ok edits) (hedit : edit ∈ edits) :
    ∃ semicolon, edit.action = .removeLines semicolon := by
  unfold editOfRun at h
  split at h
  · obtain ⟨⟨_, first⟩, -, h⟩ := exists_of_bind_ok h
    obtain ⟨⟨_, last⟩, -, h⟩ := exists_of_bind_ok h
    simp only [BEq.rfl, if_true] at h
    obtain ⟨found, hfound, h⟩ := exists_of_bind_ok h
    obtain rfl := Except.ok.inj h
    rw [List.mem_singleton.mp hedit]
    unfold editOfLines at hfound
    split at hfound
    · obtain rfl := Except.ok.inj hfound
      exact ⟨false, rfl⟩
    · obtain ⟨_, -, hfound⟩ := exists_of_bind_ok hfound
      obtain ⟨_, -, hfound⟩ := exists_of_bind_ok hfound
      obtain rfl := Except.ok.inj hfound
      exact ⟨_, rfl⟩
  · obtain rfl := Except.ok.inj h
    simp at hedit

theorem action_editsOfRuns {before : Handle} {run : List NodeId} {elements : List (Handle × Bool)}
    {edit : Edit} (h : editsOfRuns source tree .block before run elements = .ok edits)
    (hedit : edit ∈ edits) : ∃ semicolon, edit.action = .removeLines semicolon := by
  induction elements generalizing before run edits with
  | nil => exact action_editOfRun h hedit
  | cons element elements ih =>
      obtain ⟨node, removed⟩ := element
      cases removed with
      | true => exact ih h hedit
      | false =>
          rw [editsOfRuns] at h
          obtain ⟨runs, hruns, h⟩ := exists_of_bind_ok h
          obtain ⟨rest, hrest, h⟩ := exists_of_bind_ok h
          obtain rfl := Except.ok.inj h
          rcases List.mem_append.mp hedit with hedit | hedit
          · exact action_editOfRun hruns hedit
          · exact ih hrest hedit

/-- What is dropped from a list of statements or class members is dropped with its lines. -/
theorem action_editsOfList {kind : NodeKind} {spec : FieldSpec} {olds : List Handle} {edit : Edit}
    (hshape : spec.shape = .block)
    (h : editsOfList source tree kind spec olds (olds.filter (!deleted ·)) = .ok edits)
    (hedit : edit ∈ edits) (hremoves : edit.removes) :
    ∃ semicolon, edit.action = .removeLines semicolon := by
  rw [editsOfList, alignList_filter, hshape] at h
  obtain ⟨aligned, haligned, h⟩ := exists_of_bind_ok h
  obtain rfl := Except.ok.inj haligned
  obtain ⟨runs, hruns, h⟩ := exists_of_bind_ok h
  obtain rfl := Except.ok.inj h
  rcases List.mem_append.mp hedit with hkept | hdropped
  · obtain ⟨handle, -, hkept⟩ := List.mem_flatMap.mp hkept
    unfold editOfKept at hkept
    split at hkept
    · split at hkept
      · rw [List.mem_singleton.mp hkept] at hremoves
        simp [Edit.removes] at hremoves
      · simp at hkept
    · simp at hkept
  · exact action_editsOfRuns hruns hdropped

/-- The edits of a surviving node hold those of its runs. -/
theorem exists_edit_of_runAt {text : List Char} {t₀ : Tree} {root id : NodeId} {old node : Node}
    (h : t₀.Erased text tree root) (hid : Survives .standard t₀ root id)
    (hold : t₀.get? id = some old) (hget : tree.get? id = some node)
    (hrun : RunAt .standard t₀ old range) (hedits : editsOfNode source tree node = .ok edits) :
    ∃ edit ∈ edits, edit.range = range ∧ ∃ semicolon, edit.action = .removeLines semicolon := by
  obtain ⟨spec, items, run, hfield, hshape, hrun, hspans⟩ := hrun
  have hstrips := strips_of_block (List.of_mem_zip hfield).1 hshape
  have hfields := fields_eq_erasedFields h hid hold hget
  rw [Node.original] at hfields
  rw [editsOfNode, hfields, ← (h.prunes.trims.kin.node hold hget).kind] at hedits
  obtain ⟨lists, hlists, hedits⟩ := exists_of_bind_ok hedits
  obtain rfl := Except.ok.inj hedits
  have hmem : ((spec, Slot.list items), keptOf .standard t₀ (.list items)) ∈ erasedFields t₀ old :=
    List.mem_map.mpr ⟨_, hfield, by simp [hstrips]⟩
  obtain ⟨edits, hmem, hedits⟩ := exists_of_mapM_ok hlists hmem
  have hgives : Gives (editsOfField source tree old.kind spec (.list items) _) _ :=
    gives_fieldEdits h hold (h.isTypeOnly hid hold) hfield
  obtain ⟨edits', hgives, hfieldEdits⟩ := hgives
  rw [hstrips, if_neg Bool.false_ne_true] at hgives
  obtain rfl := Except.ok.inj (hedits.symm.trans hgives)
  obtain ⟨edit, hedit, hremoves, hrange⟩ :=
    hfieldEdits.covers.dropped range (.run hstrips hshape hrun hspans)
  exact ⟨edit, List.mem_flatten.mpr ⟨edits, hmem, hedit⟩, hrange,
    action_editsOfList hshape hedits hedit hremoves⟩

end Layout

end FlowErasure
