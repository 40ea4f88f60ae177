import FlowErasure.Proofs.Syntax.Marks

/-!
# Changes through paths

Any change may be made to a table that nodes have only been added to: a node may be put below itself
or into two places. `Recorded` is what the marks and the kept slots say after each change.

A change is marked upwards until a marked node is met. `Climbs` is that loop without a bound on its
rounds. It ends because each round marks a node, and it may stop at a marked node because above every
changed node there is another one, or none.
-/

namespace FlowErasure

namespace Tree

variable {tree start mid : Tree}

/-! ## Marking upwards -/

def markBelow (tree : Tree) (id : NodeId) : Tree :=
  tree.modify id fun node => { node with marks := { node.marks with below := true } }

/-- Marking upwards from a node, round by round, for as long as it takes. -/
inductive Climbs : Option NodeId → Tree → Tree → Prop
  | top {tree : Tree} : Climbs none tree tree
  | missing {tree : Tree} {id : NodeId} (hget : tree.get? id = none) : Climbs (some id) tree tree
  | marked {tree : Tree} {id : NodeId} {node : Node} (hget : tree.get? id = some node)
      (hbelow : node.marks.below = true) : Climbs (some id) tree tree
  | mark {tree tree' : Tree} {id : NodeId} {node : Node} (hget : tree.get? id = some node)
      (hbelow : node.marks.below = false)
      (hrest : Climbs (node.parent.map (·.1)) (tree.markBelow id) tree') : Climbs (some id) tree tree'

def unmarked (tree : Tree) : List NodeId :=
  (List.range tree.size).filter fun id => (tree.get? id).any (!·.marks.below)

theorem length_unmarked_le (tree : Tree) : tree.unmarked.length ≤ tree.size := by
  calc tree.unmarked.length ≤ (List.range tree.size).length := List.length_filter_le _ _
    _ = tree.size := List.length_range

theorem length_unmarked_markBelow {id : NodeId} {node : Node} (hget : tree.get? id = some node)
    (hbelow : node.marks.below = false) :
    (tree.markBelow id).unmarked.length < tree.unmarked.length := by
  have hsub : (tree.markBelow id).unmarked.Sublist tree.unmarked := by
    unfold unmarked
    rw [markBelow, size_modify]
    refine List.monotone_filter_right _ fun i hi => ?_
    rw [get?_modify] at hi
    by_cases heq : i = id
    · simp [heq, hget] at hi
    · simpa [heq] using hi
  have hid : id ∈ tree.unmarked := by
    simp [unmarked, hget, hbelow, lt_size_of_get? hget]
  have hnot : id ∉ (tree.markBelow id).unmarked := by
    simp [unmarked, markBelow, hget]
  apply Nat.lt_of_le_of_ne hsub.length_le
  intro heq
  exact hnot (hsub.eq_of_length heq ▸ hid)

/-- The bound on the rounds is never what ends them. -/
theorem climbs_markAbove {bound : Nat} {above : Option NodeId}
    (hbound : tree.unmarked.length ≤ bound) : Climbs above tree (markAbove bound above tree) := by
  induction bound generalizing above tree with
  | zero =>
      rw [markAbove]
      cases above with
      | none => exact .top
      | some id =>
          cases hget : tree.get? id with
          | none => exact .missing hget
          | some node =>
              cases hbelow : node.marks.below with
              | true => exact .marked hget hbelow
              | false =>
                  have hlt := length_unmarked_markBelow hget hbelow
                  omega
  | succ bound ih =>
      cases above with
      | none => exact .top
      | some id =>
          unfold markAbove
          split
          · rename_i hget
            exact .missing hget
          · rename_i node hget
            split
            · rename_i hbelow
              exact .marked hget hbelow
            · rename_i hbelow
              have hbelow : node.marks.below = false := by simpa using hbelow
              have hlt := length_unmarked_markBelow hget hbelow
              apply Climbs.mark hget hbelow
              apply ih
              omega

/-! ## Marks above marks -/

/-- The node that a changed node names as its parent has changed as well, unless it is the one that is
to be marked next. -/
def DirtyUp (above : Option NodeId) (tree : Tree) : Prop :=
  ∀ id p : NodeId, tree.isDirty id → tree.parentId? id = some p → p < tree.size →
    tree.isDirty p ∨ above = some p

theorem isDirty_of_get? {id : NodeId} {node : Node} (hget : tree.get? id = some node) :
    tree.isDirty id = node.marks.any := by
  simp [isDirty, hget]

theorem isDirty_markBelow {id i : NodeId} (hlt : id < tree.size) :
    (tree.markBelow id).isDirty i = (decide (i = id) || tree.isDirty i) := by
  obtain ⟨node, hget⟩ := exists_get? hlt
  rw [isDirty, isDirty, markBelow, get?_modify]
  by_cases hi : i = id
  · simp [hi, hget, Marks.any]
  · simp [hi]

theorem Climbs.dirtyUp {above : Option NodeId} {tree' : Tree} (h : Climbs above tree tree')
    (hup : tree.DirtyUp above) : tree'.DirtyUp none := by
  induction h with
  | top => exact hup
  | missing hget =>
      intro i p hdirty hp hlt
      obtain ⟨node, hnode⟩ := exists_get? hlt
      apply (hup i p hdirty hp hlt).imp_right
      intro heq
      rw [Option.some.inj heq, hnode] at hget
      cases hget
  | marked hget hbelow =>
      intro i p hdirty hp hlt
      rcases hup i p hdirty hp hlt with hparent | heq
      · exact .inl hparent
      · left
        rw [← Option.some.inj heq, isDirty_of_get? hget]
        simp [Marks.any, hbelow]
  | @mark tree _ id node hget _ _ ih =>
      apply ih
      intro i p hdirty hp hlt
      have hid := lt_size_of_get? hget
      rw [isDirty_markBelow hid] at hdirty ⊢
      rw [markBelow, parentId?_below] at hp
      rw [markBelow, size_modify] at hlt
      by_cases hi : i = id
      · right
        rw [hi, parentId?, hget] at hp
        exact hp
      · left
        have hdirty : tree.isDirty i := by simpa [hi] using hdirty
        rcases hup i p hdirty hp hlt with hparent | heq
        · simp [hparent]
        · simp [Option.some.inj heq]

/-! ## Tables without changes -/

/-- A table that nothing has been done to but adding nodes. -/
inductive Built : Tree → Prop
  | empty (names : Names) : Built ⟨#[], names⟩
  | add {tree : Tree} {node : Node} (h : Built tree) (hmarks : node.marks = {})
      (hbefore : node.before = none) : Built (tree.add node).2

theorem Built.unchanged (h : tree.Built) {id : NodeId} {node : Node}
    (hget : tree.get? id = some node) : node.marks = {} ∧ node.before = none := by
  induction h generalizing id node with
  | empty => simp [get?] at hget
  | @add tree new _ hmarks hbefore ih =>
      rw [get?_add] at hget
      by_cases hid : id = tree.size
      · rw [if_pos hid] at hget
        obtain rfl := Option.some.inj hget
        exact ⟨hmarks, hbefore⟩
      · rw [if_neg hid] at hget
        obtain ⟨old, hold, rfl⟩ := Option.map_eq_some_iff.mp hget
        have hunchanged := ih hold
        exact hunchanged

/-! ## What is recorded of changes -/

structure Recorded (start tree : Tree) : Prop where
  size : tree.size = start.size
  /-- Slots are kept for the nodes that have changed, and for no others. -/
  kept : ∀ {id : NodeId} {node : Node}, tree.get? id = some node →
    (node.before.isSome ↔ node.marks.own = true)
  /-- They are the slots from the start. -/
  before : ∀ {id : NodeId} {node : Node} {slots : List Slot}, tree.get? id = some node →
    node.before = some slots → slots = start.slots id
  /-- A node that has not changed has those slots still. -/
  same : ∀ {id : NodeId} {node : Node}, tree.get? id = some node → node.marks.own = false →
    node.slots = start.slots id
  /-- A node is marked when the last node that adopted a marked one is this one. -/
  up : ∀ {id p : NodeId}, tree.isDirty id → tree.parentId? id = some p → p < tree.size →
    tree.isDirty p

theorem Built.recorded (h : tree.Built) : tree.Recorded tree where
  size := rfl
  kept hget := by simp [h.unchanged hget]
  before hget hbefore := by simp [h.unchanged hget] at hbefore
  same hget _ := (slots_of_get? hget).symm
  up {id p} hdirty _ _ := by
    cases hget : tree.get? id with
    | none => simp [isDirty, hget] at hdirty
    | some node =>
        rw [isDirty_of_get? hget, (h.unchanged hget).1] at hdirty
        cases hdirty

section Replacing

variable {id : NodeId} {index : Nat} {value : Slot} {node : Node} {spec : FieldSpec}

theorem isDirty_exchanged (hget : tree.get? id = some node) (field : Field) (i : NodeId) :
    (tree.exchanged id index value field).isDirty i = (decide (i = id) || tree.isDirty i) := by
  rw [isDirty, isDirty, get?_exchanged, Option.any_map]
  by_cases hi : i = id
  · simp [hi, hget, Node.change, Marks.any]
  · simp [hi]

/-- A node that is adopted by another than its parent is adopted by the node whose slot changes. -/
theorem parentId?_exchanged {field : Field} {i p : NodeId}
    (hp : (tree.exchanged id index value field).parentId? i = some p) :
    p = id ∨ tree.parentId? i = some p := by
  rw [parentId?, get?_exchanged] at hp
  obtain ⟨new, hnew, hparent⟩ := Option.bind_eq_some_iff.mp hp
  obtain ⟨old, hold, rfl⟩ := Option.map_eq_some_iff.mp hnew
  by_cases hmem : i ∈ value.children
  · left
    simpa [hmem, eq_comm] using hparent
  · right
    simpa [parentId?, hold, hmem] using hparent

/-- Once the slot is exchanged, only the marks above the node are still missing. -/
theorem Recorded.dirtyUp_exchanged (h : start.Recorded tree) (hget : tree.get? id = some node)
    (field : Field) :
    (tree.exchanged id index value field).DirtyUp
      ((tree.exchanged id index value field).parentId? id) := by
  intro i p hdirty hp hlt
  rw [isDirty_exchanged hget] at hdirty ⊢
  rw [size_exchanged] at hlt
  by_cases hi : i = id
  · exact .inr (hi ▸ hp)
  · left
    have hdirty : tree.isDirty i := by simpa [hi] using hdirty
    rcases parentId?_exchanged hp with hpid | hparent
    · simp [hpid]
    · simp [h.up hdirty hparent hlt]

/-- Replacing a slot ends with marking upwards, however long that takes. -/
theorem Replaces.climbs (h : tree.Replaces id index value node spec) :
    Climbs ((tree.exchanged id index value spec.field).parentId? id)
      (tree.exchanged id index value spec.field) (tree.replaceSlot id index value).2 := by
  rw [h.replaceSlot_eq]
  apply climbs_markAbove
  calc (tree.exchanged id index value spec.field).unmarked.length
      ≤ (tree.exchanged id index value spec.field).size := length_unmarked_le _
    _ = tree.size := size_exchanged ..

/-- What is recorded stays right when a slot is replaced. -/
theorem Recorded.replaces (h : start.Recorded tree)
    (hreplaces : tree.Replaces id index value node spec) :
    start.Recorded (tree.replaceSlot id index value).2 := by
  obtain ⟨marked, hmarked⟩ := hreplaces.get?
  have hslots := slots_of_get? hreplaces.get
  exact {
    size := by rw [size_replaceSlot, h.size]
    kept := fun {i new} hget => by
      rw [hmarked] at hget
      obtain ⟨old, hold, rfl⟩ := Option.map_eq_some_iff.mp hget
      by_cases hi : i = id
      · cases hbefore : old.before <;> simp [hi, Node.marking, Node.change, hbefore]
      · simpa [hi, Node.marking] using h.kept hold
    before := fun {i new slots} hget hbefore => by
      rw [hmarked] at hget
      obtain ⟨old, hold, rfl⟩ := Option.map_eq_some_iff.mp hget
      by_cases hi : i = id
      · cases hkept : old.before with
        | some kept =>
            obtain rfl : kept = slots := by
              simpa [hi, Node.marking, Node.change, hkept] using hbefore
            exact h.before hold hkept
        | none =>
            -- The first change of the node: until now it has had the slots from the start.
            obtain rfl : old.slots = slots := by
              simpa [hi, Node.marking, Node.change, hkept] using hbefore
            have hown : old.marks.own = false := by
              simpa [hkept] using (h.kept hold).not
            exact h.same hold hown
      · exact h.before hold (by simpa [hi, Node.marking] using hbefore)
    same := fun {i new} hget hown => by
      rw [hmarked] at hget
      obtain ⟨old, hold, rfl⟩ := Option.map_eq_some_iff.mp hget
      by_cases hi : i = id
      · simp [hi, Node.marking, Node.change] at hown
      · simp only [hi, if_false, Node.marking] at hown ⊢
        exact h.same hold hown
    up := fun {i p} hdirty hp hlt => by
      have hup := hreplaces.climbs.dirtyUp (h.dirtyUp_exchanged hreplaces.get _)
      exact (hup i p hdirty hp hlt).resolve_right (by simp) }

end Replacing

end Tree

/-! ## Sequences of changes -/

/-- Something that is to stand where a path leads; with `none` what is there is removed. -/
structure Change where
  path : Path
  replacement : Option Handle
  deriving DecidableEq, Repr, Inhabited

namespace Change

variable {tree start : Tree}

def apply (change : Change) (tree : Tree) : Except PathError Bool × Tree :=
  match change.path.replace tree change.replacement with
  | .ok (changed, tree') => (.ok changed, tree')
  | .error e => (.error e, tree)

def applyAll (changes : List Change) (tree : Tree) : Tree :=
  changes.foldl (fun tree change => (change.apply tree).2) tree

theorem apply_cases (change : Change) (tree : Tree) :
    (∃ e, change.apply tree = (.error e, tree)) ∨
      ∃ id index value, change.apply tree =
        (.ok (tree.replaceSlot id index value).1, (tree.replaceSlot id index value).2) := by
  obtain ⟨path, replacement⟩ := change
  unfold apply
  cases path with
  | root node => exact .inl ⟨_, rfl⟩
  | field parent f =>
      simp only [Path.replace, bind, Except.bind]
      cases Path.locate tree parent f with
      | error e => exact .inl ⟨e, rfl⟩
      | ok place =>
          cases replacement with
          | none => exact .inr ⟨_, _, _, rfl⟩
          | some node =>
              by_cases hsequence : place.spec.isSequence
              · simp only [hsequence, if_true]
                exact .inl ⟨_, rfl⟩
              · simp only [hsequence, Bool.false_eq_true, if_false]
                exact .inr ⟨_, _, _, rfl⟩
  | element parent f i =>
      simp only [Path.replace, bind, Except.bind]
      cases Path.locate tree parent f with
      | error e => exact .inl ⟨e, rfl⟩
      | ok place =>
          obtain ⟨id, kind, index, spec, slot⟩ := place
          cases slot with
          | absent => exact .inl ⟨_, rfl⟩
          | node child => exact .inl ⟨_, rfl⟩
          | list items =>
              by_cases hi : i < items.nodes.length
              · simp only [hi, if_true]
                exact .inr ⟨_, _, _, rfl⟩
              · simp only [hi, if_false]
                exact .inl ⟨_, rfl⟩

/-- A change that answers that it has changed something has replaced a slot by something else. -/
theorem replaces_of_apply {change : Change} (h : (change.apply tree).1 = .ok true) :
    ∃ id index value node spec, tree.Replaces id index value node spec ∧
      (change.apply tree).2 = (tree.replaceSlot id index value).2 := by
  rcases change.apply_cases tree with ⟨e, heq⟩ | ⟨id, index, value, heq⟩
  · simp [heq] at h
  · rw [heq] at h ⊢
    rcases tree.replaceSlot_cases id index value with hsame | ⟨node, spec, hreplaces, -⟩
    · simp [hsame] at h
    · exact ⟨id, index, value, node, spec, hreplaces, rfl⟩

/-- A change that answers anything else has left the table as it was. -/
theorem apply_eq_of_ne {change : Change} (h : (change.apply tree).1 ≠ .ok true) :
    (change.apply tree).2 = tree := by
  rcases change.apply_cases tree with ⟨e, heq⟩ | ⟨id, index, value, heq⟩
  · rw [heq]
  · rw [heq] at h ⊢
    rcases tree.replaceSlot_cases id index value with hsame | ⟨node, spec, -, htrue⟩
    · rw [hsame]
    · simp [htrue] at h

theorem recorded_apply (h : start.Recorded tree) (change : Change) :
    start.Recorded (change.apply tree).2 := by
  by_cases hchanged : (change.apply tree).1 = .ok true
  · obtain ⟨id, index, value, node, spec, hreplaces, heq⟩ := replaces_of_apply hchanged
    rw [heq]
    exact h.replaces hreplaces
  · rwa [apply_eq_of_ne hchanged]

theorem recorded_applyAll (h : start.Recorded tree) (changes : List Change) :
    start.Recorded (applyAll changes tree) := by
  induction changes generalizing tree with
  | nil => exact h
  | cons change changes ih => exact ih (recorded_apply h change)

/-- Whatever is done to a table that nodes have only been added to, the marks and the kept slots are
right after each change. The next change either answers that it has changed something, and then its
marking upwards comes to an end on its own, or it leaves the table as it is. -/
theorem changes_recorded {start : Tree} (h : start.Built) (changes : List Change) :
    start.Recorded (applyAll changes start) ∧
      ∀ change : Change,
        ((change.apply (applyAll changes start)).1 = .ok true →
          ∃ id index value node spec,
            (applyAll changes start).Replaces id index value node spec ∧
            Tree.Climbs
              (((applyAll changes start).exchanged id index value spec.field).parentId? id)
              ((applyAll changes start).exchanged id index value spec.field)
              (change.apply (applyAll changes start)).2) ∧
        ((change.apply (applyAll changes start)).1 ≠ .ok true →
          (change.apply (applyAll changes start)).2 = applyAll changes start) := by
  refine ⟨recorded_applyAll h.recorded changes, fun change => ⟨fun hchanged => ?_, apply_eq_of_ne⟩⟩
  obtain ⟨id, index, value, node, spec, hreplaces, heq⟩ := replaces_of_apply hchanged
  refine ⟨id, index, value, node, spec, hreplaces, ?_⟩
  rw [heq]
  exact hreplaces.climbs

def operations : Tree :=
  let name := Tree.empty.add { kind := .identifier, start := 2, stop := 3, slots := [] }
  let inner := name.2.add { kind := .unaryExpression, start := 1, stop := 3, slots := [.node name.1] }
  (inner.2.add { kind := .unaryExpression, start := 0, stop := 3, slots := [.node inner.1] }).2

/-- The outer operation is put into the inner one, and then into itself. -/
theorem changes_recorded_cycle :
    operations.Built ∧
      operations.Recorded (applyAll [⟨.field (some 1) .argument, some (some 2)⟩,
        ⟨.field (some 2) .argument, some (some 2)⟩] operations) ∧
      (applyAll [⟨.field (some 1) .argument, some (some 2)⟩,
        ⟨.field (some 2) .argument, some (some 2)⟩] operations).dirtyNodes = [1, 2] := by
  have hbuilt : operations.Built := (((Tree.Built.empty .common).add rfl rfl).add rfl rfl).add rfl rfl
  exact ⟨hbuilt, (changes_recorded hbuilt _).1, by decide +kernel⟩

end Change

end FlowErasure
