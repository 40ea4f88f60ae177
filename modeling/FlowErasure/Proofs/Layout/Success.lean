import FlowErasure.Compile
import FlowErasure.Proofs.Erasure.Pruning
import FlowErasure.Proofs.Layout.Gives
import FlowErasure.Proofs.Sorting

/-!
# Trees that have a layout

Removals leave a tree that can be laid out. Every list is still a sublist of what it was, so no
element of it passes for an exchanged or an inserted one, and every node that is laid out covers some
text. Only the program may cover none.
-/

namespace FlowErasure

namespace Layout

variable {tree : Tree} {source : Source} {kind : NodeKind}

theorem require_some {id : NodeId} {node : Node} (h : tree.get? id = some node) :
    require tree (some id) = .ok (id, node) := by
  simp [require, h, pure, Except.pure]

/-- A handle that is empty or leads to a node. -/
def Known (tree : Tree) (handle : Handle) : Prop :=
  ∀ id, handle = some id → ∃ node, tree.get? id = some node

theorem known_none : Known tree none :=
  nofun

theorem Known.gives_require {id : NodeId} (h : Known tree (some id)) :
    Gives (require tree (some id)) fun found => found.1 = id := by
  obtain ⟨node, hget⟩ := h id rfl
  exact ⟨_, require_some hget, rfl⟩

def Edit.PrintsIn (ids : List NodeId) (edit : Edit) : Prop :=
  ∀ id, edit.action = .print id → id ∈ ids

theorem printsIn_editOfKept {handle : Handle} :
    ∀ edit ∈ editOfKept tree handle, edit.PrintsIn handle.toList := by
  intro edit hedit id hprint
  unfold editOfKept at hedit
  split at hedit
  · rename_i found node hrequire
    obtain ⟨child, hchild, hfound⟩ : ∃ child, handle = some child ∧ child = found := by
      cases handle with
      | none => simp [require, throw, throwThe, MonadExceptOf.throw] at hrequire
      | some child =>
          refine ⟨child, rfl, ?_⟩
          cases hget : tree.get? child with
          | none => simp [require, hget, throw, throwThe, MonadExceptOf.throw] at hrequire
          | some node =>
              rw [require_some hget] at hrequire
              exact congrArg Prod.fst (Except.ok.inj hrequire)
    by_cases hmarks : node.marks.any
    · simp only [hmarks, if_true, List.mem_singleton] at hedit
      simp only [hedit, EditAction.print.injEq] at hprint
      simp [hchild, hfound, hprint]
    · simp [hmarks] at hedit
  · simp at hedit

/-! ## Lists -/

/-- A list that has only lost elements can be aligned with what it was. -/
theorem gives_alignList {field : Field} {olds news : List Handle} (h : news.Sublist olds) :
    Gives (alignList tree kind field olds news) fun aligned =>
      (∀ edit ∈ aligned.1, edit.PrintsIn (olds.filterMap id)) ∧ aligned.2.map (·.1) = olds := by
  induction olds generalizing news with
  | nil =>
      obtain rfl := List.sublist_nil.mp h
      rw [alignList, gives_pure]
      simp
  | cons old olds ih =>
      have hwiden : ∀ edit : Edit, edit.PrintsIn (olds.filterMap id) →
          edit.PrintsIn ((old :: olds).filterMap id) := by
        intro edit hedit id hprint
        have := hedit id hprint
        cases old <;> simp_all
      cases news with
      | nil =>
          rw [alignList, gives_bind]
          refine (ih (List.nil_sublist _)).mono fun aligned haligned => gives_pure.mpr ⟨?_, ?_⟩
          · exact fun edit hedit => hwiden edit (haligned.1 edit hedit)
          · simp [haligned.2]
      | cons new news =>
          rw [alignList]
          by_cases heq : new = old
          · subst heq
            rw [if_pos rfl, gives_bind]
            refine (ih h.tail).mono fun aligned haligned => gives_pure.mpr ⟨fun edit hedit => ?_, ?_⟩
            · rcases List.mem_append.mp hedit with hedit | hedit
              · intro id hprint
                have hmem := printsIn_editOfKept edit hedit id hprint
                cases new <;> simp_all
              · exact hwiden edit (haligned.1 edit hedit)
            · simp [haligned.2]
          · have hsub : (new :: news).Sublist olds := by
              cases h with
              | cons _ h => exact h
              | cons_cons => exact absurd rfl heq
            -- There are fewer new elements than old ones left, so none was exchanged.
            have hlength : news.length ≠ olds.length := by
              have := hsub.length_le
              simp only [List.length_cons] at this
              omega
            rw [if_neg heq, if_neg hlength, gives_bind]
            refine (ih hsub).mono fun aligned haligned => gives_pure.mpr ⟨?_, ?_⟩
            · exact fun edit hedit => hwiden edit (haligned.1 edit hedit)
            · simp [haligned.2]

theorem gives_editOfLines {start stop : Nat} {before after : Handle} (hbefore : Known tree before)
    (hafter : Known tree after) :
    Gives (editOfLines source tree start stop before after) fun edit =>
      ∃ semicolon, edit = ⟨start, stop, .removeLines semicolon⟩ := by
  unfold editOfLines
  cases before with
  | none => exact gives_pure.mpr ⟨false, rfl⟩
  | some before =>
      cases after with
      | none => exact gives_pure.mpr ⟨false, rfl⟩
      | some after =>
          simp only [Option.isNone_some, Bool.or_self, Bool.false_eq_true, if_false, gives_bind]
          refine hbefore.gives_require.mono fun _ _ => hafter.gives_require.mono fun _ _ => ?_
          exact gives_pure.mpr ⟨_, rfl⟩

theorem gives_editOfSeparated {start stop : Nat} {before after : Handle}
    (hbefore : Known tree before) (hafter : Known tree after) :
    Gives (editOfSeparated tree start stop before after) fun edit => edit.PrintsIn [] := by
  unfold editOfSeparated
  cases after with
  | some after =>
      simp only [Option.isSome_some, if_true, gives_bind]
      exact hafter.gives_require.mono fun _ _ => gives_pure.mpr (by simp [Edit.PrintsIn])
  | none =>
      cases before with
      | none => exact gives_pure.mpr (by simp [Edit.PrintsIn])
      | some before =>
          simp only [Option.isSome_none, Bool.false_eq_true, if_false, Option.isSome_some, if_true,
            gives_bind]
          exact hbefore.gives_require.mono fun _ _ => gives_pure.mpr (by simp [Edit.PrintsIn])

theorem gives_editOfRun {shape : FieldShape} {before after : Handle} {run : List NodeId}
    (hbefore : Known tree before) (hafter : Known tree after)
    (hrun : ∀ id ∈ run, Known tree (some id)) :
    Gives (editOfRun source tree shape before after run) fun edits =>
      ∀ edit ∈ edits, edit.PrintsIn [] := by
  unfold editOfRun
  split
  · rename_i first last hfirst hlast
    simp only [gives_bind]
    refine (hrun first (List.mem_of_getLast? hfirst)).gives_require.mono fun _ _ =>
      (hrun last (List.mem_of_head? hlast)).gives_require.mono fun _ _ => ?_
    split
    · rw [gives_bind]
      refine (gives_editOfLines hbefore hafter).mono fun edit hedit => gives_pure.mpr ?_
      obtain ⟨semicolon, rfl⟩ := hedit
      simp [Edit.PrintsIn]
    · rw [gives_bind]
      exact (gives_editOfSeparated hbefore hafter).mono fun edit hedit => gives_pure.mpr (by simpa)
  · exact gives_pure.mpr (by simp [Edit.PrintsIn])

theorem known_nextKept? {elements : List (Handle × Bool)}
    (h : ∀ element ∈ elements, Known tree element.1) : Known tree (nextKept? elements) := by
  induction elements with
  | nil => exact nofun
  | cons element elements ih =>
      have hrest := ih fun other hother => h other (List.mem_cons_of_mem _ hother)
      unfold nextKept?
      split
      · exact nofun
      · rename_i id _ heq
        obtain ⟨rfl, -⟩ := List.cons.inj heq
        exact h (some id, false) (by simp)
      · rename_i heq
        obtain ⟨-, rfl⟩ := List.cons.inj heq
        exact hrest

theorem gives_editsOfRuns {shape : FieldShape} {before : Handle} {run : List NodeId}
    {elements : List (Handle × Bool)} (hbefore : Known tree before)
    (hrun : ∀ id ∈ run, Known tree (some id))
    (helements : ∀ element ∈ elements, Known tree element.1) :
    Gives (editsOfRuns source tree shape before run elements) fun edits =>
      ∀ edit ∈ edits, edit.PrintsIn [] := by
  induction elements generalizing before run with
  | nil =>
      rw [editsOfRuns]
      exact gives_editOfRun hbefore known_none hrun
  | cons element elements ih =>
      have hrest : ∀ other ∈ elements, Known tree other.1 :=
        fun other hother => helements other (List.mem_cons_of_mem _ hother)
      have hfirst : Known tree element.1 := helements element (by simp)
      obtain ⟨handle, removed⟩ := element
      cases removed with
      | true =>
          rw [editsOfRuns]
          refine ih hbefore (fun id hid => ?_) hrest
          rcases List.mem_append.mp hid with hid | hid
          · rwa [← Option.mem_toList.mp hid]
          · exact hrun id hid
      | false =>
          rw [editsOfRuns, gives_bind]
          refine (gives_editOfRun hbefore (known_nextKept? helements) hrun).mono
            fun edits hedits => ?_
          have hnext : Known tree (handle <|> before) := by
            cases handle with
            | none => exact hbefore
            | some id => exact hfirst
          rw [gives_bind]
          refine (ih hnext (by simp) hrest).mono fun others hothers => ?_
          refine gives_pure.mpr fun edit hedit => ?_
          rcases List.mem_append.mp hedit with hedit | hedit
          · exact hedits edit hedit
          · exact hothers edit hedit

theorem gives_editsOfList {spec : FieldSpec} {olds news : List Handle}
    (hknown : ∀ child ∈ olds.filterMap id, Known tree (some child)) (hsub : news.Sublist olds) :
    Gives (editsOfList source tree kind spec olds news) fun edits =>
      ∀ edit ∈ edits, edit.PrintsIn (olds.filterMap id) := by
  rw [editsOfList, gives_bind]
  refine (gives_alignList hsub).mono fun aligned haligned => ?_
  have helements : ∀ element ∈ aligned.2, Known tree element.1 := by
    intro element helement child hchild
    have hmem : element.1 ∈ olds := haligned.2 ▸ List.mem_map_of_mem helement
    exact hknown child (List.mem_filterMap.mpr ⟨_, hmem, hchild⟩) child rfl
  rw [gives_bind]
  refine (gives_editsOfRuns known_none (by simp) helements).mono fun runs hruns => ?_
  refine gives_pure.mpr fun edit hedit => ?_
  rcases List.mem_append.mp hedit with hedit | hedit
  · exact haligned.1 edit hedit
  · exact fun child hprint => absurd (hruns edit hedit child hprint) (by simp)

/-! ## Nodes -/

/-- A field has edits if it holds what can be left of what it held. -/
theorem gives_editsOfField {spec : FieldSpec} {old new : Slot} (htrims : old.Trims new)
    (hknown : ∀ child ∈ old.children, Known tree (some child)) :
    Gives (editsOfField source tree kind spec old new) fun edits =>
      ∀ edit ∈ edits, edit.PrintsIn old.children := by
  cases htrims with
  | same =>
      cases old with
      | absent => exact gives_pure.mpr nofun
      | node id =>
          simp only [editsOfField, if_true, gives_pure]
          exact printsIn_editOfKept
      | list items => exact gives_editsOfList hknown (.refl _)
  | cleared =>
      cases old with
      | absent => exact gives_pure.mpr nofun
      | node id =>
          simp only [editsOfField, gives_bind]
          exact (hknown id (by simp [Slot.children])).gives_require.mono fun _ _ =>
            gives_pure.mpr (by simp [Edit.PrintsIn])
      | list items =>
          by_cases hlt : items.start < items.stop
          · simp [editsOfField, hlt, Edit.PrintsIn]
          · simp [editsOfField, hlt]
  | shortened start stop hsub => exact gives_editsOfList hknown hsub

theorem action_of_mem_piecesOfEdit {cursor : Nat} {edit : Edit} {id : NodeId}
    (h : Piece.node id ∈ (piecesOfEdit source cursor edit).1) : edit.action = .print id := by
  unfold piecesOfEdit at h
  cases haction : edit.action with
  | print child =>
      have heq : id = child := by simpa [haction] using h
      rw [heq]
  | removeLines semicolon =>
      cases semicolon <;> simp [haction, droppedPieces] at h
  | removeField | removeExact => simp [haction, droppedPieces] at h

theorem exists_of_mem_piecesFrom {stop cursor : Nat} {edits : List Edit} {id : NodeId}
    (h : Piece.node id ∈ piecesFrom source stop cursor edits) :
    ∃ edit ∈ edits, edit.action = .print id := by
  induction edits generalizing cursor with
  | nil => simp [piecesFrom] at h
  | cons edit edits ih =>
      rw [piecesFrom] at h
      split at h
      · obtain ⟨other, hother, haction⟩ := ih h
        exact ⟨other, List.mem_cons_of_mem _ hother, haction⟩
      · rcases List.mem_append.mp h with h | h
        · exact ⟨edit, by simp, action_of_mem_piecesOfEdit h⟩
        · obtain ⟨other, hother, haction⟩ := ih h
          exact ⟨other, List.mem_cons_of_mem _ hother, haction⟩

end Layout

namespace Tree

variable {text : List Char} {t₀ tree : Tree} {root id : NodeId} {node : Node}

/-- A node of a tree whose slots have been trimmed, with what it was before. -/
theorem ReadFrom.trimmed (h : t₀.ReadFrom text root) (htrims : t₀.Trims tree)
    (hget : tree.get? id = some node) :
    ∃ old, t₀.get? id = some old ∧ old.Kin node ∧ node.original = old.slots := by
  have hlt : id < t₀.size := htrims.kin.size ▸ lt_size_of_get? hget
  obtain ⟨old, hold⟩ := exists_get? hlt
  have hkin := htrims.kin.node hold hget
  refine ⟨old, hold, hkin, ?_⟩
  rw [← hkin.original, Node.original, (h.shape hold).unmarked.2, Option.getD_none]

theorem ReadFrom.hasSpan (h : t₀.ReadFrom text root) (htrims : t₀.Trims tree)
    (hget : tree.get? id = some node) (hid : id ≠ root) : node.hasSpan := by
  obtain ⟨old, hold, hkin, -⟩ := h.trimmed htrims hget
  have hlt := (h.sound hold hid).lt
  simpa [Node.hasSpan, ← hkin.start, ← hkin.stop] using hlt

theorem ReadFrom.trims_of_mem (h : t₀.ReadFrom text root) (htrims : t₀.Trims tree)
    (hget : tree.get? id = some node) {spec : FieldSpec} {old new : Slot}
    (hmem : ((spec, old), new) ∈ (node.kind.schema.zip node.original).zip node.slots) :
    old.Trims new ∧ ∀ child ∈ old.children, child ∈ t₀.children id := by
  obtain ⟨before, hbefore, -, horiginal⟩ := h.trimmed htrims hget
  obtain ⟨index, hindex⟩ := List.mem_iff_getElem?.mp hmem
  rw [List.getElem?_zip_eq_some, List.getElem?_zip_eq_some] at hindex
  obtain ⟨⟨-, hold⟩, hnew⟩ := hindex
  replace hold : (t₀.slots id)[index]? = some old := by
    rw [slots_of_get? hbefore, ← horiginal]
    exact hold
  replace hnew : (tree.slots id)[index]? = some new := by
    rw [slots_of_get? hget]
    exact hnew
  refine ⟨htrims.slot hold hnew, fun child hchild => ?_⟩
  rw [children_eq]
  exact List.mem_flatMap.mpr ⟨old, List.mem_of_getElem? hold, hchild⟩

theorem ReadFrom.known (h : t₀.ReadFrom text root) (htrims : t₀.Trims tree) {child : NodeId}
    (hchild : child ∈ t₀.children id) : ∃ node, tree.get? child = some node := by
  obtain ⟨node, hget, -⟩ := exists_get?_of_holds hchild
  have hlt : child < id := h.lt_of_holds hchild
  exact exists_get? (htrims.kin.size ▸ Nat.lt_trans hlt (lt_size_of_get? hget))

end Tree

namespace Layout

variable {text : List Char} {t₀ tree : Tree} {root id : NodeId} {node : Node} {source : Source}

/-- The edits of a node are found, and only children of it are laid out for them. -/
theorem gives_editsOfNode (hread : t₀.ReadFrom text root) (htrims : t₀.Trims tree)
    (hget : tree.get? id = some node) :
    Gives (editsOfNode source tree node) fun edits =>
      ∀ edit ∈ edits, edit.PrintsIn (t₀.children id) := by
  have hfields : ∀ field ∈ (node.kind.schema.zip node.original).zip node.slots,
      Gives (editsOfField source tree node.kind field.1.1 field.1.2 field.2) fun edits =>
        ∀ edit ∈ edits, edit.PrintsIn (t₀.children id) := by
    rintro ⟨⟨spec, old⟩, new⟩ hmem
    obtain ⟨htrims', hchildren⟩ := hread.trims_of_mem htrims hget hmem
    refine (gives_editsOfField htrims' fun child hchild => ?_).mono fun edits hedits => ?_
    · rintro _ ⟨⟩
      exact hread.known htrims (hchildren child hchild)
    · exact fun edit hedit child hprint => hchildren child (hedits edit hedit child hprint)
  rw [editsOfNode, gives_bind]
  refine (gives_mapM hfields).mono fun edits hedits => gives_pure.mpr fun edit hedit => ?_
  obtain ⟨found, hfound, hedit⟩ := List.mem_flatten.mp hedit
  obtain ⟨-, -, hprints⟩ := exists_of_forall₂ hedits hfound
  exact hprints edit hedit

theorem gives_piecesOfNode (hread : t₀.ReadFrom text root) (htrims : t₀.Trims tree)
    (hget : tree.get? id = some node) (hspan : node.marks.any → node.hasSpan) :
    Gives (piecesOfNode source tree id) fun pieces =>
      ∀ child, Piece.node child ∈ pieces → child ∈ t₀.children id := by
  rw [piecesOfNode, require_some hget, gives_bind]
  refine ⟨_, rfl, ?_⟩
  by_cases hmarks : node.marks.any
  · simp only [hmarks, hspan hmarks, Bool.not_true, Bool.false_eq_true, if_false, gives_bind]
    refine (gives_editsOfNode hread htrims hget).mono fun edits hedits => ?_
    refine gives_pure.mpr fun child hchild => ?_
    obtain ⟨edit, hedit, hprint⟩ := exists_of_mem_piecesFrom hchild
    exact hedits edit ((perm_sortOn edits).mem_iff.mp hedit) child hprint
  · simp [hmarks]

theorem gives_fragmentsWithin (hread : t₀.ReadFrom text root) (htrims : t₀.Trims tree)
    (depth : Nat) (done : List Fragment) (hget : tree.get? id = some node)
    (hspan : node.marks.any → node.hasSpan) :
    Gives (fragmentsWithin source tree depth done id) fun _ => True := by
  induction depth generalizing id node done with
  | zero => exact gives_pure.mpr trivial
  | succ depth ih =>
      rw [fragmentsWithin, gives_bind]
      refine (gives_piecesOfNode hread htrims hget hspan).mono fun pieces hpieces => ?_
      induction pieces generalizing done with
      | nil => exact gives_pure.mpr trivial
      | cons piece pieces ih' =>
          have hrest : ∀ child, Piece.node child ∈ pieces → child ∈ t₀.children id :=
            fun child hchild => hpieces child (List.mem_cons_of_mem _ hchild)
          rw [List.foldlM_cons, gives_bind]
          cases piece with
          | fragment f => exact gives_pure.mpr (ih' _ hrest)
          | node child =>
              have hchild := hpieces child List.mem_cons_self
              obtain ⟨other, hother⟩ := hread.known htrims hchild
              have hne : child ≠ root := hread.ne_root_of_holds hchild
              refine (ih done hother fun _ => hread.hasSpan htrims hother hne).mono ?_
              exact fun done _ => ih' done hrest

end Layout

/-! ## The program -/

namespace Parsed

theorem hasSpan_of_ne_nil {text : List Char} {t₀ tree : Tree} {root : NodeId} {node : Node}
    (hread : t₀.ReadFrom text root) (htrims : t₀.Trims tree)
    (hget : tree.get? root = some node) (htext : text ≠ []) : node.hasSpan := by
  obtain ⟨old, hold, -, hstart, hstop⟩ := hread.program
  have hkin := htrims.kin.node hold hget
  obtain ⟨c, cs, hcs⟩ := List.exists_cons_of_ne_nil htext
  have hpos := c.utf8Size_pos
  simp only [Node.hasSpan, ← hkin.start, ← hkin.stop, hstart, hstop, hcs, Text.byteLength_cons,
    decide_eq_true_eq]
  omega

/-- A tree is laid out if its program covers some text, or is as it was read. -/
theorem exists_print {parsed : Parsed} {t₀ : Tree} {node : Node}
    (hread : t₀.ReadFrom parsed.text parsed.root) (htrims : t₀.Trims parsed.tree)
    (hget : parsed.tree.get? parsed.root = some node) (hspan : node.marks.any → node.hasSpan)
    (options : PrintOptions) : ∃ printed, parsed.print options = .ok printed := by
  obtain ⟨fragments, hfragments, -⟩ : Layout.Gives (Layout.fragmentsWithin (.ofText parsed.text)
      parsed.tree (parsed.tree.size + 1) [] parsed.root) fun _ => True :=
    Layout.gives_fragmentsWithin hread htrims _ _ hget hspan
  simp [print, Layout.fragments, hfragments, bind, Except.bind, pure, Except.pure]

end Parsed

def Tree.emptyProgram : Tree :=
  (Tree.empty.add (Grammar.programNode 0 [])).2

def Tree.clearedProgram : Tree :=
  (emptyProgram.replaceSlot 0 0 .absent).2

theorem parse_nil (fileName : Option String) :
    parse [] fileName = .ok ⟨[], fileName, .emptyProgram, 0⟩ := by
  rfl

/-- Removals from such a tree do nothing, until the list of statements is removed as a whole. -/
theorem delete_emptyProgram (tree : Tree) {node : Node} {path : Path} {result : Bool × Tree}
    (hget : tree.get? 0 = some node) (hsize : tree.size = 1) (hkind : node.kind = .program)
    (hslots : node.slots.all (!·.isPopulated)) (hok : path.delete tree = .ok result) :
    path = .field (some 0) .body := by
  have hindex : ∀ f, f ≠ .body → node.kind.fieldIndex? f = none := by
    intro f hf
    simp [hkind, NodeKind.fieldIndex?, NodeKind.schema, FieldSpec.block, hf.symm]
  have hmissing : ∀ id, id ≠ 0 → tree.get? id = none := by
    intro id hid
    cases hother : tree.get? id with
    | none => rfl
    | some other =>
        have hlt := Tree.lt_size_of_get? hother
        exact absurd (Nat.lt_one_iff.mp (hsize ▸ hlt)) hid
  cases path with
  | root => cases hok
  | field parent f =>
      cases parent with
      | none => cases hok
      | some id =>
          by_cases hid : id = 0
          · subst hid
            by_cases hf : f = .body
            · rw [hf]
            · simp [Path.delete_field_none hget (hindex f hf)] at hok
          · simp [Path.delete, Path.replace, Path.locate_missing (hmissing id hid), bind,
              Except.bind] at hok
  | element parent f i =>
      cases parent with
      | none => cases hok
      | some id =>
          by_cases hid : id = 0
          · subst hid
            by_cases hf : f = .body
            · subst hf
              have hbody : node.kind.fieldIndex? .body = some 0 := by rw [hkind]; rfl
              obtain ⟨items, hitems, hi⟩ := Path.exists_of_delete_element hget hbody hok
              have hempty := List.all_eq_true.mp hslots _ (List.mem_of_getElem? hitems)
              have hnodes : items.nodes = [] := by simpa [Slot.isPopulated] using hempty
              simp [hnodes] at hi
            · simp [Path.delete, Path.replace, Path.locate_unknown hget (hindex f hf), bind,
                Except.bind] at hok
          · simp [Path.delete, Path.replace, Path.locate_missing (hmissing id hid), bind,
              Except.bind] at hok

theorem deleteEach_clearedProgram (paths : List Path) :
    Path.deleteEach .clearedProgram paths = .clearedProgram := by
  induction paths with
  | nil => rfl
  | cons path paths ih =>
      rw [Path.deleteEach, List.foldl_cons]
      cases hok : path.delete .clearedProgram with
      | error e => exact ih
      | ok result =>
          obtain rfl := delete_emptyProgram .clearedProgram rfl rfl rfl rfl hok
          obtain rfl : (false, Tree.clearedProgram) = result := Except.ok.inj (.trans rfl hok)
          exact ih

theorem deleteEach_emptyProgram (paths : List Path) :
    Path.deleteEach .emptyProgram paths =
      if Path.field (some 0) .body ∈ paths then .clearedProgram else .emptyProgram := by
  induction paths with
  | nil => rfl
  | cons path paths ih =>
      rw [Path.deleteEach, List.foldl_cons]
      by_cases hpath : path = .field (some 0) .body
      · subst hpath
        rw [if_pos List.mem_cons_self]
        exact deleteEach_clearedProgram paths
      · cases hok : path.delete .emptyProgram with
        | error e =>
            have hiff : (Path.field (some 0) .body ∈ path :: paths) =
                (Path.field (some 0) .body ∈ paths) := by
              simp [Ne.symm hpath]
            simp only [hiff]
            exact ih
        | ok result => exact absurd (delete_emptyProgram .emptyProgram rfl rfl rfl rfl hok) hpath

/-- Erasing types does not change a program that covers no text. -/
theorem hasSpan_of_erase {text : List Char} {fileName : Option String} {parsed : Parsed}
    (h : parse text fileName = .ok parsed) {node : Node}
    (hget : (parsed.tree.erase .standard parsed.root).1.get? parsed.root = some node)
    (hmarks : node.marks.any) : node.hasSpan := by
  obtain ⟨-, -, hread⟩ := readFrom_of_parse h
  by_cases hnil : text = []
  · subst hnil
    obtain rfl := Except.ok.inj ((parse_nil _).symm.trans h)
    have hunmarked : ((Tree.emptyProgram.erase .standard 0).1.get? 0).any (·.marks.any) = false := by
      decide +kernel
    rw [hget, Option.any_some, hmarks] at hunmarked
    cases hunmarked
  · exact Parsed.hasSpan_of_ne_nil hread hread.prunes_erase.trims hget hnil

/-- A source is refused by the parser, or it is compiled. -/
theorem exists_compile (text : List Char) (options : CompileOptions) :
    (∃ e, compile text options = .error (.parse e)) ∨
      ∃ printed, compile text options = .ok printed := by
  unfold compile
  cases hparse : parse text options.sourceFileName with
  | error e => exact .inl ⟨e, rfl⟩
  | ok parsed =>
      obtain ⟨htext, -, hread⟩ := readFrom_of_parse hparse
      have htrims : parsed.tree.Trims parsed.erase.1.tree := hread.prunes_erase.trims
      obtain ⟨old, hold, -⟩ := hread.program
      obtain ⟨node, hget, -⟩ := htrims.kin.get? hold
      have hread' : parsed.tree.ReadFrom parsed.erase.1.text parsed.root := by
        rw [show parsed.erase.1.text = text from htext]
        exact hread
      obtain ⟨printed, hprinted⟩ := Parsed.exists_print hread' htrims hget
        (hasSpan_of_erase hparse hget)
        { sourceFileName := options.sourceFileName, sourceMapName := options.sourceMapName }
      exact .inr ⟨printed, by simp [hprinted]⟩

/-- Whatever is removed from the tree of a source, in whatever order, what is left can be laid out.
The one exception is an empty source whose list of statements has been removed: then the program has
changed and covers no text. Erasing types never meets it. -/
theorem print_deleteEach {text : List Char} {fileName : Option String} {parsed : Parsed}
    (h : parse text fileName = .ok parsed) (paths : List Path) (options : PrintOptions) :
    (¬(text = [] ∧ Path.field (some parsed.root) .body ∈ paths) →
      ∃ printed,
        { parsed with tree := Path.deleteEach parsed.tree paths }.print options = .ok printed) ∧
    (text = [] ∧ Path.field (some parsed.root) .body ∈ paths →
      { parsed with tree := Path.deleteEach parsed.tree paths }.print options =
        .error (.missingSpan .program)) ∧
    ∀ source options, (∃ e, compile source options = .error (.parse e)) ∨
      ∃ printed, compile source options = .ok printed := by
  obtain ⟨htext, -, hread⟩ := readFrom_of_parse h
  have htrims := Path.trims_deleteEach parsed.tree paths
  refine ⟨fun hnot => ?_, ?_, exists_compile⟩
  · obtain ⟨old, hold, -⟩ := hread.program
    obtain ⟨node, hget, -⟩ := htrims.kin.get? hold
    refine Parsed.exists_print (by rwa [htext]) htrims hget (fun hmarks => ?_) options
    by_cases hnil : text = []
    · subst hnil
      obtain rfl := Except.ok.inj ((parse_nil fileName).symm.trans h)
      have hpaths : Path.field (some 0) .body ∉ paths := fun hmem => hnot ⟨rfl, hmem⟩
      simp only [deleteEach_emptyProgram, hpaths, if_false] at hget
      obtain rfl := Option.some.inj (hget.symm.trans rfl)
      cases hmarks
    · exact Parsed.hasSpan_of_ne_nil hread htrims hget hnil
  · rintro ⟨rfl, hmem⟩
    obtain rfl := Except.ok.inj ((parse_nil fileName).symm.trans h)
    simp only at hmem
    simp only [deleteEach_emptyProgram, hmem, if_true]
    rfl

theorem print_deleteEach_statement :
    ∃ parsed, parse "a;".toList none = .ok parsed ∧ ∃ printed,
      { parsed with tree := Path.deleteEach parsed.tree [.field (some parsed.root) .body] }.print {} =
        .ok printed := by
  have hsome : (parse "a;".toList none).toOption.isSome := by decide +kernel
  cases hparse : parse "a;".toList none with
  | error e =>
      rw [hparse] at hsome
      exact absurd hsome nofun
  | ok parsed => exact ⟨parsed, rfl, (print_deleteEach hparse _ {}).1 fun h => absurd h.1 (by decide)⟩

/-- Taken at its word, that removals always leave a tree with a layout is wrong. -/
theorem not_print_deleteEach :
    ¬∀ (text : List Char) (fileName : Option String) (parsed : Parsed) (paths : List Path)
      (options : PrintOptions), parse text fileName = .ok parsed →
        ∃ printed,
          { parsed with tree := Path.deleteEach parsed.tree paths }.print options =
            .ok printed := by
  intro h
  obtain ⟨printed, hprinted⟩ := h [] none _ [.field (some 0) .body] {} (parse_nil none)
  exact absurd hprinted nofun

/-- What is laid out after an argument is removed is not always a program: here the parenthesis before
the next argument, which belongs to no node, is removed with it. -/
theorem not_parse_print_argument :
    ¬∀ (text : List Char) (parsed : Parsed) (call next : NodeId) (printed : Printed),
      parse text none = .ok parsed → parsed.tree.Reaches parsed.root call →
        parsed.tree.kind? call = some .callExpression →
          (Path.element (some call) .arguments 1).node? parsed.tree = some next →
            { parsed with
              tree := Path.deleteEach parsed.tree [.element (some call) .arguments 0] }.print {} =
                .ok printed → ∃ again, parse printed.code none = .ok again := by
  intro hall
  have hany : (parse "f(a, (b))".toList none).toOption.any fun parsed =>
      parsed.root == 5 && (parsed.tree.children 5).contains 4 &&
      (parsed.tree.children 4).contains 3 && parsed.tree.kind? 3 == some .callExpression &&
      (Path.element (some 3) .arguments 1).node? parsed.tree == some 2 &&
      ({ parsed with
        tree := Path.deleteEach parsed.tree [.element (some 3) .arguments 0] }.print
          {}).toOption.map Printed.code == some "f(b))".toList := by
    decide +kernel
  have hfails : (parse "f(b))".toList none).toOption.isNone := by decide +kernel
  obtain ⟨parsed, hparse, hcheck⟩ := exists_parsed_of_any hany
  simp only [Bool.and_eq_true, beq_iff_eq, List.contains_iff_mem, Option.map_eq_some_iff, and_assoc]
    at hcheck
  obtain ⟨hroot, h₄, h₃, hkind, hnext, printed, hprinted, hcode⟩ := hcheck
  have hreach : parsed.tree.Reaches parsed.root 3 :=
    hroot ▸ .tail (.single (show parsed.tree.Holds 5 4 from h₄)) h₃
  obtain ⟨again, hagain⟩ :=
    hall _ _ _ _ _ hparse hreach hkind hnext (Layout.ok_of_toOption hprinted)
  rw [hcode] at hagain
  rw [hagain] at hfails
  exact absurd hfails nofun

end FlowErasure
