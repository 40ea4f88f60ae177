import FlowErasure.Proofs.Erasure.Regions
import FlowErasure.Proofs.Layout.Cuts
import FlowErasure.Proofs.Layout.Success

/-!
# The edits of an erased tree

The edits of a surviving node lay out its surviving children that have marks and drop what has been
removed at it, and nothing else (`Covers`). Their ranges are apart from each other (`Placed`), so in
order they are a chain.
-/

namespace FlowErasure

namespace Layout

open Text Erasure

variable {text : List Char} {tree : Tree} {lo mid hi : Nat} {edits edits' : List Edit}

/-! ## Places -/

structure Placed (text : List Char) (lo hi : Nat) (edits : List Edit) : Prop where
  each : ∀ edit ∈ edits, Chain text hi lo [edit.range]
  apart : edits.Pairwise fun a b => a.stop ≤ b.start ∨ b.stop ≤ a.start

namespace Placed

theorem nil : Placed text lo hi [] :=
  ⟨by simp, .nil⟩

theorem singleton {edit : Edit} (h : Chain text hi lo [edit.range]) : Placed text lo hi [edit] :=
  ⟨by simpa using h, by simp⟩

theorem perm (h : Placed text lo hi edits) (hperm : edits.Perm edits') :
    Placed text lo hi edits' where
  each edit hedit := h.each edit (hperm.mem_iff.mpr hedit)
  apart := (hperm.pairwise_iff fun {_ _} => Or.symm).mp h.apart

theorem append (h : Placed text lo mid edits) (h' : Placed text mid hi edits') (hlo : lo ≤ mid)
    (hhi : mid ≤ hi) : Placed text lo hi (edits ++ edits') where
  each edit hedit := by
    rcases List.mem_append.mp hedit with hedit | hedit
    · exact (h.each edit hedit).mono (Nat.le_refl _) hhi
    · exact (h'.each edit hedit).mono hlo (Nat.le_refl _)
  apart := by
    refine List.pairwise_append.mpr ⟨h.apart, h'.apart, fun a ha b hb => .inl ?_⟩
    obtain ⟨-, -, hstop, -⟩ := h.each a ha
    obtain ⟨hstart, -⟩ := h'.each b hb
    exact Nat.le_trans hstop hstart

theorem chain_of_pairwise (h : Placed text lo hi edits)
    (hsorted : edits.Pairwise fun a b => a.start ≤ b.start) :
    Chain text hi lo (edits.map Edit.range) := by
  induction edits generalizing lo with
  | nil => trivial
  | cons edit edits ih =>
      obtain ⟨hge, hlt, hstop, htoken, hend, -⟩ := h.each edit (by simp)
      obtain ⟨hfirst, hapart⟩ := List.pairwise_cons.mp h.apart
      obtain ⟨hle, hsorted⟩ := List.pairwise_cons.mp hsorted
      refine ⟨hge, hlt, hstop, htoken, hend, ih ⟨fun other hother => ?_, hapart⟩ hsorted⟩
      obtain ⟨-, hlt', hstop', htoken', hend', -⟩ := h.each other (by simp [hother])
      refine ⟨?_, hlt', hstop', htoken', hend', trivial⟩
      rcases hfirst other hother with hnext | hnext
      · exact hnext
      · have := hle other hother
        omega

theorem chain_sortOn (h : Placed text lo hi edits) :
    Chain text hi lo ((sortOn (fun edit => (edit.start, edit.stop)) edits).map Edit.range) := by
  have hsorted := @pairwise_sortOn Edit (fun edit => (edit.start, edit.stop)) edits
  exact (h.perm (perm_sortOn edits).symm).chain_of_pairwise hsorted

end Placed

theorem exists_chain_append {ranges ranges' : List (Nat × Nat)}
    (h : Chain text hi lo (ranges ++ ranges')) (hle : lo ≤ hi) :
    ∃ mid, lo ≤ mid ∧ mid ≤ hi ∧ Chain text mid lo ranges ∧ Chain text hi mid ranges' := by
  induction ranges generalizing lo with
  | nil => exact ⟨lo, Nat.le_refl _, hle, trivial, h⟩
  | cons range ranges ih =>
      obtain ⟨hge, hlt, hstop, htoken, hend, hrest⟩ := h
      obtain ⟨mid, hlo, hhi, hfront, hback⟩ := ih hrest hstop
      exact ⟨mid, by omega, hhi, ⟨hge, hlt, hlo, htoken, hend, hfront⟩, hback⟩

theorem chain_hull {ranges : List (Nat × Nat)} {first last : Nat × Nat}
    (h : Chain text hi lo ranges) (hfirst : ranges.head? = some first)
    (hlast : ranges.getLast? = some last) : Chain text hi lo [(first.1, last.2)] := by
  induction ranges generalizing lo first with
  | nil => simp at hfirst
  | cons range ranges ih =>
      obtain rfl := Option.some.inj hfirst
      obtain ⟨hge, hlt, hstop, htoken, hend, hrest⟩ := h
      cases ranges with
      | nil =>
          obtain rfl := Option.some.inj hlast
          exact ⟨hge, hlt, hstop, htoken, hend, trivial⟩
      | cons next ranges =>
          obtain ⟨hnext, hlt', hstop', -, hend', -⟩ := ih hrest rfl hlast
          exact ⟨hge, by omega, hstop', htoken, hend', trivial⟩

/-! ## Contents -/

/-- The edits lay out exactly the marked nodes of `kept` and drop exactly the ranges `removed`. -/
structure Covers (tree : Tree) (kept : List NodeId) (removed : Nat × Nat → Prop)
    (edits : List Edit) : Prop where
  cases : ∀ edit ∈ edits, (∃ id, edit.action = .print id) ∨ edit.removes
  print : ∀ edit ∈ edits, ∀ id, edit.action = .print id →
    id ∈ kept ∧ ∃ node, tree.get? id = some node ∧ edit.range = (node.start, node.stop)
  printed : ∀ id ∈ kept, ∀ node, tree.get? id = some node → node.marks.any →
    ∃ edit ∈ edits, edit.action = .print id
  drop : ∀ edit ∈ edits, edit.removes → removed edit.range
  dropped : ∀ range, removed range → ∃ edit ∈ edits, edit.removes ∧ edit.range = range

namespace Covers

variable {kept kept' : List NodeId} {removed removed' : Nat × Nat → Prop}

theorem nil (h : ∀ range, ¬removed range) : Covers tree [] removed [] :=
  ⟨by simp, by simp, by simp, by simp, fun range hrange => absurd hrange (h range)⟩

theorem mono (h : Covers tree kept removed edits) (hiff : ∀ range, removed range ↔ removed' range) :
    Covers tree kept removed' edits :=
  ⟨h.cases, h.print, h.printed, fun edit hedit hremoves => (hiff _).mp (h.drop edit hedit hremoves),
    fun range hrange => h.dropped range ((hiff range).mpr hrange)⟩

theorem append (h : Covers tree kept removed edits) (h' : Covers tree kept' removed' edits') :
    Covers tree (kept ++ kept') (fun range => removed range ∨ removed' range) (edits ++ edits') where
  cases edit hedit := by
    rcases List.mem_append.mp hedit with hedit | hedit
    · exact h.cases edit hedit
    · exact h'.cases edit hedit
  print edit hedit id haction := by
    rcases List.mem_append.mp hedit with hedit | hedit
    · obtain ⟨hid, hnode⟩ := h.print edit hedit id haction
      exact ⟨List.mem_append_left _ hid, hnode⟩
    · obtain ⟨hid, hnode⟩ := h'.print edit hedit id haction
      exact ⟨List.mem_append_right _ hid, hnode⟩
  printed id hid node hget hmarks := by
    rcases List.mem_append.mp hid with hid | hid
    · obtain ⟨edit, hedit, haction⟩ := h.printed id hid node hget hmarks
      exact ⟨edit, List.mem_append_left _ hedit, haction⟩
    · obtain ⟨edit, hedit, haction⟩ := h'.printed id hid node hget hmarks
      exact ⟨edit, List.mem_append_right _ hedit, haction⟩
  drop edit hedit hremoves := by
    rcases List.mem_append.mp hedit with hedit | hedit
    · exact .inl (h.drop edit hedit hremoves)
    · exact .inr (h'.drop edit hedit hremoves)
  dropped range hrange := by
    rcases hrange with hrange | hrange
    · obtain ⟨edit, hedit, hdropped⟩ := h.dropped range hrange
      exact ⟨edit, List.mem_append_left _ hedit, hdropped⟩
    · obtain ⟨edit, hedit, hdropped⟩ := h'.dropped range hrange
      exact ⟨edit, List.mem_append_right _ hedit, hdropped⟩

theorem singleton {edit : Edit} (hremoves : edit.removes)
    (hiff : ∀ range, removed range ↔ range = edit.range) : Covers tree [] removed [edit] where
  cases := by simp [hremoves]
  print other hother id haction := by
    rw [List.mem_singleton.mp hother] at haction
    simp [Edit.removes, haction] at hremoves
  printed := by simp
  drop other hother _ := by
    rw [List.mem_singleton.mp hother]
    exact (hiff _).mpr rfl
  dropped range hrange := ⟨edit, by simp, hremoves, ((hiff range).mp hrange).symm⟩

end Covers

theorem editOfKept_some {id : NodeId} {node : Node} (h : tree.get? id = some node) :
    editOfKept tree (some id) =
      if node.marks.any then [⟨node.start, node.stop, .print id⟩] else [] := by
  rw [editOfKept, require_some h]

theorem editOfKept_none : editOfKept tree none = [] := rfl

theorem covers_editOfKept {id : NodeId} (h : Known tree (some id)) :
    Covers tree [id] (fun _ => False) (editOfKept tree (some id)) := by
  obtain ⟨node, hget⟩ := h id rfl
  rw [editOfKept_some hget]
  split
  · exact {
      cases := by simp
      print := fun edit hedit other haction => by
        obtain rfl := List.mem_singleton.mp hedit
        obtain rfl : id = other := by simpa using haction
        exact ⟨by simp, node, hget, rfl⟩
      printed := fun other hother _ _ _ => by
        obtain rfl := List.mem_singleton.mp hother
        exact ⟨_, List.mem_singleton_self _, rfl⟩
      drop := by simp [Edit.removes]
      dropped := by simp }
  · rename_i hmarks
    exact {
      cases := by simp
      print := by simp
      printed := fun other hother node' hget' hmarks' => by
        obtain rfl := List.mem_singleton.mp hother
        exact absurd (Option.some.inj (hget.symm.trans hget') ▸ hmarks') hmarks
      drop := by simp
      dropped := by simp }

theorem covers_kept {handles : List Handle}
    (h : ∀ child ∈ handles.filterMap id, Known tree (some child)) :
    Covers tree (handles.filterMap id) (fun _ => False) (handles.flatMap (editOfKept tree)) := by
  induction handles with
  | nil => exact .nil (by simp)
  | cons handle handles ih =>
      cases handle with
      | none => simpa [editOfKept_none] using ih (by simpa using h)
      | some child =>
          have hfirst := covers_editOfKept (h child (by simp))
          have hrest := ih fun other hother => h other (List.mem_cons_of_mem child hother)
          simpa using hfirst.append hrest

/-! ## Lists -/

section

variable {source : Source} {kind : NodeKind} {deleted : Handle → Bool}

/-- The elements that have stayed are found again, and all others have been taken out. -/
theorem alignList_filter (field : Field) (olds : List Handle) :
    alignList tree kind field olds (olds.filter (!deleted ·)) =
      .ok ((olds.filter (!deleted ·)).flatMap (editOfKept tree),
        olds.map fun old => (old, deleted old)) := by
  induction olds with
  | nil => rfl
  | cons old olds ih =>
      by_cases hdeleted : deleted old
      · rw [List.filter_cons_of_neg (by simp [hdeleted])]
        cases hnews : olds.filter (!deleted ·) with
        | nil =>
            rw [hnews] at ih
            rw [alignList, ih]
            simp [hdeleted, bind, Except.bind, pure, Except.pure]
        | cons new news =>
            -- What has stayed is not `old`, and there is less of it than `olds` has elements.
            have hnew : new ≠ old := by
              rintro rfl
              have hmem : new ∈ olds.filter (!deleted ·) := by simp [hnews]
              simp [hdeleted] at hmem
            have hlength : news.length ≠ olds.length := by
              have := List.length_filter_le (!deleted ·) olds
              rw [hnews, List.length_cons] at this
              omega
            rw [hnews] at ih
            rw [alignList, if_neg hnew, if_neg hlength, ih]
            simp [hdeleted, bind, Except.bind, pure, Except.pure]
      · rw [List.filter_cons_of_pos (by simp [hdeleted]), alignList, if_pos rfl, ih]
        simp [hdeleted, bind, Except.bind, pure, Except.pure]

/-- A run of elements of a block is dropped from its first element to its last. -/
theorem gives_editOfRun_block {before after : Handle} {run : List NodeId}
    (hbefore : Known tree before) (hafter : Known tree after)
    (hrun : ∀ id ∈ run, Known tree (some id)) :
    Gives (editOfRun source tree .block before after run) fun edits =>
      run = [] ∧ edits = [] ∨ ∃ edit, edits = [edit] ∧ edit.removes ∧
        Spans tree (run.reverse.map some) edit.range := by
  cases hlast : run.head? with
  | none =>
      obtain rfl := List.head?_eq_none_iff.mp hlast
      exact gives_pure.mpr (.inl ⟨rfl, rfl⟩)
  | some b =>
      have hne : run ≠ [] := by
        rintro rfl
        simp at hlast
      obtain ⟨a, hfirst⟩ := Option.isSome_iff_exists.mp (List.getLast?_isSome.mpr hne)
      obtain ⟨first, ha⟩ := hrun a (List.mem_of_getLast? hfirst) a rfl
      obtain ⟨last, hb⟩ := hrun b (List.mem_of_head? hlast) b rfl
      rw [editOfRun, hlast, hfirst]
      simp only [require_some ha, require_some hb, gives_bind]
      refine ⟨_, rfl, _, rfl, ?_⟩
      simp only [BEq.rfl, if_true, gives_bind]
      refine (gives_editOfLines hbefore hafter).mono fun edit hedit => gives_pure.mpr (.inr ?_)
      obtain ⟨semicolon, rfl⟩ := hedit
      refine ⟨_, rfl, rfl, a, b, first, last, ?_, ?_, ha, hb, rfl⟩
      · simp [hfirst]
      · simp [hlast]

theorem range?_of_get? {id : NodeId} {node : Node} (h : tree.get? id = some node) :
    tree.range? id = some (node.start, node.stop) := by
  simp [Tree.range?, Tree.face?, h, Node.face]

/-- Nodes in a chain span a range that can stand in their place. -/
theorem chain_of_spans {ids : List NodeId} {range : Nat × Nat} (h : Spans tree (ids.map some) range)
    (hchain : Chain text hi lo (ids.filterMap tree.range?)) : Chain text hi lo [range] := by
  obtain ⟨a, b, first, last, ha, hb, hfirst, hlast, rfl⟩ := h
  have hhead : (ids.filterMap tree.range?).head? = some (first.start, first.stop) := by
    cases ids with
    | nil => simp at ha
    | cons id ids =>
        obtain rfl : id = a := by simpa using ha
        simp [range?_of_get? hfirst]
  have hend : (ids.filterMap tree.range?).getLast? = some (last.start, last.stop) := by
    have hb' : ids.getLast? = some b := by
      rw [List.getLast?_map] at hb
      simpa using hb
    obtain ⟨init, rfl⟩ := List.getLast?_eq_some_iff.mp hb'
    simp [range?_of_get? hlast]
  exact chain_hull hchain hhead hend

theorem filterMap_id_cons (handle : Handle) (handles : List Handle) :
    (handle :: handles).filterMap id = [handle].filterMap id ++ handles.filterMap id := by
  rw [← List.filterMap_append, List.singleton_append]

theorem placed_editOfKept {handle : Handle} (h : Known tree handle)
    (hchain : Chain text hi lo (([handle].filterMap id).filterMap tree.range?)) :
    Placed text lo hi (editOfKept tree handle) := by
  cases handle with
  | none => exact .nil
  | some child =>
      obtain ⟨node, hget⟩ := h child rfl
      rw [editOfKept_some hget]
      split
      · exact .singleton (by simpa [range?_of_get? hget, Edit.range] using hchain)
      · exact .nil

theorem placed_kept {handles : List Handle} (h : ∀ handle ∈ handles, Known tree handle)
    (hle : lo ≤ hi) (hchain : Chain text hi lo ((handles.filterMap id).filterMap tree.range?)) :
    Placed text lo hi (handles.flatMap (editOfKept tree)) := by
  induction handles generalizing lo with
  | nil => exact .nil
  | cons handle handles ih =>
      rw [filterMap_id_cons, List.filterMap_append] at hchain
      obtain ⟨mid, hlo, hmid, hfront, hback⟩ := exists_chain_append hchain hle
      rw [List.flatMap_cons]
      have hrest := ih (fun other hother => h other (List.mem_cons_of_mem _ hother)) hmid hback
      exact (placed_editOfKept (h handle (by simp)) hfront).append hrest hlo hmid

theorem known_of_mem {handles : List Handle}
    (h : ∀ child ∈ handles.filterMap id, Known tree (some child)) :
    ∀ handle ∈ handles, Known tree handle := by
  intro handle hhandle
  cases handle with
  | none => exact known_none
  | some child => exact h child (List.mem_filterMap.mpr ⟨some child, hhandle, rfl⟩)

structure RunEdits (text : List Char) (tree : Tree) (run : List NodeId) (edits : List Edit) :
    Prop where
  covers : Covers tree [] (fun range => run ≠ [] ∧ Spans tree (run.map some) range) edits
  placed : ∀ {lo hi}, Chain text hi lo (run.filterMap tree.range?) → Placed text lo hi edits

theorem gives_runEdits (text : List Char) {before after : Handle} {run : List NodeId}
    (hbefore : Known tree before) (hafter : Known tree after) (hrun : ∀ id ∈ run, Known tree (some id)) :
    Gives (editOfRun source tree .block before after run)
      (RunEdits text tree run.reverse) := by
  refine (gives_editOfRun_block hbefore hafter hrun).mono fun edits hedits => ?_
  rcases hedits with ⟨rfl, rfl⟩ | ⟨edit, rfl, hremoves, hspans⟩
  · exact ⟨.nil (by simp), fun _ => .nil⟩
  · refine ⟨.singleton hremoves fun range => ?_, fun hchain => .singleton (chain_of_spans hspans hchain)⟩
    constructor
    · exact fun h => h.2.unique hspans
    · rintro rfl
      refine ⟨?_, hspans⟩
      rintro hnil
      obtain ⟨a, _, _, _, ha, -⟩ := hspans
      simp [hnil] at ha

/-- The runs of deleted elements of a block are dropped, and that leaves the kept elements alone. -/
theorem gives_editsOfRuns_block (text : List Char) {before : Handle} {pending : List NodeId}
    {olds : List Handle} (hnone : deleted none = false) (hbefore : Known tree before)
    (hpending : ∀ id ∈ pending, Known tree (some id) ∧ deleted (some id))
    (hknown : ∀ child ∈ olds.filterMap id, Known tree (some child)) :
    Gives (editsOfRuns source tree .block before pending (olds.map fun old => (old, deleted old)))
      fun edits =>
        Covers tree [] (fun range => ∃ run,
          IsRun deleted (pending.reverse.map some ++ olds) run ∧ Spans tree run range) edits ∧
        ∀ lo hi, lo ≤ hi →
          Chain text hi lo ((pending.reverse ++ olds.filterMap id).filterMap tree.range?) →
          Placed text lo hi ((olds.filter (!deleted ·)).flatMap (editOfKept tree) ++ edits) := by
  have hall : ∀ pending : List NodeId, (∀ id ∈ pending, deleted (some id)) →
      ∀ handle ∈ pending.reverse.map some, deleted handle := by
    intro pending hdeleted handle hhandle
    obtain ⟨id, hid, rfl⟩ := List.mem_map.mp hhandle
    exact hdeleted id (List.mem_reverse.mp hid)
  induction olds generalizing before pending with
  | nil =>
      rw [List.map_nil, editsOfRuns]
      refine (gives_runEdits text hbefore known_none fun id hid => (hpending id hid).1).mono
        fun edits hedits => ⟨hedits.covers.mono fun range => ?_, fun lo hi hle hchain => ?_⟩
      · rw [List.append_nil, exists_isRun_of_all (hall pending fun id hid => (hpending id hid).2)]
        simp
      · exact hedits.placed (by simpa using hchain)
  | cons old olds ih =>
      by_cases hold : deleted old
      · -- The element joins the run.
        obtain ⟨child, rfl⟩ : ∃ child, old = some child := by
          cases old with
          | none => simp [hnone] at hold
          | some child => exact ⟨child, rfl⟩
        have hpending' : ∀ id ∈ child :: pending, Known tree (some id) ∧ deleted (some id) := by
          intro id hid
          rcases List.mem_cons.mp hid with rfl | hid
          · exact ⟨hknown id (by simp), hold⟩
          · exact hpending id hid
        have hknown' : ∀ other ∈ olds.filterMap id, Known tree (some other) :=
          fun other hother => hknown other (List.mem_cons_of_mem child hother)
        rw [List.map_cons, hold, editsOfRuns]
        refine (ih hbefore hpending' hknown').mono fun edits hedits => ⟨?_, fun lo hi hle hchain => ?_⟩
        · simpa using hedits.1
        · rw [List.filter_cons_of_neg (by simp [hold])]
          exact hedits.2 lo hi hle (by simpa using hchain)
      · -- The element ends the run.
        have hstays : deleted old = false := by simpa using hold
        have hknown' : ∀ other ∈ olds.filterMap id, Known tree (some other) := by
          intro other hother
          apply hknown
          cases old with
          | none => exact hother
          | some child => exact List.mem_cons_of_mem child hother
        have hold' : Known tree old := known_of_mem hknown old (by simp)
        have helements : ∀ element ∈ (old, false) :: olds.map fun old => (old, deleted old),
            Known tree element.1 := by
          intro element helement
          rcases List.mem_cons.mp helement with rfl | helement
          · exact hold'
          · obtain ⟨other, hother, rfl⟩ := List.mem_map.mp helement
            exact known_of_mem hknown' other hother
        have hnext : Known tree (old <|> before) := by
          cases old with
          | none => exact hbefore
          | some child => exact hold'
        rw [List.map_cons, hstays, editsOfRuns, gives_bind]
        refine (gives_runEdits text hbefore (known_nextKept? helements) fun id hid =>
          (hpending id hid).1).mono fun runs hruns => ?_
        rw [gives_bind]
        refine (ih hnext (by simp) hknown').mono fun edits hedits =>
          gives_pure.mpr ⟨?_, fun lo hi hle hchain => ?_⟩
        · refine (hruns.covers.append hedits.1).mono fun range => ?_
          have hdeleted := hall pending fun id hid => (hpending id hid).2
          rw [exists_isRun_append_cons hdeleted hstays]
          simp
        · rw [List.filter_cons_of_pos (by simp [hstays]), List.flatMap_cons]
          rw [filterMap_id_cons, List.filterMap_append, List.filterMap_append] at hchain
          obtain ⟨m₁, hlo, hm₁, hfront, hchain⟩ := exists_chain_append hchain hle
          obtain ⟨m₂, hm, hm₂, hmiddle, hback⟩ := exists_chain_append hchain hm₁
          have hplaced := (hruns.placed hfront).append
            ((placed_editOfKept hold' hmiddle).append (hedits.2 m₂ hi hm₂ hback) hm hm₂) hlo hm₁
          have hcomm : (runs ++ (editOfKept tree old ++
              (olds.filter (!deleted ·)).flatMap (editOfKept tree))).Perm
              ((editOfKept tree old ++ (olds.filter (!deleted ·)).flatMap (editOfKept tree)) ++
                runs) :=
            List.perm_append_comm
          exact hplaced.perm (by simpa using hcomm.append_right edits)

theorem editsOfRuns_nil {shape : FieldShape} {before : Handle} {olds : List Handle}
    (h : ∀ old ∈ olds, deleted old = false) :
    editsOfRuns source tree shape before [] (olds.map fun old => (old, deleted old)) = .ok [] := by
  induction olds generalizing before with
  | nil => rfl
  | cons old olds ih =>
      rw [List.map_cons, h old (by simp), editsOfRuns]
      simp only [editOfRun, List.getLast?_nil, pure_bind, List.nil_append]
      rw [ih fun other hother => h other (List.mem_cons_of_mem _ hother)]
      rfl

structure ListEdits (text : List Char) (tree : Tree) (spec : FieldSpec) (deleted : Handle → Bool)
    (olds : List Handle) (edits : List Edit) : Prop where
  covers : Covers tree ((olds.filter (!deleted ·)).filterMap id)
    (fun range => spec.shape = .block ∧ ∃ run, IsRun deleted olds run ∧ Spans tree run range) edits
  placed : ∀ {lo hi}, lo ≤ hi → Chain text hi lo ((olds.filterMap id).filterMap tree.range?) →
    Placed text lo hi edits
  plain : (∀ old ∈ olds, deleted old = false) → edits = olds.flatMap (editOfKept tree)

/-- Only a block loses elements. -/
theorem gives_editsOfList_filter (text : List Char) {spec : FieldSpec} {olds : List Handle}
    (hnone : deleted none = false)
    (hknown : ∀ child ∈ olds.filterMap id, Known tree (some child))
    (hshape : spec.shape = .block ∨ ∀ old ∈ olds, deleted old = false) :
    Gives (editsOfList source tree kind spec olds (olds.filter (!deleted ·)))
      (ListEdits text tree spec deleted olds) := by
  have hkept : Covers tree ((olds.filter (!deleted ·)).filterMap id) (fun _ => False)
      ((olds.filter (!deleted ·)).flatMap (editOfKept tree)) := by
    refine covers_kept fun child hchild => hknown child ?_
    exact (List.filter_sublist.filterMap id).subset hchild
  rw [editsOfList, alignList_filter, gives_bind]
  refine ⟨_, rfl, ?_⟩
  simp only [gives_bind]
  by_cases hstay : ∀ old ∈ olds, deleted old = false
  · have hfilter : olds.filter (!deleted ·) = olds := by
      rw [List.filter_eq_self]
      simpa using hstay
    rw [editsOfRuns_nil hstay]
    refine ⟨_, rfl, gives_pure.mpr ⟨?_, fun hle hchain => ?_, fun _ => ?_⟩⟩
    · rw [List.append_nil]
      refine hkept.mono fun range => ⟨False.elim, ?_⟩
      rintro ⟨-, run, ⟨before, after, rfl, hne, hdeleted, -⟩, -⟩
      obtain ⟨old, hold⟩ := List.exists_mem_of_ne_nil run hne
      have hstays := hstay old (by simp [hold])
      simp [hdeleted old hold] at hstays
    · rw [hfilter, List.append_nil]
      exact placed_kept (known_of_mem hknown) hle hchain
    · rw [hfilter, List.append_nil]
  · have hblock : spec.shape = .block := hshape.resolve_right hstay
    rw [hblock]
    refine (gives_editsOfRuns_block text hnone known_none (by simp) hknown).mono fun runs hruns =>
      gives_pure.mpr ⟨?_, fun hle hchain => ?_, fun hnot => absurd hnot hstay⟩
    · simpa [hblock] using hkept.append hruns.1
    · exact hruns.2 _ _ hle (by simpa using hchain)

end

/-! ## Fields -/

section

variable {t₀ : Tree} {rules : Rules} {source : Source} {kind : NodeKind} {spec : FieldSpec}
  {old : Slot}

theorem flatMap_filterMap_id (handles : List Handle) :
    ((handles.filterMap id).flatMap fun child => editOfKept tree (some child)) =
      handles.flatMap (editOfKept tree) := by
  induction handles with
  | nil => rfl
  | cons handle handles ih =>
      cases handle with
      | none => exact ih
      | some child => exact congrArg (editOfKept tree (some child) ++ ·) ih

theorem spans_kin (h : t₀.Kin tree) {elements : List Handle} {range : Nat × Nat} :
    Spans tree elements range ↔ Spans t₀ elements range := by
  constructor
  · rintro ⟨a, b, first, last, ha, hb, hfirst, hlast, rfl⟩
    obtain ⟨first', hfirst', hkin⟩ := h.symm.get? hfirst
    obtain ⟨last', hlast', hkin'⟩ := h.symm.get? hlast
    exact ⟨a, b, first', last', ha, hb, hfirst', hlast', by rw [hkin.start, hkin'.stop]⟩
  · rintro ⟨a, b, first, last, ha, hb, hfirst, hlast, rfl⟩
    obtain ⟨first', hfirst', hkin⟩ := h.get? hfirst
    obtain ⟨last', hlast', hkin'⟩ := h.get? hlast
    exact ⟨a, b, first', last', ha, hb, hfirst', hlast', by rw [hkin.start, hkin'.stop]⟩

structure FieldEdits (text : List Char) (rules : Rules) (t₀ tree : Tree) (kind : NodeKind)
    (spec : FieldSpec) (old new : Slot) (edits : List Edit) : Prop where
  covers : Covers tree new.children (RemovedIn rules t₀ kind spec old) edits
  placed : ∀ {lo hi}, lo ≤ hi → Chain text hi lo (tree.rangesIn spec old) → Placed text lo hi edits
  plain : rules.strips kind spec.field = false →
    (∀ child ∈ old.children, isDeleted rules t₀ (some child) = false) →
    edits = old.children.flatMap fun child => editOfKept tree (some child)

theorem gives_editsOfField_dropped (text : List Char) (hkin : t₀.Kin tree) {id : NodeId}
    (hknown : Known tree (some id))
    (hremoved : ∀ child, t₀.get? id = some child →
      rules.strips kind spec.field ∨ rules.deletes child.kind) :
    Gives (editsOfField source tree kind spec (.node id) .absent)
      (FieldEdits text rules t₀ tree kind spec (.node id) .absent) := by
  obtain ⟨node, hget⟩ := hknown id rfl
  obtain ⟨child, hchild, hkin'⟩ := hkin.symm.get? hget
  simp only [editsOfField, require_some hget, gives_bind]
  refine ⟨_, rfl, gives_pure.mpr ⟨.singleton rfl fun range => ?_, fun hle hchain => ?_,
    fun hstays hstay => ?_⟩⟩
  · rw [Edit.range, hkin'.start, hkin'.stop]
    constructor
    · rintro (⟨hget', -⟩)
      rw [Option.some.inj (hchild.symm.trans hget')]
    · rintro rfl
      exact .field hchild (hremoved child hchild)
  · refine .singleton ?_
    simpa [Tree.rangesIn, Slot.children, range?_of_get? hget, Edit.range] using hchain
  · have hdeleted := hstay id (by simp [Slot.children])
    rcases hremoved child hchild with hgone | hgone
    · simp [hstays] at hgone
    · simp [isDeleted, Tree.lookup?, hchild, hgone] at hdeleted

theorem gives_editsOfField_erased (text : List Char) (hkin : t₀.Kin tree)
    (hknown : ∀ child ∈ old.children, Known tree (some child))
    (hclause : ∀ items, old = .list items → rules.strips kind spec.field →
      spec.field = .implements ∧ items.start < items.stop)
    (hlist : ∀ items, old = .list items → rules.strips kind spec.field = false →
      spec.field ≠ .implements ∧
        (spec.shape = .block ∨ ∀ handle ∈ items.nodes, isDeleted rules t₀ handle = false)) :
    Gives (editsOfField source tree kind spec old
        (if rules.strips kind spec.field then .absent else keptOf rules t₀ old))
      (FieldEdits text rules t₀ tree kind spec old
        (if rules.strips kind spec.field then .absent else keptOf rules t₀ old)) := by
  cases old with
  | absent =>
      have hnone : ∀ range, ¬RemovedIn rules t₀ kind spec .absent range := nofun
      by_cases hstrips : rules.strips kind spec.field
      all_goals
        simp only [hstrips, keptOf, Bool.false_eq_true, if_true, if_false]
        exact gives_pure.mpr ⟨.nil hnone, fun _ _ => .nil, fun _ _ => rfl⟩
  | node id =>
      have hid := hknown id (by simp [Slot.children])
      by_cases hstrips : rules.strips kind spec.field
      · rw [if_pos hstrips]
        exact gives_editsOfField_dropped text hkin hid fun _ _ => .inl hstrips
      · rw [if_neg hstrips]
        by_cases hdeleted : isDeleted rules t₀ (some id)
        · rw [keptOf, if_pos hdeleted]
          refine gives_editsOfField_dropped text hkin hid fun child hchild => .inr ?_
          simpa [isDeleted, Tree.lookup?, hchild] using hdeleted
        · rw [keptOf, if_neg hdeleted]
          simp only [editsOfField, if_true, gives_pure]
          refine ⟨(covers_editOfKept hid).mono fun range => ⟨False.elim, ?_⟩, fun _ hchain => ?_,
            fun _ _ => ?_⟩
          · rintro (⟨hchild, hremoved⟩)
            rcases hremoved with hremoved | hremoved
            · exact hstrips hremoved
            · exact hdeleted (by simpa [isDeleted, Tree.lookup?, hchild] using hremoved)
          · exact placed_editOfKept hid hchain
          · simp [Slot.children]
  | list items =>
      by_cases hstrips : rules.strips kind spec.field
      · obtain ⟨hfield, hlt⟩ := hclause items rfl hstrips
        rw [if_pos hstrips]
        simp only [editsOfField, hlt, if_true, gives_pure]
        refine ⟨.singleton rfl fun range => ?_, fun _ hchain => ?_, fun hstays _ => ?_⟩
        · constructor
          · rintro (_ | _ | ⟨hkept, -⟩)
            · rfl
            · simp [hstrips] at hkept
          · rintro rfl
            exact .clause hstrips
        · exact .singleton (by simpa [Tree.rangesIn, hfield, Edit.range] using hchain)
        · simp [hstrips] at hstays
      · have hstrips' : rules.strips kind spec.field = false := by simpa using hstrips
        obtain ⟨hfield, hshape⟩ := hlist items rfl hstrips'
        rw [if_neg hstrips, keptOf]
        simp only [editsOfField]
        refine (gives_editsOfList_filter text rfl hknown hshape).mono fun edits hedits => ?_
        refine ⟨hedits.covers.mono fun range => ?_, fun hle hchain => hedits.placed hle ?_,
          fun _ hstay => ?_⟩
        · constructor
          · rintro ⟨hblock, run, hrun, hspans⟩
            exact .run hstrips' hblock hrun ((spans_kin hkin).mp hspans)
          · rintro (_ | hclear | ⟨-, hblock, hrun, hspans⟩)
            · exact absurd hclear hstrips
            · exact ⟨hblock, _, hrun, (spans_kin hkin).mpr hspans⟩
        · simp only [Tree.rangesIn, hfield, if_false] at hchain
          exact hchain
        · rw [hedits.plain, Slot.children, flatMap_filterMap_id]
          intro handle hhandle
          cases handle with
          | none => rfl
          | some child => exact hstay child (List.mem_filterMap.mpr ⟨some child, hhandle, rfl⟩)

theorem covers_fields {fields : List ((FieldSpec × Slot) × Slot)} {edits : List (List Edit)}
    (h : List.Forall₂ (fun field => FieldEdits text rules t₀ tree kind field.1.1 field.1.2 field.2)
      fields edits) :
    Covers tree (fields.flatMap (·.2.children))
      (fun range => ∃ field ∈ fields, RemovedIn rules t₀ kind field.1.1 field.1.2 range)
      edits.flatten := by
  induction h with
  | nil => exact .nil (by simp)
  | cons hfield _ ih => simpa using hfield.covers.append ih

theorem placed_fields {fields : List ((FieldSpec × Slot) × Slot)} {edits : List (List Edit)}
    (h : List.Forall₂ (fun field => FieldEdits text rules t₀ tree kind field.1.1 field.1.2 field.2)
      fields edits) (hle : lo ≤ hi)
    (hchain : Chain text hi lo (fields.flatMap fun field => tree.rangesIn field.1.1 field.1.2)) :
    Placed text lo hi edits.flatten := by
  induction h generalizing lo with
  | nil => exact .nil
  | cons hfield _ ih =>
      rw [List.flatMap_cons] at hchain
      obtain ⟨mid, hlo, hmid, hfront, hback⟩ := exists_chain_append hchain hle
      rw [List.flatten_cons]
      exact (hfield.placed hlo hfront).append (ih hmid hback) hlo hmid

theorem flatten_fields {fields : List ((FieldSpec × Slot) × Slot)} {edits : List (List Edit)}
    (h : List.Forall₂ (fun field => FieldEdits text rules t₀ tree kind field.1.1 field.1.2 field.2)
      fields edits)
    (hplain : ∀ field ∈ fields, rules.strips kind field.1.1.field = false ∧
      ∀ child ∈ field.1.2.children, isDeleted rules t₀ (some child) = false) :
    edits.flatten = fields.flatMap fun field =>
      field.1.2.children.flatMap fun child => editOfKept tree (some child) := by
  induction h with
  | nil => rfl
  | cons hfield _ ih =>
      obtain ⟨hstrips, hstay⟩ := hplain _ List.mem_cons_self
      rw [List.flatten_cons, List.flatMap_cons, hfield.plain hstrips hstay,
        ih fun field hmem => hplain field (List.mem_cons_of_mem _ hmem)]

end

/-! ## Nodes -/

/-- A list that the rules clear is a clause of interfaces. -/
theorem field_of_strips {kind : NodeKind} {spec : FieldSpec} (h : spec ∈ kind.schema)
    (hstrips : Rules.standard.strips kind spec.field) (hshape : spec.shape ≠ .node) :
    spec.field = .implements := by
  have hall : ∀ spec ∈ kind.schema, Rules.standard.strips kind spec.field →
      spec.shape ≠ .node → spec.field = .implements := by
    cases kind <;> decide
  exact hall spec h hstrips hshape

theorem strips_implements {kind : NodeKind} {spec : FieldSpec} (h : spec ∈ kind.schema)
    (hfield : spec.field = .implements) : Rules.standard.strips kind spec.field := by
  have hall : ∀ spec ∈ kind.schema, spec.field = .implements →
      Rules.standard.strips kind spec.field := by
    cases kind <;> decide
  exact hall spec h hfield

section

variable {t₀ : Tree} {root id : NodeId} {old node : Node} {source : Source}

theorem gives_fieldEdits (h : t₀.Erased text tree root) (hold : t₀.get? id = some old)
    (hkind : old.kind.isTypeOnly = false) {spec : FieldSpec} {slot : Slot}
    (hfield : (spec, slot) ∈ old.fields) :
    Gives (editsOfField source tree old.kind spec slot
        (if Rules.standard.strips old.kind spec.field then .absent else keptOf .standard t₀ slot))
      (FieldEdits text .standard t₀ tree old.kind spec slot
        (if Rules.standard.strips old.kind spec.field then .absent
          else keptOf .standard t₀ slot)) := by
  have hshape := h.read.shape hold
  obtain ⟨hspec, hslot⟩ := List.of_mem_zip hfield
  -- A field for one node holds no list.
  have hnode : ∀ items, slot = .list items → spec.shape ≠ .node := by
    rintro items rfl hsingle
    simpa [FieldSpec.accepts, hsingle] using hshape.accepts hfield
  refine gives_editsOfField_erased text h.prunes.trims.kin ?_ ?_ ?_
  · rintro child hchild _ ⟨⟩
    have hmem : child ∈ t₀.children id := by
      rw [Tree.children_of_get? hold]
      exact List.mem_flatMap.mpr ⟨slot, hslot, hchild⟩
    exact h.read.known h.prunes.trims hmem
  · rintro items rfl hstrips
    have himplements := field_of_strips hspec hstrips (hnode items rfl)
    have htemplate : old.kind ≠ .templateLiteral := by
      intro heq
      rw [heq] at hspec
      simp only [NodeKind.schema, List.mem_cons, List.not_mem_nil, or_false] at hspec
      rcases hspec with rfl | rfl <;> simp [FieldSpec.many] at himplements
    have hmem : (items.start, items.stop) ∈ t₀.ranges old :=
      List.mem_flatMap.mpr ⟨_, hfield, by simp [Tree.rangesIn, himplements]⟩
    exact ⟨himplements, ((hshape.ranges htemplate).of_mem hmem).2.1⟩
  · rintro items rfl hstrips
    have himplements : spec.field ≠ .implements := by
      intro heq
      simp [strips_implements hspec heq] at hstrips
    refine ⟨himplements, ?_⟩
    cases hspecShape : spec.shape with
    | node => exact absurd hspecShape (hnode items rfl)
    | block => exact .inl rfl
    | list =>
        right
        intro handle hhandle
        cases handle with
        | none => rfl
        | some child =>
            refine isDeleted_of_isValue ?_
            exact hshape.values hkind hfield hspecShape himplements
              (List.mem_filterMap.mpr ⟨some child, hhandle, rfl⟩)

def erasedFields (t₀ : Tree) (old : Node) : List ((FieldSpec × Slot) × Slot) :=
  old.fields.map fun field =>
    (field, if Rules.standard.strips old.kind field.1.field then .absent
      else keptOf .standard t₀ field.2)

theorem map_fst_erasedFields (t₀ : Tree) (old : Node) :
    (erasedFields t₀ old).map Prod.fst = old.fields := by
  simp [erasedFields, Function.comp_def]

theorem map_snd_erasedFields (hfits : old.slots.length = old.kind.schema.length) :
    (erasedFields t₀ old).map Prod.snd = erasedSlots .standard t₀ old := by
  apply List.ext_getElem
  · simp [erasedFields, erasedSlots, Node.fields, hfits]
  · intro index _ hindex
    have hlt : index < old.kind.schema.length := by
      rw [erasedSlots, List.length_mapIdx] at hindex
      omega
    simp [erasedFields, Node.fields, erasedSlots, erasedSlot, List.getElem?_eq_getElem hlt]

theorem fields_eq_erasedFields (h : t₀.Erased text tree root)
    (hid : Survives .standard t₀ root id) (hold : t₀.get? id = some old)
    (hget : tree.get? id = some node) :
    (node.kind.schema.zip node.original).zip node.slots = erasedFields t₀ old := by
  obtain ⟨old', hold', hkin, horiginal⟩ := h.read.trimmed h.prunes.trims hget
  obtain rfl := Option.some.inj (hold.symm.trans hold')
  have hslots : node.slots = erasedSlots .standard t₀ old := by
    rw [← h.slots hid hold, Tree.slots_of_get? hget]
  rw [horiginal, ← hkin.kind, hslots]
  exact (List.zip_of_prod (map_fst_erasedFields t₀ old)
    (map_snd_erasedFields (h.read.shape hold).fits)).symm

theorem face?_of_kin (h : t₀.Kin tree) (id : NodeId) : tree.face? id = t₀.face? id := by
  cases hold : t₀.get? id with
  | none =>
      have hnone : tree.get? id = none := by simpa [hold] using h.isSome id
      simp [Tree.face?, hold, hnone]
  | some old =>
      obtain ⟨node, hnode, hkin⟩ := h.get? hold
      simp [Tree.face?, hold, hnode, Node.face, hkin.kind, hkin.start, hkin.stop, hkin.flags]

/-- In a template the pieces of text and the expressions take turns, but they are apart. -/
theorem placed_template (h : t₀.Erased text tree root) (hold : t₀.get? id = some old) :
    Placed text old.start old.stop
      (old.children.flatMap fun child => editOfKept tree (some child)) := by
  obtain ⟨ids, hperm, hlaid⟩ := (h.read.shape hold).laid
  have hholds : ∀ child ∈ ids, t₀.Holds id child := by
    intro child hchild
    rw [Tree.Holds, Tree.children_of_get? hold]
    exact hperm.mem_iff.mp hchild
  have hchain : Chain text old.stop old.start (ids.filterMap t₀.range?) :=
    hlaid.chain fun child hchild node hget =>
      h.read.sound hget (h.read.ne_root_of_holds (hholds child hchild))
  have hranges : ids.filterMap t₀.range? =
      ((ids.map some).filterMap fun handle => handle).filterMap tree.range? := by
    rw [List.filterMap_map, show (fun handle => handle) ∘ some = some from rfl,
      List.filterMap_some]
    refine List.filterMap_congr fun child _ => ?_
    rw [Tree.range?, Tree.range?, face?_of_kin h.prunes.trims.kin]
  rw [hranges] at hchain
  have hknown : ∀ handle ∈ ids.map some, Known tree handle := by
    rintro _ hhandle child rfl
    obtain ⟨child', hchild, heq⟩ := List.mem_map.mp hhandle
    exact h.read.known h.prunes.trims (hholds child (Option.some.inj heq ▸ hchild))
  have hplaced := placed_kept hknown (h.read.start_le hold) hchain
  rw [List.flatMap_map] at hplaced
  exact hplaced.perm (hperm.flatMap_right _)

theorem gives_editsOfNode_erased (h : t₀.Erased text tree root)
    (hid : Survives .standard t₀ root id) (hold : t₀.get? id = some old)
    (hget : tree.get? id = some node) :
    Gives (editsOfNode source tree node) fun edits =>
      Covers tree (keptChildren .standard t₀ old) (RemovedAt .standard t₀ old) edits ∧
        Placed text old.start old.stop edits := by
  have hshape := h.read.shape hold
  have hkind := h.isTypeOnly hid hold
  have hkin := h.prunes.trims.kin.node hold hget
  have hfields := fields_eq_erasedFields h hid hold hget
  rw [Node.original] at hfields
  rw [editsOfNode, gives_bind, hfields, ← hkin.kind]
  have hgives : ∀ field ∈ erasedFields t₀ old,
      Gives (editsOfField source tree old.kind field.1.1 field.1.2 field.2)
        (FieldEdits text .standard t₀ tree old.kind field.1.1 field.1.2 field.2) := by
    intro field hfield
    obtain ⟨⟨spec, slot⟩, hmem, rfl⟩ := List.mem_map.mp hfield
    exact gives_fieldEdits h hold hkind hmem
  refine (gives_mapM hgives).mono fun edits hedits => gives_pure.mpr ⟨?_, ?_⟩
  · have hcovers := covers_fields hedits
    have hchildren : (erasedFields t₀ old).flatMap (·.2.children) =
        keptChildren .standard t₀ old := by
      rw [keptChildren, ← map_snd_erasedFields hshape.fits, List.flatMap_map]
    rw [hchildren] at hcovers
    refine hcovers.mono fun range => ?_
    simp [RemovedAt, erasedFields]
  · by_cases htemplate : old.kind = .templateLiteral
    · have hplain : ∀ field ∈ erasedFields t₀ old,
          Rules.standard.strips old.kind field.1.1.field = false ∧
            ∀ child ∈ field.1.2.children, isDeleted .standard t₀ (some child) = false := by
        intro field hfield
        obtain ⟨⟨spec, slot⟩, hmem, rfl⟩ := List.mem_map.mp hfield
        have hspec := (List.of_mem_zip hmem).1
        rw [htemplate] at hspec
        simp only [NodeKind.schema, List.mem_cons, List.not_mem_nil, or_false] at hspec
        refine ⟨by rw [htemplate]; rfl, fun child hchild => isDeleted_of_isValue ?_⟩
        refine hshape.values hkind hmem ?_ ?_ hchild
        · rcases hspec with rfl | rfl <;> rfl
        · rcases hspec with rfl | rfl <;> decide
      have hslots : old.fields.map Prod.snd = old.slots :=
        List.map_snd_zip (Nat.le_of_eq hshape.fits)
      rw [flatten_fields hedits hplain, erasedFields, List.flatMap_map]
      have hflat : old.children.flatMap (fun child => editOfKept tree (some child)) =
          old.fields.flatMap fun field =>
            field.2.children.flatMap fun child => editOfKept tree (some child) := by
        rw [Node.children, ← hslots, List.flatMap_map, List.flatMap_assoc]
      rw [← hflat]
      exact placed_template h hold
    · refine placed_fields hedits (h.read.start_le hold) ?_
      rw [erasedFields, List.flatMap_map]
      have hranges : tree.ranges old = t₀.ranges old :=
        Tree.ranges_congr fun child _ => face?_of_kin h.prunes.trims.kin child
      have hchain := hshape.ranges htemplate
      rw [← hranges] at hchain
      exact hchain

end

end Layout

end FlowErasure
