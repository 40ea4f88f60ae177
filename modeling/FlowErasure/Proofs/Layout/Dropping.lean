import FlowErasure.Proofs.Layout.Gaps
import FlowErasure.Proofs.Layout.Holding
import FlowErasure.Proofs.Layout.Weaving

/-!
# What compiling drops

The output of the compiler is its source without the removed regions. The layout of a surviving node
covers its range and drops what has been removed at it and below it, by induction over the surviving
tree.
-/

namespace FlowErasure

namespace Layout

open Text Erasure

variable {text : List Char} {t₀ tree : Tree} {root id : NodeId} {old node : Node}

theorem foldlM_pieces {source : Source} {depth : Nat} {expand : NodeId → List Fragment}
    {pieces : List Piece}
    (h : ∀ child, Piece.node child ∈ pieces → ∀ done,
      fragmentsWithin source tree depth done child = .ok ((expand child).reverse ++ done))
    (done : List Fragment) :
    pieces.foldlM (fun done piece =>
      match piece with
      | .fragment f => return f :: done
      | .node child => fragmentsWithin source tree depth done child) done =
      .ok ((pieces.flatMap (Piece.expand expand)).reverse ++ done) := by
  induction pieces generalizing done with
  | nil => rfl
  | cons piece pieces ih =>
      have hrest := ih fun child hchild => h child (List.mem_cons_of_mem _ hchild)
      rw [List.foldlM_cons]
      cases piece with
      | fragment f =>
          rw [pure_bind, hrest]
          simp [Piece.expand]
      | node child =>
          simp only [h child List.mem_cons_self, bind, Except.bind]
          rw [hrest]
          simp [Piece.expand]

theorem boundary_start (h : t₀.ReadFrom text root) (hold : t₀.get? id = some old) :
    Boundary text old.start := by
  by_cases hid : id = root
  · subst hid
    obtain ⟨program, hprogram, -, hstart, -⟩ := h.program
    rw [Option.some.inj (hold.symm.trans hprogram), hstart]
    exact (at_zero text).boundary
  · exact (h.sound hold hid).start.boundary

/-- Nodes end where tokens do. -/
theorem tokenStop_of_get? (h : t₀.ReadFrom text root) (hold : t₀.get? id = some old)
    (hid : id ≠ root) : TokenStop text old.stop := by
  obtain ⟨tokens, htokens, hfaces⟩ := h.tokens
  obtain ⟨-, hstop⟩ := hfaces id _ hid (Tree.face?_of_get? hold)
  obtain ⟨token, htoken, heq⟩ := List.mem_map.mp hstop
  have hends := htokens.tokenStop token htoken
  rwa [heq] at hends

def RunLines (text : List Char) (tree : Tree) (id : NodeId) (node : Node) (range lines : Nat × Nat) :
    Prop :=
  ∃ owner, Survives .standard tree id owner ∧ tree.get? owner = some node ∧
    RunAt .standard tree node range ∧ StandsAlone text range lines

/-- The layout of a node at most `depth` levels deep covers its range and drops what has been removed
at the node and below it. In a gap a semicolon stands for it if one is needed. A run that stands alone
is dropped with its lines, as far as these lie in the node that holds it. -/
structure LaysOut (text : List Char) (t₀ tree : Tree) (depth : Nat) (id : NodeId) (old : Node)
    (fragments : List Fragment) (segments : List Segment) : Prop where
  within : ∀ done, fragmentsWithin (.ofText text) tree depth done id =
    .ok (fragments.reverse ++ done)
  lays : Lays text old.start fragments segments old.stop
  regions : ∀ range, range ∈ regionsFrom old.start segments ↔ Removed .standard t₀ id range
  gaps : ∀ {a b range before after}, Gap .standard t₀ id a b range → t₀.get? a = some before →
    t₀.get? b = some after →
      (range, continuesAcross (.ofText text) before after) ∈ cutsFrom old.start segments
  lines : ∀ {node range lines}, RunLines text t₀ id node range lines →
    (lines.1, min lines.2 node.stop) ∈ extentsFrom old.start segments

theorem laysOut_unmarked (h : t₀.Erased text tree root) (hid : Survives .standard t₀ root id)
    (hold : t₀.get? id = some old) (hget : tree.get? id = some node)
    (hmarks : node.marks.any = false) (depth : Nat) :
    ∃ fragments segments, LaysOut text t₀ tree (depth + 1) id old fragments segments := by
  have hkin := h.prunes.trims.kin.node hold hget
  have hstop := (h.read.shape hold).stop
  obtain ⟨cs, hcs⟩ := Between.exists_of_le (boundary_start h.read hold) hstop.boundary
    (h.read.start_le hold)
  refine ⟨[.text old.start old.stop], [.kept cs], fun done => ?_,
    .copy hcs hstop (.nil hstop.boundary), ?_, fun hgap _ _ => ?_, ?_⟩
  · simp [fragmentsWithin, piecesOfNode, require_some hget, hmarks, hkin.start, hkin.stop, bind,
      Except.bind, pure, Except.pure]
  · intro range
    simp [regionsFrom, h.not_removed hid hget hmarks range]
  · exact absurd hgap.removed (h.not_removed hid hget hmarks _)
  · rintro node range lines ⟨owner, howner, hnode, hrun, -⟩
    exact absurd ⟨owner, node, howner, hnode, hrun.removedAt⟩ (h.not_removed hid hget hmarks range)

section

variable {depth : Nat} {edits : List Edit} {edit : Edit} {child : NodeId} {range : Nat × Nat}
  {expand : NodeId → List Fragment} {segments : NodeId → List Segment}
  (h : t₀.Erased text tree root)
  (hcovers : Covers tree (keptChildren .standard t₀ old) (RemovedAt .standard t₀ old) edits)
  (hchildren : ∀ child ∈ keptChildren .standard t₀ old, ∀ other, t₀.get? child = some other →
    LaysOut text t₀ tree depth child other (expand child) (segments child))

include h hcovers hchildren

/-- The child that an edit prints is laid out in the place of the edit. -/
theorem exists_laysOut_of_print (hedit : edit ∈ edits) (haction : edit.action = .print child) :
    ∃ other, t₀.get? child = some other ∧ edit.start = other.start ∧ edit.stop = other.stop ∧
      LaysOut text t₀ tree depth child other (expand child) (segments child) := by
  obtain ⟨hkept, new, hnew, hrange⟩ := hcovers.print edit hedit child haction
  obtain ⟨other, hother, hkin⟩ := h.prunes.trims.kin.symm.get? hnew
  obtain ⟨hstart, hstop⟩ := Prod.mk.inj hrange
  exact ⟨other, hother, hstart.trans hkin.start, hstop.trans hkin.stop,
    hchildren child hkept other hother⟩

variable (hid : Survives .standard t₀ root id) (hold : t₀.get? id = some old)

include hid hold

/-- A child is printed if something has been removed at it or below it. -/
theorem exists_edit_of_removed (hkept : child ∈ keptChildren .standard t₀ old)
    (hremoved : Removed .standard t₀ child range) :
    ∃ edit ∈ edits, edit.action = .print child ∧ ∃ other, t₀.get? child = some other ∧
      edit.start = other.start ∧
      LaysOut text t₀ tree depth child other (expand child) (segments child) := by
  have hsurvives := h.survives_child hid hold hkept
  obtain ⟨other, hother⟩ := Option.isSome_iff_exists.mp hsurvives.isSome
  obtain ⟨new, hnew, -⟩ := h.prunes.trims.kin.get? hother
  have hmarks : new.marks.any := by
    by_contra hnone
    exact h.not_removed hsurvives hnew (by simpa using hnone) range hremoved
  obtain ⟨edit, hedit, haction⟩ := hcovers.printed child hkept new hnew hmarks
  obtain ⟨other', hother', hstart, -, hlaid⟩ :=
    exists_laysOut_of_print h hcovers hchildren hedit haction
  exact ⟨edit, hedit, haction, other', hother', hstart, hlaid⟩

/-- The edits cut what is removed at the node and below it. -/
theorem exists_cuts_iff : (∃ edit ∈ edits, range ∈ (edit.cuts segments).map Prod.fst) ↔
    Removed .standard t₀ id range := by
  rw [removed_iff hold]
  constructor
  · rintro ⟨edit, hedit, hrange⟩
    rcases hcovers.cases edit hedit with ⟨child, haction⟩ | hremoves
    · obtain ⟨hkept, -⟩ := hcovers.print edit hedit child haction
      obtain ⟨other, -, hstart, -, hlaid⟩ :=
        exists_laysOut_of_print h hcovers hchildren hedit haction
      simp only [Edit.cuts, haction, hstart, map_fst_cutsFrom] at hrange
      exact .inr ⟨child, hkept, (hlaid.regions range).mp hrange⟩
    · rw [Edit.map_fst_cuts_of_removes segments hremoves, List.mem_singleton] at hrange
      rw [hrange]
      exact .inl (hcovers.drop edit hedit hremoves)
  · rintro (hremoved | ⟨child, hkept, hremoved⟩)
    · obtain ⟨edit, hedit, hremoves, rfl⟩ := hcovers.dropped range hremoved
      refine ⟨edit, hedit, ?_⟩
      rw [Edit.map_fst_cuts_of_removes segments hremoves]
      exact List.mem_singleton_self _
    · obtain ⟨edit, hedit, haction, other, -, hstart, hlaid⟩ :=
        exists_edit_of_removed h hcovers hchildren hid hold hkept hremoved
      refine ⟨edit, hedit, ?_⟩
      simp only [Edit.cuts, haction, hstart, map_fst_cutsFrom]
      exact (hlaid.regions range).mpr hremoved

theorem exists_cuts_of_gap {a b : NodeId} {before after : Node}
    (hget : tree.get? id = some node) (hedits : editsOfNode (.ofText text) tree node = .ok edits)
    (hgap : Gap .standard t₀ id a b range) (hbefore : t₀.get? a = some before)
    (hafter : t₀.get? b = some after) :
    ∃ edit ∈ edits, (range, continuesAcross (.ofText text) before after) ∈ edit.cuts segments := by
  have hkin := h.prunes.trims.kin
  rcases (gap_iff hold).mp hgap with hgap | ⟨child, hkept, hgap⟩
  · obtain ⟨before', hbefore', hkin'⟩ := hkin.get? hbefore
    obtain ⟨after', hafter', hkin''⟩ := hkin.get? hafter
    refine ⟨_, mem_editsOfNode_gap h hid hold hget hgap hbefore' hafter' hedits, ?_⟩
    simp [gapEdit, Edit.cuts, Edit.range, continuesAcross, hkin'.stop, hkin''.start]
  · obtain ⟨edit, hedit, haction, other, -, hstart, hlaid⟩ :=
      exists_edit_of_removed h hcovers hchildren hid hold hkept hgap.removed
    refine ⟨edit, hedit, ?_⟩
    simp only [Edit.cuts, haction, hstart]
    exact hlaid.gaps hgap hbefore hafter

omit hchildren hid in
/-- At a node with a run of deleted statements or class members all edits end where tokens do. -/
theorem tokenStop_of_edit (hrun : RunAt .standard t₀ old range) (hedit : edit ∈ edits) :
    TokenStop text edit.stop ∧ 0 < edit.stop := by
  have hends : ∀ {child other}, t₀.Holds id child → t₀.get? child = some other →
      TokenStop text other.stop ∧ 0 < other.stop := by
    intro child other hholds hother
    have hroot := h.read.ne_root_of_holds hholds
    exact ⟨tokenStop_of_get? h.read hother hroot,
      Nat.zero_lt_of_lt (h.read.sound hother hroot).lt⟩
  rcases hcovers.cases edit hedit with ⟨child, haction⟩ | hremoves
  · obtain ⟨hkept, new, hnew, hrange⟩ := hcovers.print edit hedit child haction
    obtain ⟨other, hother, hkin⟩ := h.prunes.trims.kin.symm.get? hnew
    have hstop : edit.stop = other.stop := (Prod.mk.inj hrange).2.trans hkin.stop
    rw [hstop]
    exact hends (holds_of_mem_erasedSlots hold hkept) hother
  · have hremoved := hcovers.drop edit hedit hremoves
    obtain ⟨block, items, run, hblock, hshape, -⟩ := hrun
    obtain ⟨spec, slot, hfield, hremoved⟩ := hremoved
    have hholds : ∀ child ∈ slot.children, t₀.Holds id child := by
      rw [← Tree.fields_of_get? hold] at hfield
      exact fun child hchild => Tree.holds_of_mem_fields hfield hchild
    have hstays := not_strips_of_block (List.of_mem_zip hblock).1 hshape
      (List.of_mem_zip hfield).1
    generalize hrange : edit.range = dropped at hremoved
    have hstop : edit.stop = dropped.2 := congrArg Prod.snd hrange
    rw [hstop]
    cases hremoved with
    | @field child other hget _ => exact hends (hholds child (by simp)) hget
    | clause hstrips => simp [hstays] at hstrips
    | @run items run range _ _ hrun hspans =>
        obtain ⟨a, b, first, last, -, hb, -, hlast, rfl⟩ := hspans
        obtain ⟨front, back, hnodes, -⟩ := hrun
        refine hends (hholds b ?_) hlast
        refine List.mem_filterMap.mpr ⟨some b, ?_, rfl⟩
        simp [hnodes, List.mem_of_getLast? hb]

end

/-- A node with marks is laid out from its edits, if its surviving children can be laid out. -/
theorem laysOut_marked (h : t₀.Erased text tree root) (hid : Survives .standard t₀ root id)
    (hold : t₀.get? id = some old) (hget : tree.get? id = some node) (hmarks : node.marks.any)
    (hspan : node.hasSpan) {depth : Nat} {expand : NodeId → List Fragment}
    {segments : NodeId → List Segment}
    (hchildren : ∀ child ∈ keptChildren .standard t₀ old, ∀ other, t₀.get? child = some other →
      LaysOut text t₀ tree depth child other (expand child) (segments child)) :
    ∃ fragments segments, LaysOut text t₀ tree (depth + 1) id old fragments segments := by
  obtain ⟨edits, hedits, hcovers, hplaced⟩ :
      Gives (editsOfNode (.ofText text) tree node) fun edits =>
        Covers tree (keptChildren .standard t₀ old) (RemovedAt .standard t₀ old) edits ∧
          Placed text old.start old.stop edits :=
    gives_editsOfNode_erased h hid hold hget
  set sorted := sortOn (fun edit => (edit.start, edit.stop)) edits
  have hmem : ∀ {edit}, edit ∈ sorted ↔ edit ∈ edits := (perm_sortOn edits).mem_iff
  have hlaid : ∀ edit ∈ sorted, ∀ child, edit.action = .print child →
      Lays text edit.start (expand child) (segments child) edit.stop := by
    intro edit hedit child haction
    obtain ⟨other, -, hstart, hstop, hlaid⟩ :=
      exists_laysOut_of_print h hcovers hchildren (hmem.mp hedit) haction
    rw [hstart, hstop]
    exact hlaid.lays
  obtain ⟨covered, hlays, hcuts, hextents⟩ := lays_piecesFrom (h.read.shape hold).stop
    hplaced.chain_sortOn
    (boundary_start h.read hold) (Nat.le_refl _) (fun _ _ hle => hle) hlaid
    fun edit hedit => hcovers.cases edit (hmem.mp hedit)
  rw [Nat.min_eq_left (h.read.start_le hold)] at hlays hcuts hextents
  refine ⟨_, covered, fun done => ?_, hlays, fun range => ?_, fun hgap hbefore hafter => ?_, ?_⟩
  · have hkin := h.prunes.trims.kin.node hold hget
    have hpieces : piecesOfNode (.ofText text) tree id =
        .ok (piecesFrom (.ofText text) old.stop old.start sorted) := by
      simp [piecesOfNode, require_some hget, hmarks, hspan, hedits, hkin.start, hkin.stop, sorted,
        bind, Except.bind, pure, Except.pure]
    rw [fragmentsWithin, hpieces]
    refine foldlM_pieces (fun child hchild => ?_) done
    obtain ⟨edit, hedit, haction⟩ := exists_of_mem_piecesFrom hchild
    obtain ⟨other, -, -, -, hlaid⟩ :=
      exists_laysOut_of_print h hcovers hchildren (hmem.mp hedit) haction
    exact hlaid.within
  · rw [← map_fst_cutsFrom, hcuts, List.map_flatMap, List.mem_flatMap,
      ← exists_cuts_iff h hcovers hchildren hid hold]
    exact exists_congr fun edit => and_congr_left' hmem
  · obtain ⟨edit, hedit, hcut⟩ :=
      exists_cuts_of_gap h hcovers hchildren hid hold hget hedits hgap hbefore hafter
    rw [hcuts]
    exact List.mem_flatMap.mpr ⟨edit, hmem.mpr hedit, hcut⟩
  · rintro node range lines ⟨owner, howner, hnode, hrun, halone⟩
    rcases (survives_iff hold).mp howner with rfl | ⟨child, hkept, howner⟩
    · obtain rfl := Option.some.inj (hold.symm.trans hnode)
      obtain ⟨edit, hedit, hrange, haction⟩ :=
        exists_edit_of_runAt h hid hold hget hrun hedits
      obtain ⟨floor, hfloor, hsub⟩ := hextents edit (hmem.mpr hedit)
      have hextent : edit.extents text old.stop floor segments = [(lines.1, min lines.2 old.stop)] :=
        halone.extents_eq hrange haction (hplaced.each edit hedit) hfloor
          (fun other hother => tokenStop_of_edit h hcovers hold hrun (hmem.mp hother))
          (start_le_lines h.read hold hrun halone)
      exact hsub (hextent ▸ List.mem_singleton_self _)
    · obtain ⟨edit, hedit, haction, other, -, hstart, hlaid⟩ :=
        exists_edit_of_removed h hcovers hchildren hid hold hkept
          ⟨owner, node, howner, hnode, hrun.removedAt⟩
      obtain ⟨floor, -, hsub⟩ := hextents edit (hmem.mpr hedit)
      refine hsub ?_
      simp only [Edit.extents, haction, hstart]
      exact hlaid.lines ⟨owner, howner, hnode, hrun, halone⟩

/-- Every surviving node can be laid out. Its children come before it in the table, so it takes no more
levels than there are nodes before it. -/
theorem exists_laysOut (h : t₀.Erased text tree root)
    (hspan : ∀ {node}, tree.get? root = some node → node.marks.any → node.hasSpan) (depth : Nat)
    {id : NodeId} {old : Node} (hid : Survives .standard t₀ root id) (hold : t₀.get? id = some old)
    (hlt : id < depth) :
    ∃ fragments segments, LaysOut text t₀ tree depth id old fragments segments := by
  induction depth generalizing id old with
  | zero => exact absurd hlt (Nat.not_lt_zero id)
  | succ depth ih =>
      obtain ⟨node, hget, -⟩ := h.prunes.trims.kin.get? hold
      by_cases hmarks : node.marks.any
      · have hcovers : node.hasSpan := by
          by_cases hroot : id = root
          · subst hroot
            exact hspan hget hmarks
          · exact h.read.hasSpan h.prunes.trims hget hroot
        have hchildren : ∀ child, ∃ fragments segments, child ∈ keptChildren .standard t₀ old →
            ∀ other, t₀.get? child = some other →
              LaysOut text t₀ tree depth child other fragments segments := by
          intro child
          by_cases hkept : child ∈ keptChildren .standard t₀ old
          · have hsurvives := h.survives_child hid hold hkept
            obtain ⟨other, hother⟩ := Option.isSome_iff_exists.mp hsurvives.isSome
            have hlt' : child < id := h.read.lt_of_holds (holds_of_mem_erasedSlots hold hkept)
            obtain ⟨fragments, segments, hlaid⟩ :=
              ih hsurvives hother (Nat.lt_of_lt_of_le hlt' (Nat.le_of_lt_succ hlt))
            refine ⟨fragments, segments, fun _ other' hother' => ?_⟩
            exact Option.some.inj (hother.symm.trans hother') ▸ hlaid
          · exact ⟨[], [], fun hmem => absurd hmem hkept⟩
        choose expand segments hlaid using hchildren
        exact laysOut_marked h hid hold hget hmarks hcovers hlaid
      · exact laysOut_unmarked h hid hold hget (by simpa using hmarks) depth

/-- A text without the regions that are removed from its tree. Every region goes with at most the
blanks around it and one line end, and what is written in its place keeps words apart. -/
structure Drops (parsed : Parsed) (text code : List Char) (drops : List Drop) (rest : List Char) :
    Prop where
  source : text = drops.flatMap Drop.source ++ rest
  output : code = drops.flatMap Drop.output ++ rest
  ranges : ∀ range, range ∈ Drop.rangesFrom 0 drops ↔
    Removed .standard parsed.tree parsed.root range
  blanks : ∀ drop ∈ drops, (∀ c ∈ drop.before, isSpace c) ∧ IsTail drop.after
  separators : ∀ drop ∈ drops, drop.separator ∈ [[], [' '], [';']]
  apart : Apart [] drops rest

theorem output_writer (options : PrintOptions) (fileName : Option String) :
    (options.writer fileName).output = [] := by
  unfold PrintOptions.writer
  split <;> rfl

theorem print_of_fragments {parsed : Parsed} {fragments : List Fragment}
    (h : Layout.fragments (.ofText parsed.text) parsed.tree parsed.root = .ok fragments)
    (options : PrintOptions) :
    let output := fragments.foldl (Output.put (.ofText parsed.text))
      { writer := options.writer parsed.fileName }
    parsed.print options =
      .ok ⟨output.writer.output, output.writer.recorder.map (·.finish)⟩ := by
  rw [Parsed.print, h]
  rfl

theorem Drops.eq_of_not_removed {parsed : Parsed} {code rest : List Char} {drops : List Drop}
    (h : Drops parsed text code drops rest)
    (hnone : ∀ range, ¬Removed .standard parsed.tree parsed.root range) : code = text := by
  cases drops with
  | nil => rw [h.output, h.source, List.flatMap_nil, List.flatMap_nil]
  | cons drop drops => exact absurd ((h.ranges _).mp List.mem_cons_self) (hnone _)

/-- The erased tree of a text has a layout, which covers the whole text. -/
theorem exists_laysOut_program {parsed : Parsed} {fileName : Option String}
    (h : parse text fileName = .ok parsed) :
    ∃ fragments segments depth program,
      Layout.fragments (.ofText text) parsed.erase.1.tree parsed.erase.1.root = .ok fragments ∧
      program.start = 0 ∧ program.stop = byteLength text ∧
      LaysOut text parsed.tree parsed.erase.1.tree depth parsed.root program fragments segments := by
  obtain ⟨-, -, hread⟩ := readFrom_of_parse h
  obtain ⟨program, hprogram, -, hstart, hstop⟩ := hread.program
  have hlt : parsed.root < (parsed.tree.erase .standard parsed.root).1.size + 1 := by
    rw [← hread.prunes_erase.trims.kin.size]
    exact Nat.lt_succ_of_lt (Tree.lt_size_of_get? hprogram)
  obtain ⟨fragments, segments, hlaid⟩ := exists_laysOut hread.erased (hasSpan_of_erase h) _
    (.root (by simp [hprogram])) hprogram hlt
  have hwithin := hlaid.within []
  rw [List.append_nil] at hwithin
  refine ⟨fragments, segments, _, program, ?_, hstart, hstop, hlaid⟩
  simp [Layout.fragments, Parsed.erase, hwithin, bind, Except.bind, pure, Except.pure]

/-- The fragments of the erased tree of a text lay out the whole text. -/
theorem exists_fragments {parsed : Parsed} {fileName : Option String}
    (h : parse text fileName = .ok parsed) :
    ∃ fragments segments, Layout.fragments (.ofText text) parsed.erase.1.tree parsed.erase.1.root =
        .ok fragments ∧
      Lays text 0 fragments segments (byteLength text) ∧
      (∀ range, range ∈ regionsFrom 0 segments ↔
        Removed .standard parsed.tree parsed.root range) ∧
      ∀ {a b range before after}, Gap .standard parsed.tree parsed.root a b range →
        parsed.tree.get? a = some before → parsed.tree.get? b = some after →
          (range, continuesAcross (.ofText text) before after) ∈ cutsFrom 0 segments := by
  obtain ⟨fragments, segments, depth, program, hfragments, hstart, hstop, hlaid⟩ :=
    exists_laysOut_program h
  have hlays := hlaid.lays
  have hregions := hlaid.regions
  have hgaps := @hlaid.gaps
  rw [hstart] at hlays hregions hgaps
  rw [hstop] at hlays
  exact ⟨fragments, segments, hfragments, hlays, hregions, hgaps⟩

/-- The erased tree of a text is laid out as the text without the removed regions, by writes that copy
what is kept. Runs are dropped with their lines. -/
theorem exists_writes_lines {parsed : Parsed} {fileName : Option String}
    (h : parse text fileName = .ok parsed) (options : PrintOptions) :
    ∃ drops rest writes writer,
      writer = (options.writer parsed.fileName).writeAll (.ofText text) writes ∧
      parsed.erase.1.print options = .ok ⟨writer.output, writer.recorder.map (·.finish)⟩ ∧
      Drops parsed text writer.output drops rest ∧ Written text 0 [] [] drops rest writes ∧
      ∀ {node range lines}, RunLines text parsed.tree parsed.root node range lines →
        (lines.1, min lines.2 node.stop) ∈ Drop.extentsFrom 0 drops := by
  obtain ⟨fragments, segments, depth, program, hfragments, hstart, hstop, hlaid⟩ :=
    exists_laysOut_program h
  have hlays := hlaid.lays
  have hregions := hlaid.regions
  have hlines := @hlaid.lines
  rw [hstart] at hlays hregions hlines
  rw [hstop] at hlays
  have htext : parsed.erase.1.text = text := (readFrom_of_parse h).1
  obtain ⟨lead, drops, rest, writes, hweaves, hwriter, hwritten⟩ :=
    exists_weaves hlays { writer := options.writer parsed.fileName }
  obtain rfl : lead = [] := hweaves.leads.resolve_right (by simp)
  have hcovers : segments.flatMap Segment.source = text :=
    hlays.between.unique ⟨[], by simpa using at_zero text, by simp⟩
  have hprint := print_of_fragments (htext.symm ▸ hfragments) options
  rw [output_writer] at hwritten
  refine ⟨drops, rest, writes, _, hwriter, ?_, ⟨?_, ?_, ?_, hweaves.blanks,
    hweaves.separators, ?_⟩, hwritten, fun hrun => ?_⟩
  · rw [htext] at hprint
    exact hprint
  · rw [← hcovers, hweaves.source]
  · have houtput := hweaves.output
    rwa [output_writer, List.append_nil, List.nil_append] at houtput
  · rw [hweaves.ranges]
    exact hregions
  · have hapart := hweaves.apart
    rwa [output_writer] at hapart
  · rw [hweaves.extents]
    exact hlines hrun

theorem exists_writes {parsed : Parsed} {fileName : Option String}
    (h : parse text fileName = .ok parsed) (options : PrintOptions) :
    ∃ drops rest writes writer,
      writer = (options.writer parsed.fileName).writeAll (.ofText text) writes ∧
      parsed.erase.1.print options = .ok ⟨writer.output, writer.recorder.map (·.finish)⟩ ∧
      Drops parsed text writer.output drops rest ∧ Written text 0 [] [] drops rest writes := by
  obtain ⟨drops, rest, writes, writer, hwriter, hprint, hdrops, hwritten, -⟩ :=
    exists_writes_lines h options
  exact ⟨drops, rest, writes, writer, hwriter, hprint, hdrops, hwritten⟩

/-- The erased tree of a text is laid out as the text without the removed regions. -/
theorem exists_drops {parsed : Parsed} {fileName : Option String}
    (h : parse text fileName = .ok parsed) (options : PrintOptions) :
    ∃ printed drops rest, parsed.erase.1.print options = .ok printed ∧
      Drops parsed text printed.code drops rest := by
  obtain ⟨drops, rest, writes, writer, -, hprint, hdrops, -⟩ := exists_writes h options
  exact ⟨_, drops, rest, hprint, hdrops⟩

end Layout

open Layout

/-- The output of the compiler is its source without the removed regions. If nothing is removed, it is
the source. -/
theorem compile_drops {text : List Char} {options : CompileOptions} {parsed : Parsed}
    (h : parse text options.sourceFileName = .ok parsed) :
    ∃ printed drops rest, compile text options = .ok printed ∧
      Drops parsed text printed.code drops rest ∧
      (parsed.erase.2.changed = false → printed.code = text) := by
  obtain ⟨printed, drops, rest, hprint, hdrops⟩ := exists_drops h
    { sourceFileName := options.sourceFileName, sourceMapName := options.sourceMapName }
  refine ⟨printed, drops, rest, ?_, hdrops, fun hsame => ?_⟩
  · simp only [compile, h, hprint]
  · obtain ⟨-, -, hread⟩ := readFrom_of_parse h
    exact hdrops.eq_of_not_removed (hread.not_removed_of_unchanged hsame)

theorem compile_drops_alias :
    ∃ parsed printed drops rest, parse "a\ntype T = U\nb".toList none = .ok parsed ∧
      compile "a\ntype T = U\nb".toList {} = .ok printed ∧ printed.code = "a\nb".toList ∧
      Drops parsed "a\ntype T = U\nb".toList printed.code drops rest := by
  have hsome : (parse "a\ntype T = U\nb".toList none).toOption.isSome := by decide +kernel
  have hcode : (compile "a\ntype T = U\nb".toList {}).toOption.map Printed.code =
      some "a\nb".toList := by
    decide +kernel
  cases hparse : parse "a\ntype T = U\nb".toList none with
  | error e =>
      rw [hparse] at hsome
      exact absurd hsome nofun
  | ok parsed =>
      obtain ⟨printed, drops, rest, hcompile, hdrops, -⟩ := @compile_drops _ {} _ hparse
      rw [hcompile] at hcode
      exact ⟨parsed, printed, drops, rest, rfl, hcompile, Option.some.inj hcode, hdrops⟩

/-- What is left of a program is not always one: here the line break before a return type that is
removed comes to stand before the arrow. -/
theorem not_parse_compile : ¬∀ (text : List Char) (printed : Printed),
    compile text {} = .ok printed → ∃ parsed, parse printed.code none = .ok parsed := by
  intro hall
  have hcode : (compile "(x)\n: T => x".toList {}).toOption.map Printed.code =
      some "(x)\n => x".toList := by
    decide +kernel
  have hfails : (parse "(x)\n => x".toList none).toOption.isNone := by decide +kernel
  cases hcompile : compile "(x)\n: T => x".toList {} with
  | error e =>
      rw [hcompile] at hcode
      exact absurd hcode nofun
  | ok printed =>
      rw [hcompile] at hcode
      obtain ⟨parsed, hparse⟩ := hall _ _ hcompile
      rw [Option.some.inj hcode] at hparse
      rw [hparse] at hfails
      exact absurd hfails nofun

end FlowErasure
