import FlowErasure.Grammar.Targets
import FlowErasure.Proofs.Grammar.Finishing

/-!
# Assignment targets

Turning literals into patterns adds nodes that take over the children of old ones. `Recasts` says
what that leaves alone: no node changes its kind, range or slots, and only nodes below the literal
get a new parent.
-/

namespace FlowErasure

namespace Tree

variable {text : List Char} {tree tree' : Tree} {hi lo : Nat} {ids ids' : List NodeId}

/-- Nothing is below two nodes in a row. -/
theorem Sound.eq_of_reaches (h : tree.Sound text) (hlaid : tree.Laid hi lo ids) {a b x : NodeId}
    (ha : a ∈ ids) (hb : b ∈ ids) (hax : tree.Reaches a x) (hbx : tree.Reaches b x) : a = b := by
  by_contra hne
  obtain ⟨face, face', hface, hface', hapart⟩ := hlaid.apart ha hb hne
  obtain ⟨inner, hinner, hstart, hstop⟩ := h.inside_of_reaches hax hface
  obtain ⟨inner', hinner', hstart', hstop'⟩ := h.inside_of_reaches hbx hface'
  obtain rfl : inner = inner' := Option.some.inj (hinner.symm.trans hinner')
  have hlt := h.lt_face hinner
  omega

theorem Laid.of_ranges (h : tree.Laid hi lo ids)
    (hranges : ids'.map tree'.range? = ids.map tree.range?) : tree'.Laid hi lo ids' := by
  induction ids generalizing lo ids' with
  | nil =>
      obtain rfl : ids' = [] := by simpa using hranges
      trivial
  | cons id ids ih =>
      obtain ⟨face, hface, hle, hlt, hstop, hrest⟩ := h
      obtain ⟨id', ids', rfl, hid, hids⟩ := List.map_eq_cons_iff.mp hranges
      simp only [range?, hface, Option.map_some] at hid
      obtain ⟨face', hface', hrange⟩ := Option.map_eq_some_iff.mp hid
      obtain ⟨hstart', hstop'⟩ := Prod.mk.inj hrange
      exact ⟨face', hface', by omega, by omega, by omega, hstop' ▸ ih hrest hids⟩

/-- The children of an ordinary node come in the order of its slots. -/
theorem Sound.laid_children (h : tree.Sound text) {id : NodeId} {node : Node}
    (hget : tree.get? id = some node) (hkind : node.kind.isOrdinary) :
    tree.Laid node.stop node.start node.children := by
  have hreading := (h.node hget).reading
  have hinOrder := NodeKind.isInOrder_of_isOrdinary hkind
  rwa [Node.reading, NodeKind.reading_of_ne (NodeKind.ne_templateLiteral hinOrder)] at hreading

/-- A list keeps its place when its elements are replaced by others with the same ranges. -/
theorem Within.of_ranges {nodes nodes' : List (Option NodeId)} {start stop : Nat}
    (h : tree.Within lo hi (.list ⟨nodes, start, stop⟩))
    (hranges : (nodes'.filterMap id).map tree'.range? = (nodes.filterMap id).map tree.range?) :
    tree'.Within lo hi (.list ⟨nodes', start, stop⟩) := by
  obtain ⟨hlo, hle, hhi, hnodes⟩ := h
  refine ⟨hlo, hle, hhi, fun child hchild => ?_⟩
  have hmem : tree'.range? child ∈ (nodes.filterMap id).map tree.range? :=
    hranges ▸ List.mem_map_of_mem hchild
  obtain ⟨old, hold, heq⟩ := List.mem_map.mp hmem
  obtain ⟨face, hface, hstart, hstop⟩ := hnodes old hold
  rw [range?, range?, hface, Option.map_some, eq_comm] at heq
  obtain ⟨face', hface', hrange⟩ := Option.map_eq_some_iff.mp heq
  obtain ⟨hstart', hstop'⟩ := Prod.mk.inj hrange
  exact ⟨face', hface', hstart' ▸ hstart, hstop' ▸ hstop⟩

/-- A node keeps what it owns while the slots stay and what is below it keeps its parents. -/
theorem Owned.of_same {n : Nat} {lo id : NodeId} (hown : tree.Owned lo id) (h : tree.Sound text)
    (hchildren : ∀ i < n, tree'.children i = tree.children i)
    (hfields : ∀ i < n, tree'.fields i = tree.fields i) (hid : id < n)
    (hparent : ∀ p c, tree.Reaches id p → tree.Holds p c → tree'.parent? c = tree.parent? c) :
    tree'.Owned lo id := by
  intro p hp
  have hreach := (h.reaches_of_children hchildren hid).mp hp
  refine ⟨(hown p hreach).1, fun spec slot hmem c hc => ?_⟩
  rw [hfields p (Nat.lt_of_le_of_lt (h.le_of_reaches hreach) hid)] at hmem
  exact (hparent p c hreach (holds_of_mem_fields hmem hc)).trans
    ((hown p hreach).2 spec slot hmem c hc)

end Tree

namespace Grammar

variable {text : List Char} {c : Context} {s s₀ s₁ s₂ : State} {ids ids₁ ids₂ : List NodeId}

/-- The nodes `ids` have been replaced by `ids'` with the same ranges. -/
structure Recasts (text : List Char) (s : State) (ids ids' : List NodeId) (s' : State) : Prop where
  good : Good text s'
  lexer : s'.lexer = s.lexer
  lastEnd : s'.lastEnd = s.lastEnd
  size : s.tree.size ≤ s'.tree.size
  faces : ∀ i < s.tree.size, s'.tree.face? i = s.tree.face? i
  children : ∀ i < s.tree.size, s'.tree.children i = s.tree.children i
  fields : ∀ i < s.tree.size, s'.tree.fields i = s.tree.fields i
  frame : ∀ i < s.tree.size, (∀ id ∈ ids, s.tree.Reaches id i → i = id) →
    s'.tree.get? i = s.tree.get? i
  ranges : ids'.map s'.tree.range? = ids.map s.tree.range?
  fresh : ∀ id ∈ ids', id ∈ ids ∨ s.tree.size ≤ id
  values : (∀ id ∈ ids, s.tree.IsValue id) → ∀ id ∈ ids', s'.tree.IsValue id
  owned : ∀ lo ≤ s.tree.size, (∀ id ∈ ids, s.tree.Owned lo id) → ∀ id ∈ ids', s'.tree.Owned lo id
  covered : ∀ id ∈ ids, ∀ i, s.tree.Reaches id i → s'.tree.Covers ids' i
  added : ∀ i, s.tree.size ≤ i → i < s'.tree.size → (∃ id ∈ ids', s'.tree.Reaches id i) ∧
    ∃ id ∈ ids, ∃ j, s.tree.Reaches id j ∧ s'.tree.range? i = s.tree.range? j

namespace Recasts

variable {ids' ids₁' ids₂' : List NodeId} {s' : State}

theorem refl (h : Good text s) (ids : List NodeId) : Recasts text s ids ids s where
  good := h
  lexer := rfl
  lastEnd := rfl
  size := Nat.le_refl _
  faces _ _ := rfl
  children _ _ := rfl
  fields _ _ := rfl
  frame _ _ _ := rfl
  ranges := rfl
  fresh _ := .inl
  values := id
  owned _ _ := id
  covered _ hid _ := .of_reaches hid
  added _ hi hlt := absurd hlt (Nat.not_lt_of_le hi)

theorem range? (h : Recasts text s ids ids' s') {i : NodeId} (hi : i < s.tree.size) :
    s'.tree.range? i = s.tree.range? i := by
  simp [Tree.range?, h.faces i hi]

/-- The nodes added have ranges of nodes that were read, so they reach from token to token. -/
theorem spends (h : Recasts text s ids ids' s') (hread : Builds text s₀ ids s)
    {tokens : List (Nat × Nat)} (htokens : Spends s₀ tokens s) : Spends s₀ tokens s' where
  lexer := h.lexer ▸ htokens.lexer
  lastEnd := h.lastEnd ▸ htokens.lastEnd
  nodes i face hi hface := by
    by_cases hold : i < s.tree.size
    · exact htokens.nodes i face hi ((h.faces i hold).symm.trans hface)
    · have hlt := Tree.lt_size_of_face? hface
      obtain ⟨-, id, hid, j, hreach, hrange⟩ := h.added i (Nat.le_of_not_lt hold) hlt
      rw [Tree.range?, hface, Option.map_some, eq_comm] at hrange
      obtain ⟨old, hold, heq⟩ := Option.map_eq_some_iff.mp hrange
      obtain ⟨hstart, hstop⟩ := Prod.mk.inj heq
      rw [← hstart, ← hstop]
      exact htokens.nodes j old (hread.owned id hid j hreach).1 hold

theorem builds (h : Recasts text s ids ids' s') (hread : Builds text s₀ ids s) :
    Builds text s₀ ids' s' where
  origin := hread.origin
  good := h.good
  size := Nat.le_trans hread.size h.size
  frame i hi := by
    refine (h.frame i (Nat.lt_of_lt_of_le hi hread.size) fun id hid hreach => ?_).trans
      (hread.frame i hi)
    exact absurd hi (Nat.not_lt_of_le (hread.owned id hid i hreach).1)
  start := h.lexer ▸ hread.start
  stop := h.lastEnd ▸ hread.stop
  laid := h.lastEnd ▸ hread.laid.of_ranges h.ranges
  owned := h.owned _ hread.size hread.owned
  tokens := by
    obtain ⟨tokens, htokens⟩ := hread.tokens
    exact ⟨tokens, h.spends hread htokens⟩
  covered i hi hlt := by
    by_cases hold : i < s.tree.size
    · have hkept := (hread.covered i hi hold).congr hread.good.tree h.faces h.children
        (fun _ => hread.lt_size) hold
      refine hkept.trans fun id hid b hreach => h.covered id hid b ?_
      exact (hread.good.tree.reaches_of_children h.children (hread.lt_size hid)).mp hreach
    · obtain ⟨⟨id, hid, hreach⟩, -⟩ := h.added i (Nat.le_of_not_lt hold) hlt
      exact .of_reaches hid hreach

theorem owned_of_notMem (h : Recasts text s ids ids' s') (hs : s.tree.Sound text) {hi lo' : Nat}
    {all : List NodeId} (hlaid : s.tree.Laid hi lo' all) (hsub : ids ⊆ all) {lo b : NodeId}
    (hb : b ∈ all) (hnot : b ∉ ids) (hown : s.tree.Owned lo b) : s'.tree.Owned lo b := by
  obtain ⟨face, hface, -⟩ := hlaid.face? hb
  have hlt := Tree.lt_size_of_face? hface
  refine hown.of_same hs h.children h.fields hlt fun p d hp hd => ?_
  have hdlt : d < s.tree.size :=
    Nat.lt_of_le_of_lt (hs.le_of_reaches (hp.tail hd)) hlt
  have hsame := h.frame d hdlt fun id hid hreach => by
    exact absurd ((hs.eq_of_reaches hlaid (hsub hid) hb hreach (hp.tail hd)) ▸ hid) hnot
  simp [Tree.parent?, hsame]

theorem trans (hs : Good text s) {hi lo' : Nat} (hlaid : s.tree.Laid hi lo' (ids₁ ++ ids₂))
    (h : Recasts text s ids₁ ids₁' s₁) (h' : Recasts text s₁ ids₂ ids₂' s₂) :
    Recasts text s (ids₁ ++ ids₂) (ids₁' ++ ids₂') s₂ := by
  have hlt : ∀ id ∈ ids₁ ++ ids₂, id < s.tree.size := fun id hid => by
    obtain ⟨face, hface, -⟩ := hlaid.face? hid
    exact Tree.lt_size_of_face? hface
  have hfaces : ∀ i < s.tree.size, s₂.tree.face? i = s.tree.face? i := fun i hi =>
    (h'.faces i (Nat.lt_of_lt_of_le hi h.size)).trans (h.faces i hi)
  have hranges₂ : ids₂.map s₁.tree.range? = ids₂.map s.tree.range? :=
    List.map_congr_left fun id hid => h.range? (hlt id (List.mem_append_right _ hid))
  have hlaid' : s₁.tree.Laid hi lo' (ids₁' ++ ids₂) :=
    hlaid.of_ranges (by rw [List.map_append, List.map_append, h.ranges, hranges₂])
  have hlt' : ∀ id ∈ ids₁', id < s₁.tree.size := fun id hid => by
    obtain ⟨face, hface, -⟩ := hlaid'.face? (List.mem_append_left _ hid)
    exact Tree.lt_size_of_face? hface
  have hranges₁ : ids₁'.map s₂.tree.range? = ids₁'.map s₁.tree.range? :=
    List.map_congr_left fun id hid => h'.range? (hlt' id hid)
  have hreaches : ∀ id ∈ ids₂, ∀ i, s₁.tree.Reaches id i ↔ s.tree.Reaches id i := fun id hid i =>
    hs.tree.reaches_of_children h.children (hlt id (List.mem_append_right _ hid))
  have hsize : ∀ i < s.tree.size, i < s₁.tree.size := fun i hi => Nat.lt_of_lt_of_le hi h.size
  exact {
    good := h'.good
    lexer := h'.lexer.trans h.lexer
    lastEnd := h'.lastEnd.trans h.lastEnd
    size := Nat.le_trans h.size h'.size
    faces := hfaces
    children := fun i hi => (h'.children i (hsize i hi)).trans (h.children i hi)
    fields := fun i hi => (h'.fields i (hsize i hi)).trans (h.fields i hi)
    frame := fun i hi hid => by
      refine (h'.frame i (hsize i hi) fun id hmem hreach => ?_).trans
        (h.frame i hi fun id hmem => hid id (List.mem_append_left _ hmem))
      exact hid id (List.mem_append_right ids₁ hmem) ((hreaches id hmem i).mp hreach)
    ranges := by
      rw [List.map_append, List.map_append, hranges₁, h.ranges, h'.ranges, hranges₂]
    fresh := fun id hid => by
      rcases List.mem_append.mp hid with hid | hid
      · exact (h.fresh id hid).imp_left (List.mem_append_left _)
      · exact (h'.fresh id hid).imp (List.mem_append_right _) (Nat.le_trans h.size)
    values := fun hvalues id hid => by
      rcases List.mem_append.mp hid with hid | hid
      · have hvalue := h.values (fun c hc => hvalues c (List.mem_append_left _ hc)) id hid
        exact hvalue.congr (h'.faces id (hlt' id hid))
      · refine h'.values (fun c hc => ?_) id hid
        have hmem := List.mem_append_right ids₁ hc
        exact (hvalues c hmem).congr (h.faces c (hlt c hmem))
    owned := fun lo hlo hown id hid => by
      have hdisjoint := List.nodup_append.mp hlaid.nodup
      have hdisjoint' := List.nodup_append.mp hlaid'.nodup
      rcases List.mem_append.mp hid with hid | hid
      · have hid' := h.owned lo hlo (fun c hc => hown c (List.mem_append_left _ hc)) id hid
        refine h'.owned_of_notMem h.good.tree hlaid' (List.subset_append_right _ _)
          (List.mem_append_left _ hid) (fun hmem => ?_) hid'
        exact hdisjoint'.2.2 id hid id hmem rfl
      · refine h'.owned lo (Nat.le_trans hlo h.size) (fun c hc => ?_) id hid
        have hmem := List.mem_append_right ids₁ hc
        refine h.owned_of_notMem hs.tree hlaid (List.subset_append_left _ _) hmem (fun hin => ?_)
          (hown c hmem)
        exact hdisjoint.2.2 c hin c hc rfl
    covered := fun id hid i hreach => by
      have hi : i < s.tree.size := Nat.lt_of_le_of_lt (hs.tree.le_of_reaches hreach) (hlt id hid)
      rcases List.mem_append.mp hid with hid | hid
      · have hkept := (h.covered id hid i hreach).congr h.good.tree h'.faces h'.children hlt'
          (hsize i hi)
        exact hkept.mono (List.subset_append_left _ _)
      · have hcovers := h'.covered id hid i ((hreaches id hid i).mpr hreach)
        exact hcovers.mono (List.subset_append_right _ _)
    added := fun i hi hnew => by
      by_cases hold : i < s₁.tree.size
      · obtain ⟨⟨id, hid, hreach⟩, old, hmem, j, hj, hrange⟩ := h.added i hi hold
        refine ⟨⟨id, List.mem_append_left _ hid, ?_⟩, old, List.mem_append_left _ hmem, j, hj, ?_⟩
        · exact (h.good.tree.reaches_of_children h'.children (hlt' id hid)).mpr hreach
        · exact (h'.range? hold).trans hrange
      · obtain ⟨⟨id, hid, hreach⟩, old, hmem, j, hj, hrange⟩ :=
          h'.added i (Nat.le_of_not_lt hold) hnew
        have hj' := (hreaches old hmem j).mp hj
        have hlt := Nat.lt_of_le_of_lt (hs.tree.le_of_reaches hj')
          (hlt old (List.mem_append_right _ hmem))
        exact ⟨⟨id, List.mem_append_right _ hid, hreach⟩, old, List.mem_append_right _ hmem, j, hj',
          hrange.trans (h.range? hlt)⟩ }

end Recasts

theorem run_failTarget {α : Type} {id : NodeId} {Q : α → State → Prop} :
    Run (failTarget id) c s Q ↔ True := by
  simp only [failTarget, run_bind, run_steps]
  split <;> simp only [run_steps]

theorem run_rebuild {id : NodeId} {node : Node} {ids' : List NodeId} {kind : NodeKind}
    {flags : NodeFlags} {slots : List Slot} (h : Good text s)
    (hget : s.tree.get? id = some node) (hrecast : Recasts text s node.children ids' s₁)
    (hslots : slots.flatMap Slot.children = ids') (hadmits : kind.admits slots)
    (hkind : (node.kind.isOrdinary && kind.isPlain && !kind.isTypeOnly) = true)
    (hpattern : node.kind.pattern? = some kind)
    (hlists : ∀ slot ∈ slots, s₁.tree.Within node.start node.stop slot)
    (hneeded : ∀ c ∈ kind.needed slots, s₁.tree.IsValue c) :
    Run (rebuild node kind flags slots) c s₁ fun id' s' => Recasts text s [id] [id'] s' := by
  simp only [rebuild, run_addNode]
  simp only [Bool.and_eq_true, Bool.not_eq_true'] at hkind
  obtain ⟨⟨hold, hplain⟩, htype⟩ := hkind
  set new : Node := { kind, start := node.start, stop := node.stop, slots, flags }
  have hnode := h.tree.node hget
  have hid : id < s.tree.size := Tree.lt_size_of_get? hget
  have hchildren : (Tree.fitted new).children = ids' :=
    (Tree.children_fitted (NodeKind.length_le_of_admits hadmits)).trans hslots
  have hlaid : s₁.tree.Laid node.stop node.start ids' :=
    (h.tree.laid_children hget hold).of_ranges hrecast.ranges
  have hlt : ∀ child ∈ ids', child < s₁.tree.size := fun child hchild => by
    obtain ⟨face, hface, -⟩ := hlaid.face? hchild
    exact Tree.lt_size_of_face? hface
  have hfills : s₁.tree.Fills text kind node.start node.stop slots := by
    refine .ofOrdinary hrecast.good.tree (NodeKind.isOrdinary_of_isPlain hplain) hadmits
      (hslots ▸ hlaid) hlists hneeded ?_
      (.of_isBlockless (NodeKind.isBlockless_of_isPlain hplain))
    simp [NodeKind.embedded_eq_nil hplain]
  have hshape : NodeShape text s₁.tree s₁.tree.size (Tree.fitted new) :=
    Tree.Fills.nodeShape new hfills ⟨rfl, rfl⟩ hnode.stop
  have hbelow : ∀ child ∈ node.children, s.tree.Reaches id child := fun child hchild =>
    .single (by rwa [Tree.Holds, Tree.children_of_get? hget])
  have hface := Tree.face?_of_get? (Tree.get?_add_self s₁.tree new)
  have hsize : ∀ i < s.tree.size, i < s₁.tree.size := fun i hi =>
    Nat.lt_of_lt_of_le hi hrecast.size
  have hrange : (s₁.tree.add new).2.range? s₁.tree.size = s.tree.range? id := by
    simp only [Tree.range?, hface, Tree.face?_of_get? hget]
    rfl
  exact {
    good := hrecast.good.withTree (hrecast.good.tree.add ⟨hshape, hnode.start, hnode.lt⟩
      (hfills.colon (Tree.fitted new) rfl rfl)
      (.of_not (NodeKind.isOperation_of_isOrdinary (NodeKind.isOrdinary_of_isPlain hplain))) rfl)
    lexer := hrecast.lexer
    lastEnd := hrecast.lastEnd
    size := by
      rw [Tree.size_add]
      exact Nat.le_succ_of_le hrecast.size
    faces := fun i hi => (Tree.face?_add new (hsize i hi)).trans (hrecast.faces i hi)
    children := fun i hi => (Tree.children_add new (hsize i hi)).trans (hrecast.children i hi)
    fields := fun i hi => (Tree.fields_add new (hsize i hi)).trans (hrecast.fields i hi)
    frame := fun i hi hout => by
      -- A node outside is neither below a child nor one of the children that stay.
      have hne : ∀ child ∈ node.children, ¬s.tree.Reaches child i := fun child hchild hreach => by
        have heq := hout id (by simp) ((hbelow child hchild).trans hreach)
        have hle := h.tree.le_of_reaches hreach
        exact Nat.not_lt_of_le (heq ▸ hle) (hnode.below child hchild)
      have hmem : i ∉ (Tree.fitted new).children := fun hin => by
        rcases hrecast.fresh i (hchildren ▸ hin) with hmem | hge
        · exact hne i hmem .refl
        · exact Nat.not_lt_of_le hge hi
      refine (Tree.get?_add_of_not_mem new (hsize i hi) hshape.fits hmem).trans ?_
      exact hrecast.frame i hi fun child hchild hreach => absurd hreach (hne child hchild)
    ranges := by rw [List.map_singleton, List.map_singleton, hrange]
    fresh := fun other hmem => by
      rw [List.mem_singleton] at hmem
      exact .inr (hmem ▸ hrecast.size)
    values := fun _ other hmem => by
      rw [List.mem_singleton] at hmem
      exact hmem ▸ ⟨_, hface, htype⟩
    owned := fun lo hlo hown other hmem => by
      rw [List.mem_singleton] at hmem
      subst hmem
      refine Tree.owned_add hrecast.good.tree hshape (by rw [hchildren]) hlaid ?_
        (Nat.le_trans hlo hrecast.size)
      refine hrecast.owned lo hlo fun child hchild p hp => ?_
      exact hown id (by simp) p ((hbelow child hchild).trans hp)
    covered := fun first hfirst i hreach => by
      obtain rfl := List.mem_singleton.mp hfirst
      rcases Relation.ReflTransGen.cases_head hreach with rfl | ⟨child, hchild, hrest⟩
      · -- The new node stands for the old one.
        refine ⟨s₁.tree.size, by simp, s₁.tree.size, .refl, .inr ?_⟩
        have hold := (hrecast.faces first hid).trans (Tree.face?_of_get? hget)
        have hold' := (Tree.face?_add new (hsize first hid)).trans hold
        exact ⟨_, _, hface, hold', hpattern, rfl, rfl⟩
      · rw [Tree.Holds, Tree.children_of_get? hget] at hchild
        have hi : i < s.tree.size := Nat.lt_of_le_of_lt (h.tree.le_of_reaches hreach) hid
        exact Tree.covers_add hrecast.good.tree (fun _ hmem => hchildren ▸ hmem) hlt
          (hsize i hi) (hrecast.covered child hchild i hrest)
    added := fun i hi hnew => by
      by_cases hlast : i = s₁.tree.size
      · subst hlast
        exact ⟨⟨_, by simp, .refl⟩, id, by simp, id, .refl, hrange⟩
      · have hi' := Tree.lt_size_of_lt_size_add hnew hlast
        obtain ⟨⟨child, hchild, hreach⟩, old, hmem, j, hj, hsame⟩ := hrecast.added i hi hi'
        have hholds : (s₁.tree.add new).2.Holds s₁.tree.size child := by
          rwa [Tree.Holds, Tree.children_add_self, hchildren]
        refine ⟨⟨s₁.tree.size, by simp, .head hholds ?_⟩, id, by simp, j, (hbelow old hmem).trans hj,
          ?_⟩
        · exact (hrecast.good.tree.reaches_add new (hlt child hchild)).mpr hreach
        · rw [Tree.range?, Tree.face?_add new hi']
          exact hsame }

/-! ## Literals as patterns -/

def Recaster (text : List Char) (target : NodeId → Parser NodeId) : Prop :=
  ∀ {c s id}, Good text s → Run (target id) c s fun id' s' => Recasts text s [id] [id'] s'

theorem exists_slot {node : Node} (field : Field) (hfits : node.slots.length = 1)
    (hindex : node.kind.fieldIndex? field = some 0) :
    ∃ slot, node.slot? field = some slot ∧ node.slots = [slot] := by
  obtain ⟨slot, hslots⟩ := List.length_eq_one_iff.mp hfits
  exact ⟨slot, by simp [Node.slot?, hindex, hslots], hslots⟩

theorem patternElement_recaster {target : NodeId → Parser NodeId} (htarget : Recaster text target) :
    Recaster text (patternElement target) := by
  intro c s id h
  simp only [patternElement, run_bind, run_steps]
  cases hget : s.tree.get? id with
  | none => exact run_failTarget.mpr trivial
  | some node =>
      have hnode := h.tree.node hget
      have hfits := hnode.fits
      have hneeded := hnode.needed
      simp only
      split
      · rename_i hkind
        rw [hkind] at hfits hneeded
        obtain ⟨slot, hslot, hslots⟩ := exists_slot .argument hfits (by rw [hkind]; decide)
        simp only [hslot, Option.bind_some]
        cases slot with
        | node argument =>
            have hchildren : node.children = [argument] := by simp [Node.children, hslots]
            rw [hslots] at hneeded
            simp only [Slot.node?, run_bind]
            refine (htarget h).mono fun argument' s₁ h₁ => ?_
            exact run_rebuild h hget (hchildren ▸ h₁) rfl rfl (by rw [hkind]; decide)
              (by rw [hkind]; rfl) (by simp) (h₁.values hneeded)
        | absent => exact run_failTarget.mpr trivial
        | list _ => exact run_failTarget.mpr trivial
      · rename_i hkind
        have hadmits := hnode.admitted
        rw [hkind] at hadmits hneeded
        simp only [run_ite]
        split
        · exact run_rebuild h hget (.refl h _) rfl hadmits (by rw [hkind]; decide)
            (by rw [hkind]; rfl) hnode.lists hneeded
        · exact htarget h
      · exact run_pure.mpr (.refl h _)
      · exact htarget h

theorem patternProperty_recaster {target : NodeId → Parser NodeId}
    (htarget : Recaster text target) : Recaster text (patternProperty target) := by
  intro c s id h
  simp only [patternProperty, run_bind, run_steps]
  cases hget : s.tree.get? id with
  | none => exact run_failTarget.mpr trivial
  | some node =>
      have hnode := h.tree.node hget
      have hfits := hnode.fits
      have hneeded := hnode.needed
      simp only
      split
      · exact patternElement_recaster htarget h
      · rename_i hkind
        rw [hkind] at hfits hneeded
        obtain ⟨key, slot, hslots⟩ := List.length_eq_two.mp hfits
        have hkey : node.slot? .key = some key := by
          have hindex : node.kind.fieldIndex? .key = some 0 := by rw [hkind]; decide
          simp [Node.slot?, hindex, hslots]
        have hvalue : node.slot? .value = some slot := by
          have hindex : node.kind.fieldIndex? .value = some 1 := by rw [hkind]; decide
          simp [Node.slot?, hindex, hslots]
        simp only [run_ite, run_bind, hkey, hvalue, Option.bind_some, Option.getD_some]
        split
        · simp only [run_failTarget]
        · cases slot with
          | node value =>
              have hchildren : node.children = key.children ++ [value] := by
                simp [Node.children, hslots]
              have hlaid := h.tree.laid_children hget (by rw [hkind]; rfl)
              have hadmits := hnode.admitted
              have hlists := hnode.lists
              rw [hchildren] at hlaid
              rw [hkind, hslots] at hadmits
              rw [hslots] at hneeded hlists
              simp only [Slot.node?, run_bind]
              refine (patternElement_recaster htarget h).mono fun value' s₁ h₁ => ?_
              have hrecast := (Recasts.refl h key.children).trans h hlaid h₁
              refine run_rebuild h hget (hchildren ▸ hrecast) (by simp) hadmits
                (by rw [hkind]; decide) (by rw [hkind]; rfl) ?_ (h₁.values hneeded)
              simp only [List.mem_cons, List.not_mem_nil, or_false, forall_eq_or_imp, forall_eq,
                Tree.within_node, and_true] at hlists ⊢
              refine hlists.congr fun child hchild => h₁.faces child ?_
              obtain ⟨face, hface, -⟩ := hlaid.face? (List.mem_append_left _ hchild)
              exact Tree.lt_size_of_face? hface
          | absent => exact run_failTarget.mpr trivial
          | list _ => exact run_failTarget.mpr trivial
      · exact run_failTarget.mpr trivial

/-- Elements of a literal, one after the other; holes stay where they are. -/
theorem run_recastAll {f : Option NodeId → Parser (Option NodeId)} {nodes : List (Option NodeId)}
    {hi lo : Nat} (hnone : ∀ c s, Run (f none) c s fun r s' => r = none ∧ s' = s)
    (hsome : ∀ {c s id}, Good text s →
      Run (f (some id)) c s fun r s' => ∃ id', r = some id' ∧ Recasts text s [id] [id'] s')
    (h : Good text s) (hlaid : s.tree.Laid hi lo (nodes.filterMap id)) :
    Run (nodes.mapM f) c s fun nodes' s' =>
      Recasts text s (nodes.filterMap id) (nodes'.filterMap id) s' := by
  induction nodes generalizing s lo with
  | nil => exact run_pure.mpr (.refl h _)
  | cons node nodes ih =>
      simp only [List.mapM_cons, run_bind, run_pure]
      cases node with
      | none =>
          refine (hnone c s).mono ?_
          rintro _ _ ⟨rfl, rfl⟩
          exact (ih h hlaid).mono fun nodes' s' h' => h'
      | some id =>
          have hall : s.tree.Laid hi lo ([id] ++ nodes.filterMap (·)) := hlaid
          refine (hsome h).mono ?_
          rintro _ s₁ ⟨id', rfl, h₁⟩
          have hrest : s₁.tree.Laid hi lo (nodes.filterMap (·)) := by
            refine (hall.sublist (List.sublist_append_right _ _)).congr fun child hchild => ?_
            obtain ⟨face, hface, -⟩ := hall.face? (List.mem_append_right _ hchild)
            exact h₁.faces child (Tree.lt_size_of_face? hface)
          exact (ih h₁.good hrest).mono fun nodes' s₂ h₂ => h₁.trans h hall h₂

/-- A literal whose only field is a list becomes a pattern with that list. -/
theorem run_recastLiteral {id : NodeId} {node : Node} {items : NodeList} {kind : NodeKind}
    {f : Option NodeId → Parser (Option NodeId)} (h : Good text s)
    (hget : s.tree.get? id = some node) (hslots : node.slots = [.list items])
    (hkind : (node.kind.isOrdinary && kind.isPlain && !kind.isTypeOnly) = true)
    (hpattern : node.kind.pattern? = some kind)
    (hneeds : node.kind.needed node.slots = node.children)
    (hadmits : ∀ items, kind.admits [.list items])
    (hnone : ∀ c s, Run (f none) c s fun r s' => r = none ∧ s' = s)
    (hsome : ∀ {c s id}, Good text s →
      Run (f (some id)) c s fun r s' => ∃ id', r = some id' ∧ Recasts text s [id] [id'] s') :
    Run (do rebuild node kind {} [.list { items with nodes := ← items.nodes.mapM f }]) c s
      fun id' s' => Recasts text s [id] [id'] s' := by
  have hnode := h.tree.node hget
  have hchildren : node.children = items.nodes.filterMap (·) := by
    simp [Node.children, hslots, Slot.children]
  have hordinary : node.kind.isOrdinary := by
    simp only [Bool.and_eq_true] at hkind
    exact hkind.1.1
  have hlaid := h.tree.laid_children hget hordinary
  have hlists := hnode.lists (.list items) (by simp [hslots])
  rw [hchildren] at hlaid
  rw [run_bind]
  refine (run_recastAll hnone hsome h hlaid).mono fun nodes' s₁ h₁ => ?_
  refine run_rebuild h hget (hchildren ▸ h₁) (by simp) (hadmits _) hkind hpattern ?_ ?_
  · simp only [List.mem_singleton, forall_eq]
    exact hlists.of_ranges h₁.ranges
  · intro child hchild
    refine h₁.values (fun old hold => ?_) child (by simpa using NodeKind.mem_of_mem_needed hchild)
    exact hnode.needed old (by rwa [hneeds, hchildren])

theorem assignmentTargetWithin_recaster (bound : Nat) :
    Recaster text (assignmentTargetWithin bound) := by
  induction bound with
  | zero =>
      intro c s id _
      exact run_failTarget.mpr trivial
  | succ bound ih =>
      intro c s id h
      simp only [assignmentTargetWithin, run_bind, run_steps]
      cases hget : s.tree.get? id with
      | none => exact run_failTarget.mpr trivial
      | some node =>
          have hnode := h.tree.node hget
          simp only
          split
          · exact run_pure.mpr (.refl h _)
          · exact run_pure.mpr (.refl h _)
          · exact run_pure.mpr (.refl h _)
          · exact run_pure.mpr (.refl h _)
          · rename_i hkind
            have hfits := hnode.fits
            rw [hkind] at hfits
            obtain ⟨slot, hslot, hslots⟩ :=
              exists_slot .properties hfits (by rw [hkind]; decide)
            simp only [hslot, Option.bind_some]
            cases slot with
            | list items =>
                refine run_recastLiteral h hget hslots (by rw [hkind]; decide)
                  (by rw [hkind]; rfl) (by rw [Node.children, hkind, hslots]; rfl) (fun _ => rfl)
                  ?_ ?_
                · intro c s
                  exact run_failTarget.mpr trivial
                · intro c s id hid
                  exact run_map.mpr ((patternProperty_recaster ih hid).mono fun _ _ h => ⟨_, rfl, h⟩)
            | absent => exact run_failTarget.mpr trivial
            | node _ => exact run_failTarget.mpr trivial
          · rename_i hkind
            have hfits := hnode.fits
            rw [hkind] at hfits
            obtain ⟨slot, hslot, hslots⟩ :=
              exists_slot .elements hfits (by rw [hkind]; decide)
            simp only [hslot, Option.bind_some]
            cases slot with
            | list items =>
                refine run_recastLiteral h hget hslots (by rw [hkind]; decide)
                  (by rw [hkind]; rfl) (by rw [Node.children, hkind, hslots]; rfl) (fun _ => rfl)
                  ?_ ?_
                · intro c s
                  exact run_pure.mpr ⟨rfl, rfl⟩
                · intro c s id hid
                  exact run_map.mpr ((patternElement_recaster ih hid).mono fun _ _ h => ⟨_, rfl, h⟩)
            | absent => exact run_failTarget.mpr trivial
            | node _ => exact run_failTarget.mpr trivial
          · exact run_failTarget.mpr trivial

/-- A target takes the place of the expression it was read as. -/
theorem run_assignmentTarget {id : NodeId} (h : Yields text true s₀ [id] s) :
    Run (assignmentTarget id) c s fun id' s' =>
      Yields text true s₀ [id'] s' ∧ s'.lexer = s.lexer := by
  refine (assignmentTargetWithin_recaster (id + 1) h.good).mono fun id' s' h' => ?_
  exact ⟨⟨h'.builds h.toBuilds, fun hv => h'.values (h.values hv)⟩, h'.lexer⟩

end Grammar

end FlowErasure
