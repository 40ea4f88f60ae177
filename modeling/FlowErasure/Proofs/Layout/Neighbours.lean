import FlowErasure.Proofs.Erasure.Gaps
import FlowErasure.Proofs.Grammar.TokenRanges
import FlowErasure.Proofs.Layout.Edits

/-!
# Survivors beside removed regions

A removed region lies in the node it is removed at, and beside every child that survives. So of every
survivor it lies either inside, removed at the survivor or below it, or beside.
-/

namespace FlowErasure

open Text Erasure

def Beside (a b : Nat × Nat) : Prop :=
  a.2 ≤ b.1 ∨ b.2 ≤ a.1

theorem Beside.symm {a b : Nat × Nat} (h : Beside a b) : Beside b a :=
  Or.symm h

theorem Beside.mono {a b b' : Nat × Nat} (h : Beside a b) (hstart : b.1 ≤ b'.1)
    (hstop : b'.2 ≤ b.2) : Beside a b' :=
  h.imp (·.trans hstart) hstop.trans

namespace Layout

variable {text : List Char} {lo hi : Nat} {ranges : List (Nat × Nat)} {range : Nat × Nat}

/-- Where a chain is cut, what comes before is beside what comes after. -/
theorem beside_of_chain {mid : Nat} {range' : Nat × Nat} (h : Chain text mid lo [range])
    (h' : Chain text hi mid [range']) : Beside range range' :=
  .inl (h.2.2.1.trans h'.1)

/-! ## Fields -/

section

variable {tree : Tree} {kind : NodeKind} {spec : FieldSpec} {slot : Slot} {child : NodeId}
  {node : Node}

theorem rangesIn_of_ne (h : spec.field ≠ .implements) :
    tree.rangesIn spec slot = slot.children.filterMap tree.range? := by
  cases slot <;> simp [Tree.rangesIn, h]

/-- A list that is not cleared is no clause of interfaces. -/
theorem ne_implements (hspec : spec ∈ kind.schema)
    (hstrips : Rules.standard.strips kind spec.field = false) : spec.field ≠ .implements := by
  intro heq
  simp [strips_implements hspec heq] at hstrips

theorem map_some_filterMap {handles : List Handle} (h : none ∉ handles) :
    (handles.filterMap id).map some = handles := by
  induction handles with
  | nil => rfl
  | cons handle handles ih =>
      cases handle with
      | none => simp at h
      | some child => simpa using ih fun hmem => h (List.mem_cons_of_mem _ hmem)

/-- Elements of a list that are removed together stand between the elements before and after them. -/
theorem exists_chain_run {front run back : List Handle} (hnone : none ∉ run)
    (hspans : Spans tree run range) (hle : lo ≤ hi)
    (hchain : Chain text hi lo
      (((front ++ run ++ back).filterMap id).filterMap tree.range?)) :
    ∃ mid mid', Chain text mid lo ((front.filterMap id).filterMap tree.range?) ∧
      Chain text mid' mid [range] ∧
      Chain text hi mid' ((back.filterMap id).filterMap tree.range?) ∧ lo ≤ mid ∧ mid' ≤ hi := by
  simp only [List.filterMap_append] at hchain
  obtain ⟨mid', hlo, hhi, hchain, hback⟩ := exists_chain_append hchain hle
  obtain ⟨mid, hmid, -, hfront, hrun⟩ := exists_chain_append hchain hlo
  rw [← map_some_filterMap hnone] at hspans
  exact ⟨mid, mid', hfront, chain_of_spans hspans hrun, hback, hmid, hhi⟩

/-- What is removed from a field stands in the place of the field. -/
theorem chain_of_removedIn (hspec : spec ∈ kind.schema) (haccepts : spec.accepts slot)
    (h : RemovedIn .standard tree kind spec slot range) (hle : lo ≤ hi)
    (hchain : Chain text hi lo (tree.rangesIn spec slot)) : Chain text hi lo [range] := by
  cases h with
  | field hget _ => simpa [Tree.rangesIn, Slot.children, range?_of_get? hget] using hchain
  | clause hstrips =>
      have hshape : spec.shape ≠ .node := by simpa [FieldSpec.accepts] using haccepts
      have hfield := field_of_strips hspec hstrips hshape
      simpa [Tree.rangesIn, hfield] using hchain
  | @run items run range hstrips _ hrun hspans =>
      obtain ⟨front, back, hnodes, -, hdeleted, -⟩ := hrun
      have hnone : none ∉ run := fun hmem => Bool.false_ne_true (hdeleted none hmem)
      rw [rangesIn_of_ne (ne_implements hspec hstrips), Slot.children, hnodes] at hchain
      obtain ⟨mid, mid', -, hmiddle, -, hlo, hhi⟩ := exists_chain_run hnone hspans hle hchain
      exact hmiddle.mono hlo hhi

theorem mem_children_of_keptOf {rules : Rules} (h : child ∈ (keptOf rules tree slot).children) :
    child ∈ slot.children ∧ isDeleted rules tree (some child) = false := by
  cases slot with
  | absent => simp [keptOf, Slot.children] at h
  | node id =>
      by_cases hdeleted : isDeleted rules tree (some id)
      · simp [keptOf, hdeleted, Slot.children] at h
      · simp only [keptOf, hdeleted] at h
        obtain rfl : child = id := by simpa [Slot.children] using h
        exact ⟨by simp [Slot.children], by simpa using hdeleted⟩
  | list items =>
      obtain ⟨handle, hmem, hchild⟩ := List.mem_filterMap.mp h
      obtain rfl : handle = some child := hchild
      obtain ⟨hmem, hkept⟩ := List.mem_filter.mp hmem
      exact ⟨List.mem_filterMap.mpr ⟨_, hmem, rfl⟩, by simpa using hkept⟩

theorem mem_ranges (hget : tree.get? child = some node) {handles : List Handle}
    (h : some child ∈ handles) :
    (node.start, node.stop) ∈ (handles.filterMap id).filterMap tree.range? :=
  List.mem_filterMap.mpr ⟨child, List.mem_filterMap.mpr ⟨_, h, rfl⟩, range?_of_get? hget⟩

theorem mem_rangesIn (hspec : spec ∈ kind.schema)
    (hstrips : Rules.standard.strips kind spec.field = false) (hget : tree.get? child = some node)
    (hchild : child ∈ (keptOf .standard tree slot).children) :
    (node.start, node.stop) ∈ tree.rangesIn spec slot := by
  rw [rangesIn_of_ne (ne_implements hspec hstrips)]
  exact List.mem_filterMap.mpr ⟨child, (mem_children_of_keptOf hchild).1, range?_of_get? hget⟩

/-- What is removed from a field is beside the children that remain in it. -/
theorem beside_of_removedIn (hspec : spec ∈ kind.schema)
    (hstrips : Rules.standard.strips kind spec.field = false)
    (h : RemovedIn .standard tree kind spec slot range) (hget : tree.get? child = some node)
    (hchild : child ∈ (keptOf .standard tree slot).children) (hle : lo ≤ hi)
    (hchain : Chain text hi lo (tree.rangesIn spec slot)) :
    Beside range (node.start, node.stop) := by
  obtain ⟨hmem, hkept⟩ := mem_children_of_keptOf hchild
  cases h with
  | @field id other hget' hremoved =>
      obtain rfl : child = id := by simpa [Slot.children] using hmem
      obtain rfl := Option.some.inj (hget.symm.trans hget')
      simp [isDeleted, Tree.lookup?, hget, hremoved.resolve_left (by simp [hstrips])] at hkept
  | clause hstrips' => simp [hstrips] at hstrips'
  | @run items run range _ _ hrun hspans =>
      obtain ⟨front, back, hnodes, -, hdeleted, -⟩ := hrun
      have hnone : none ∉ run := fun hmem => Bool.false_ne_true (hdeleted none hmem)
      rw [rangesIn_of_ne (ne_implements hspec hstrips), Slot.children, hnodes] at hchain
      obtain ⟨mid, mid', hfront, hmiddle, hback, -, -⟩ := exists_chain_run hnone hspans hle hchain
      obtain ⟨handle, hhandle, hsome⟩ := List.mem_filterMap.mp hmem
      obtain rfl : handle = some child := hsome
      rw [hnodes, List.mem_append, List.mem_append] at hhandle
      rcases hhandle with (hhandle | hhandle) | hhandle
      · exact (beside_of_chain (hfront.of_mem (mem_ranges hget hhandle)) hmiddle).symm
      · simp [hdeleted _ hhandle] at hkept
      · exact beside_of_chain hmiddle (hback.of_mem (mem_ranges hget hhandle))

end

/-! ## Nodes -/

section

variable {tree : Tree} {kind : NodeKind} {id child : NodeId} {node other : Node}
  {fields : List (FieldSpec × Slot)}

/-- What is removed from one of some fields stands in their place. -/
theorem chain_of_removed
    (hspecs : ∀ field ∈ fields, field.1 ∈ kind.schema ∧ field.1.accepts field.2)
    (h : ∃ field ∈ fields, RemovedIn .standard tree kind field.1 field.2 range) (hle : lo ≤ hi)
    (hchain : Chain text hi lo (fields.flatMap fun field => tree.rangesIn field.1 field.2)) :
    Chain text hi lo [range] := by
  induction fields generalizing lo with
  | nil => simp at h
  | cons field fields ih =>
      obtain ⟨mid, hlo, hhi, hfront, hback⟩ := exists_chain_append hchain hle
      obtain ⟨removed, hmem, hremoved⟩ := h
      rcases List.mem_cons.mp hmem with rfl | hmem
      · obtain ⟨hspec, haccepts⟩ := hspecs removed List.mem_cons_self
        exact (chain_of_removedIn hspec haccepts hremoved hlo hfront).mono (Nat.le_refl _) hhi
      · have hrest := ih (fun other hother => hspecs other (List.mem_cons_of_mem _ hother))
          ⟨removed, hmem, hremoved⟩ hhi hback
        exact hrest.mono hlo (Nat.le_refl _)

theorem beside_of_removed
    (hspecs : ∀ field ∈ fields, field.1 ∈ kind.schema ∧ field.1.accepts field.2)
    (h : ∃ field ∈ fields, RemovedIn .standard tree kind field.1 field.2 range)
    (hchild : ∃ field ∈ fields, Rules.standard.strips kind field.1.field = false ∧
      child ∈ (keptOf .standard tree field.2).children)
    (hget : tree.get? child = some other) (hle : lo ≤ hi)
    (hchain : Chain text hi lo (fields.flatMap fun field => tree.rangesIn field.1 field.2)) :
    Beside range (other.start, other.stop) := by
  induction fields generalizing lo with
  | nil => simp at h
  | cons field fields ih =>
      obtain ⟨mid, hlo, hhi, hfront, hback⟩ := exists_chain_append hchain hle
      obtain ⟨removed, hmem, hremoved⟩ := h
      obtain ⟨kept, hmem', hstrips, hkept⟩ := hchild
      have hspecs' := fun other hother => hspecs other (List.mem_cons_of_mem field hother)
      rcases List.mem_cons.mp hmem with rfl | hin <;> rcases List.mem_cons.mp hmem' with rfl | hin'
      · exact beside_of_removedIn (hspecs _ List.mem_cons_self).1 hstrips hremoved hget hkept hlo hfront
      · obtain ⟨hspec, haccepts⟩ := hspecs removed List.mem_cons_self
        have hrange := mem_rangesIn (hspecs' _ hin').1 hstrips hget hkept
        exact beside_of_chain (chain_of_removedIn hspec haccepts hremoved hlo hfront)
          (hback.of_mem (List.mem_flatMap.mpr ⟨kept, hin', hrange⟩))
      · have hrange := mem_rangesIn (hspecs kept List.mem_cons_self).1 hstrips hget hkept
        exact (beside_of_chain (hfront.of_mem hrange)
          (chain_of_removed hspecs' ⟨removed, hin, hremoved⟩ hhi hback)).symm
      · exact ih hspecs' ⟨removed, hin, hremoved⟩ ⟨kept, hin', hstrips, hkept⟩ hhi hback

theorem mem_keptChildren_iff (hfits : node.slots.length = node.kind.schema.length) :
    child ∈ keptChildren .standard tree node ↔ ∃ field ∈ node.fields,
      Rules.standard.strips node.kind field.1.field = false ∧
        child ∈ (keptOf .standard tree field.2).children := by
  have hslot : ∀ field : FieldSpec × Slot,
      child ∈ (if Rules.standard.strips node.kind field.1.field then Slot.absent
        else keptOf .standard tree field.2).children ↔
      Rules.standard.strips node.kind field.1.field = false ∧
        child ∈ (keptOf .standard tree field.2).children := by
    intro field
    split <;> simp_all [Slot.children]
  simp only [keptChildren, ← map_snd_erasedFields hfits, erasedFields, List.flatMap_map,
    List.mem_flatMap, hslot]

/-- The pieces of a template stay. -/
theorem kind_of_removedAt (hshape : NodeShape text tree id node)
    (h : RemovedAt .standard tree node range) : node.kind ≠ .templateLiteral := by
  intro htemplate
  obtain ⟨spec, slot, hfield, hremoved⟩ := h
  have haccepts := hshape.accepts hfield
  have hspec := (List.of_mem_zip hfield).1
  rw [htemplate] at hspec hremoved
  simp only [NodeKind.schema, List.mem_cons, List.not_mem_nil, or_false] at hspec
  rcases hspec with rfl | rfl <;> cases hremoved <;> simp_all [FieldSpec.accepts] <;> contradiction

section

variable (hshape : NodeShape text tree id node) (hle : node.start ≤ node.stop)
  (h : RemovedAt .standard tree node range)

include hshape hle h

theorem chain_of_removedAt : Chain text node.stop node.start [range] := by
  have hchain := hshape.ranges (kind_of_removedAt hshape h)
  obtain ⟨spec, slot, hfield, hremoved⟩ := h
  exact chain_of_removed (fun field hmem => ⟨(List.of_mem_zip hmem).1, hshape.accepts hmem⟩)
    ⟨_, hfield, hremoved⟩ hle hchain

theorem beside_of_removedAt (hchild : child ∈ keptChildren .standard tree node)
    (hget : tree.get? child = some other) : Beside range (other.start, other.stop) := by
  have hchain := hshape.ranges (kind_of_removedAt hshape h)
  obtain ⟨spec, slot, hfield, hremoved⟩ := h
  exact beside_of_removed (fun field hmem => ⟨(List.of_mem_zip hmem).1, hshape.accepts hmem⟩)
    ⟨_, hfield, hremoved⟩ ((mem_keptChildren_iff hshape.fits).mp hchild) hget hle hchain

end

end

/-! ## Trees -/

section

variable {tree : Tree} {root id child : NodeId} {node other : Node}

theorem liesIn_of_mem_kept (hread : tree.ReadFrom text root) (hget : tree.get? id = some node)
    (hmem : child ∈ keptChildren .standard tree node) :
    tree.LiesIn node.start node.stop child := by
  have hholds := holds_of_mem_erasedSlots hget hmem
  rw [Tree.Holds, Tree.children_of_get? hget] at hholds
  exact (Tree.nests_of_shape (hread.shape hget)).inside child hholds

theorem inside_of_survives (hread : tree.ReadFrom text root)
    (hid : Survives .standard tree id child) (hget : tree.get? id = some node)
    (hchild : tree.get? child = some other) :
    node.start ≤ other.start ∧ other.stop ≤ node.stop := by
  induction hid generalizing other with
  | root =>
      obtain rfl := Option.some.inj (hget.symm.trans hchild)
      exact ⟨Nat.le_refl _, Nat.le_refl _⟩
  | child _ hparent hmem _ ih =>
      obtain ⟨hstart, hstop⟩ := ih hparent
      obtain ⟨found, hfound, hstart', hstop'⟩ := liesIn_of_mem_kept hread hparent hmem
      obtain rfl := Option.some.inj (hchild.symm.trans hfound)
      exact ⟨hstart.trans hstart', hstop'.trans hstop⟩

theorem inside_of_removed (hread : tree.ReadFrom text root) (hget : tree.get? id = some node)
    (h : Removed .standard tree id range) :
    node.start ≤ range.1 ∧ range.1 < range.2 ∧ range.2 ≤ node.stop := by
  obtain ⟨child, other, hid, hchild, hremoved⟩ := h
  obtain ⟨hstart, hstop⟩ := inside_of_survives hread hid hget hchild
  obtain ⟨hge, hlt, hle, -⟩ :=
    chain_of_removedAt (hread.shape hchild) (hread.start_le hchild) hremoved
  exact ⟨hstart.trans hge, hlt, hle.trans hstop⟩

/-- Two children of a node that survive are beside each other. -/
theorem beside_of_mem_kept (hread : tree.ReadFrom text root) (hget : tree.get? id = some node)
    {a b : NodeId} {first second : Node} (ha : a ∈ keptChildren .standard tree node)
    (hb : b ∈ keptChildren .standard tree node) (hne : a ≠ b) (hfirst : tree.get? a = some first)
    (hsecond : tree.get? b = some second) :
    Beside (first.start, first.stop) (second.start, second.stop) := by
  obtain ⟨ids, hperm, hlaid⟩ := (hread.shape hget).laid
  have hin : ∀ child ∈ keptChildren .standard tree node, child ∈ ids := by
    intro child hchild
    have hholds := holds_of_mem_erasedSlots hget hchild
    rw [Tree.Holds, Tree.children_of_get? hget] at hholds
    exact hperm.mem_iff.mpr hholds
  obtain ⟨face, face', hface, hface', hapart⟩ := hlaid.apart (hin a ha) (hin b hb) hne
  obtain rfl := Option.some.inj ((Tree.face?_of_get? hfirst).symm.trans hface)
  obtain rfl := Option.some.inj ((Tree.face?_of_get? hsecond).symm.trans hface')
  exact hapart

/-- What is removed from a tree is removed at a survivor or below it, or beside it. -/
theorem removed_or_beside (hread : tree.ReadFrom text root) (hid : Survives .standard tree root id)
    (hget : tree.get? id = some node) (h : Removed .standard tree root range) :
    Removed .standard tree id range ∨ Beside range (node.start, node.stop) := by
  induction hid generalizing node with
  | root => exact .inl h
  | @child parent id above hparent habove hmem _ ih =>
      obtain ⟨found, hfound, hstart, hstop⟩ := liesIn_of_mem_kept hread habove hmem
      obtain rfl := Option.some.inj (hget.symm.trans hfound)
      rcases ih habove with hremoved | hbeside
      · rcases (removed_iff habove).mp hremoved with hat | ⟨sibling, hsibling, hbelow⟩
        · exact .inr (beside_of_removedAt (hread.shape habove) (hread.start_le habove) hat hmem hget)
        · by_cases heq : sibling = id
          · exact .inl (heq ▸ hbelow)
          · obtain ⟨other, hother, -⟩ := liesIn_of_mem_kept hread habove hsibling
            have hbeside := beside_of_mem_kept hread habove hmem hsibling (Ne.symm heq) hget hother
            obtain ⟨hge, -, hle⟩ := inside_of_removed hread hother hbelow
            exact .inr (hbeside.mono hge hle).symm
      · exact .inr (hbeside.mono hstart hstop)

/-! ## Gaps -/

variable {a b : NodeId} {before after : Node}

/-- Both sides of a gap are surviving children of one node. -/
theorem exists_kept_of_gap (hread : tree.ReadFrom text root)
    (h : Gap .standard tree root a b range) :
    ∃ id node, Survives .standard tree root id ∧ tree.get? id = some node ∧
      a ∈ keptChildren .standard tree node ∧ b ∈ keptChildren .standard tree node := by
  obtain ⟨id, node, hid, hget, spec, items, hfield, hshape, hgap⟩ := h
  have hkept : ∀ child, some child ∈ items.nodes.filter (!isDeleted .standard tree ·) →
      child ∈ keptChildren .standard tree node := by
    intro child hchild
    have hstrips := strips_of_block (List.of_mem_zip hfield).1 hshape
    exact (mem_keptChildren_iff (hread.shape hget).fits).mpr
      ⟨_, hfield, hstrips, List.mem_filterMap.mpr ⟨_, hchild, rfl⟩⟩
  obtain ⟨ha, hb⟩ := hgap.mem_kept
  exact ⟨id, node, hid, hget, hkept a ha, hkept b hb⟩

/-- A surviving child of a survivor survives, and it reaches from a token to a token. -/
theorem survives_and_sound (hread : tree.ReadFrom text root)
    (hid : Survives .standard tree root id) (hget : tree.get? id = some node)
    (hmem : child ∈ keptChildren .standard tree node) (hchild : tree.get? child = some other) :
    Survives .standard tree root child ∧ NodeSound text tree child other :=
  ⟨.child hid hget hmem (by simp [hchild]),
    hread.sound hchild (hread.ne_root_of_holds (holds_of_mem_erasedSlots hget hmem))⟩

theorem between_of_gap (hread : tree.ReadFrom text root) (hbefore : tree.get? a = some before)
    (hafter : tree.get? b = some after) (h : Gap .standard tree root a b range) :
    before.stop ≤ range.1 ∧ range.2 ≤ after.start := by
  obtain ⟨id, node, -, hget, hgap⟩ := h
  have hkind := kind_of_removedAt (hread.shape hget) hgap.removedAt
  obtain ⟨spec, items, hfield, -, front, run, back, hnodes, -, -, -, -, hspans⟩ := hgap
  obtain ⟨x, y, first, last, hx, hy, hfirst, hlast, rfl⟩ := hspans
  have hsublist : (Slot.list items).children.Sublist node.children :=
    List.sublist_flatten_of_mem (List.mem_map_of_mem (List.of_mem_zip hfield).2)
  have hordered := ((Tree.nests_of_shape (hread.shape hget)).inOrder hkind).sublist hsublist
  rw [Slot.children, List.pairwise_filterMap, hnodes] at hordered
  obtain ⟨-, hordered, -⟩ := List.pairwise_append.mp hordered
  obtain ⟨hfront, hordered⟩ := List.pairwise_cons.mp hordered
  obtain ⟨-, -, hback⟩ := List.pairwise_append.mp hordered
  obtain ⟨before', first', hbefore', hfirst', hstop⟩ :=
    hfront (some x) (List.mem_append_left _ (List.mem_of_head? hx)) a rfl x rfl
  obtain ⟨last', after', hlast', hafter', hstart⟩ :=
    hback (some y) (List.mem_of_getLast? hy) (some b) List.mem_cons_self y rfl b rfl
  obtain rfl := Option.some.inj (hbefore.symm.trans hbefore')
  obtain rfl := Option.some.inj (hfirst.symm.trans hfirst')
  obtain rfl := Option.some.inj (hlast.symm.trans hlast')
  obtain rfl := Option.some.inj (hafter.symm.trans hafter')
  exact ⟨hstop, hstart⟩

end

end Layout

end FlowErasure
