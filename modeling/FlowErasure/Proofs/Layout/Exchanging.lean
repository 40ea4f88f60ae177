import FlowErasure.Proofs.Layout.Dropping
import FlowErasure.Proofs.Syntax.Rising

/-!
# Exchanging a node

A node may be put in the place of another one. It then stands in two places, and knows the new one
only. What has changed is on the way from the root down to the place: each node on it is laid out
from its text with one edit, and everything else is copied.
-/

namespace FlowErasure

namespace Tree

variable {text : List Char} {t₀ tree : Tree} {root n i : NodeId}

/-- The way up from a node leads through what it can be reached from. It does so in every table in
which these nodes have the parents that they had when the text was read. -/
theorem rises_iff_reaches (h : t₀.ReadFrom text root) (hsize : tree.size = t₀.size)
    (hsame : ∀ i, t₀.Reaches i n → tree.parentId? i = t₀.parentId? i) (hn : t₀.Reaches root n)
    (hi : t₀.Reaches root i) : tree.Rises (tree.parentId? n) i ↔ i ≠ n ∧ t₀.Reaches i n := by
  have hle {a b : NodeId} (hab : t₀.Reaches a b) : b ≤ a :=
    le_of_reaches_of_lt (fun _ _ => h.lt_of_holds) hab
  induction hn with
  | refl =>
      -- Above the root there is nothing in the table.
      constructor
      · intro hrises
        rw [hsame root .refl] at hrises
        cases hparent : t₀.parentId? root with
        | none =>
            rw [hparent] at hrises
            exact absurd hrises (not_rises_none tree i)
        | some p =>
            have hlt : root < p := h.parent hparent
            have hnone : tree.get? p = none := by
              rw [get?, Array.getElem?_eq_none_iff]
              calc tree.size = root + 1 := hsize.trans h.size
                _ ≤ p := hlt
            rw [hparent, rises_some_iff, parentId?_eq_none hnone] at hrises
            rcases hrises with rfl | hrises
            · exact absurd (hle hi) (Nat.not_le_of_lt hlt)
            · exact absurd hrises (not_rises_none tree i)
      · rintro ⟨hne, hreach⟩
        exact absurd (Nat.le_antisymm (hle hi) (hle hreach)) hne
  | @tail p n hp hholds ih =>
      have hparent : tree.parentId? n = some p := by
        rw [hsame n .refl, h.parentId? hp hholds]
      have hup : tree.Rises (tree.parentId? p) i ↔ i ≠ p ∧ t₀.Reaches i p :=
        ih fun j hj => hsame j (hj.tail hholds)
      rw [hparent, rises_some_iff, hup]
      constructor
      · rintro (rfl | ⟨-, hreach⟩)
        · exact ⟨(Nat.ne_of_lt (h.lt_of_holds hholds)).symm, .single hholds⟩
        · refine ⟨?_, hreach.tail hholds⟩
          rintro rfl
          exact absurd (h.lt_of_holds hholds) (Nat.not_lt_of_le (hle hreach))
      · rintro ⟨hne, hreach⟩
        cases hreach with
        | refl => exact absurd rfl hne
        | @tail q _ hiq hqn =>
            obtain rfl : q = p := h.isTreeBelow.parent q p n (hi.trans hiq) hp hqn hholds
            by_cases heq : i = q
            · exact .inl heq
            · exact .inr ⟨heq, hiq⟩

end Tree

namespace Layout

open Text

variable {text cs ds : List Char} {tree : Tree} {source : Source}

/-! ## Fragments that only copy -/

inductive Copies (text : List Char) : List Fragment → List Char → Prop
  | nil : Copies text [] []
  | text {a b : Nat} {cs ds : List Char} {fragments : List Fragment} (h : Between text a cs b)
      (hrest : Copies text fragments ds) : Copies text (.text a b :: fragments) (cs ++ ds)

namespace Copies

variable {fragments fragments' : List Fragment}

theorem single {a b : Nat} (h : Between text a cs b) : Copies text [.text a b] cs := by
  simpa using Copies.text h .nil

theorem append (h : Copies text fragments cs) (h' : Copies text fragments' ds) :
    Copies text (fragments ++ fragments') (cs ++ ds) := by
  induction h with
  | nil => exact h'
  | text h _ ih =>
      rw [List.append_assoc]
      exact .text h ih

/-- Where nothing has been dropped, no separators are written. -/
theorem output_foldl_put (h : Copies text fragments cs) {output : Output}
    (hseparate : output.separate = false) :
    (fragments.foldl (Output.put (.ofText text)) output).writer.output =
      output.writer.output ++ cs := by
  induction h generalizing output with
  | nil => exact (List.append_nil _).symm
  | @text a b cs ds fragments hcs _ ih =>
      rw [List.foldl_cons, Output.put]
      by_cases hne : cs = []
      · subst hne
        obtain ⟨-, -, rfl⟩ := hcs
        rw [copy_of_le output _ (Nat.le_refl _), ih hseparate]
        rfl
      · obtain ⟨lead, hcopied, hsep, hlead, -⟩ := output_copy output hcs hne
        obtain rfl : lead = [] := hlead.resolve_right (by simp [hseparate])
        rw [ih hsep, hcopied]
        simp

end Copies

/-! ## Edits where little has changed -/

/-- A field that holds what it held lays out what has changed in it. -/
theorem editsOfField_same (kind : NodeKind) (spec : FieldSpec) (slot : Slot) :
    editsOfField source tree kind spec slot slot =
      .ok (slot.children.flatMap fun child => editOfKept tree (some child)) := by
  cases slot with
  | absent => rfl
  | node id => simp [editsOfField, Slot.children, pure, Except.pure]
  | list items =>
      have halign : alignList tree kind spec.field items.nodes items.nodes =
          .ok (items.nodes.flatMap (editOfKept tree), items.nodes.map fun old => (old, false)) := by
        simpa using @alignList_filter tree kind (fun _ => false) spec.field items.nodes
      have hruns : editsOfRuns source tree spec.shape none []
          (items.nodes.map fun old => (old, false)) = .ok [] :=
        editsOfRuns_nil fun _ _ => rfl
      simp only [editsOfField, editsOfList, halign, hruns, bind, Except.bind, pure, Except.pure,
        List.append_nil]
      rw [Slot.children, flatMap_filterMap_id]

theorem mapM_ok {α β ε : Type} {f : α → Except ε β} {g : α → β} {as : List α}
    (h : ∀ a ∈ as, f a = .ok (g a)) : as.mapM f = .ok (as.map g) := by
  induction as with
  | nil => rfl
  | cons a as ih =>
      rw [List.mapM_cons, h a List.mem_cons_self, ih fun b hb => h b (List.mem_cons_of_mem a hb)]
      rfl

theorem flatMap_eq_of_mem {α β : Type} {f : α → List β} {as : List α} {a : α} (hnodup : as.Nodup)
    (ha : a ∈ as) (h : ∀ b ∈ as, b ≠ a → f b = []) : as.flatMap f = f a := by
  obtain ⟨front, back, rfl⟩ := List.append_of_mem ha
  have hnone : ∀ bs : List α, (∀ b ∈ bs, b ∈ front ++ a :: back) → a ∉ bs → bs.flatMap f = [] := by
    intro bs hsub hnot
    rw [List.flatMap_eq_nil_iff]
    exact fun b hb => h b (hsub b hb) fun heq => hnot (heq ▸ hb)
  rw [List.nodup_middle, List.nodup_cons, List.mem_append, not_or] at hnodup
  rw [List.flatMap_append, List.flatMap_cons, hnone front (by simp +contextual) hnodup.1.1,
    hnone back (by simp +contextual) hnodup.1.2, List.nil_append, List.append_nil]

section

variable {node : Node}

theorem mapM_editsOfField_same (kind : NodeKind) (specs : List FieldSpec) (slots : List Slot) :
    (((specs.zip slots).zip slots).mapM fun ((spec, before), after) =>
        editsOfField source tree kind spec before after) =
      .ok ((specs.zip slots).map fun field =>
        field.2.children.flatMap fun child => editOfKept tree (some child)) := by
  have hself : (specs.zip slots).zip slots =
      (specs.zip slots).map fun field => (field, field.2) := by
    induction specs generalizing slots with
    | nil => rfl
    | cons spec specs ih =>
        cases slots with
        | nil => rfl
        | cons slot slots => exact congrArg (((spec, slot), slot) :: ·) (ih slots)
  rw [hself, List.mapM_map]
  exact mapM_ok fun field _ => editsOfField_same kind field.1 field.2

/-- A node whose slots are as they were lays out what has changed below it. -/
theorem editsOfNode_same (hfits : node.slots.length = node.kind.schema.length)
    (hbefore : node.before = none) :
    editsOfNode source tree node =
      .ok (node.children.flatMap fun child => editOfKept tree (some child)) := by
  have hslots : (node.kind.schema.zip node.slots).map Prod.snd = node.slots :=
    List.map_snd_zip (Nat.le_of_eq hfits)
  have hflat : node.children.flatMap (fun child => editOfKept tree (some child)) =
      ((node.kind.schema.zip node.slots).map fun field =>
        field.2.children.flatMap fun child => editOfKept tree (some child)).flatten := by
    rw [Node.children, List.flatMap_assoc, ← List.flatMap_def]
    nth_rewrite 1 [← hslots]
    rw [List.flatMap_map]
  rw [editsOfNode, hbefore, Option.getD_none, mapM_editsOfField_same, hflat]
  rfl

/-- At a node where one child has taken the place of another and nothing else has changed, the one
is laid out in the place of the other. -/
theorem editsOfNode_exchanged {front back : List Slot} {k m : NodeId} {held new : Node}
    (hfits : node.slots.length = node.kind.schema.length)
    (hslots : node.slots = front ++ .node m :: back)
    (hbefore : node.before = some (front ++ .node k :: back)) (hne : k ≠ m)
    (hk : tree.get? k = some held) (hm : tree.get? m = some new) (hspan : new.hasSpan)
    (hclean : ∀ slot ∈ front ++ back, ∀ child ∈ slot.children,
      editOfKept tree (some child) = []) :
    editsOfNode source tree node = .ok [⟨held.start, held.stop, .print m⟩] := by
  have hlt : front.length < node.kind.schema.length := by
    rw [← hfits, hslots, List.length_append, List.length_cons]
    omega
  obtain ⟨specs, spec, specs', hschema, hlength⟩ : ∃ specs spec specs',
      node.kind.schema = specs ++ spec :: specs' ∧ specs.length = front.length := by
    refine ⟨node.kind.schema.take front.length, node.kind.schema[front.length],
      node.kind.schema.drop (front.length + 1), ?_, List.length_take_of_le (Nat.le_of_lt hlt)⟩
    rw [← List.drop_eq_getElem_cons hlt, List.take_append_drop]
  have hnone : ∀ (specs : List FieldSpec) (slots : List Slot),
      (∀ slot ∈ slots, slot ∈ front ++ back) →
      ((specs.zip slots).map fun field =>
        field.2.children.flatMap fun child => editOfKept tree (some child)).flatten = [] := by
    intro specs slots hsub
    rw [← List.flatMap_def, List.flatMap_eq_nil_iff]
    rintro ⟨spec, slot⟩ hfield
    rw [List.flatMap_eq_nil_iff]
    exact hclean slot (hsub slot (List.of_mem_zip hfield).2)
  have hmiddle : editsOfField source tree node.kind spec (.node k) (.node m) =
      .ok [⟨held.start, held.stop, .print m⟩] := by
    simp [editsOfField, hne, editOfExchanged, require_some hk, require_some hm, hspan, bind,
      Except.bind, pure, Except.pure]
  rw [editsOfNode, hbefore, Option.getD_some, hslots, hschema, List.zip_append hlength,
    List.zip_append (by simp [hlength]), List.mapM_append, mapM_editsOfField_same]
  simp only [List.zip_cons_cons, List.mapM_cons, hmiddle, mapM_editsOfField_same, bind, Except.bind,
    pure, Except.pure, List.flatten_append, List.flatten_cons]
  rw [hnone specs front (by simp +contextual), hnone specs' back (by simp +contextual)]
  rfl

end

/-! ## Down to the place -/

def LaidAs (text : List Char) (tree : Tree) (depth : Nat) (id : NodeId) (cs : List Char) : Prop :=
  ∃ fragments, Copies text fragments cs ∧ ∀ done,
    fragmentsWithin (.ofText text) tree depth done id = .ok (fragments.reverse ++ done)

section

variable {id child : NodeId} {node : Node} {depth : Nat}

theorem laidAs_unmarked (hget : tree.get? id = some node) (hmarks : ¬node.marks.any)
    (hcs : Between text node.start cs node.stop) : LaidAs text tree (depth + 1) id cs := by
  refine ⟨[.text node.start node.stop], .single hcs, fun done => ?_⟩
  simp [fragmentsWithin, piecesOfNode, require_some hget, hmarks, bind, Except.bind, pure,
    Except.pure]

/-- A node with one edit, that lays out another node in some place. -/
theorem laidAs_marked {as bs : List Char} {a b : Nat} (hget : tree.get? id = some node)
    (hmarks : node.marks.any) (hspan : node.hasSpan)
    (hedits : editsOfNode (.ofText text) tree node = .ok [⟨a, b, .print child⟩])
    (has : Between text node.start as a) (hchild : LaidAs text tree depth child cs)
    (hbs : Between text b bs node.stop) : LaidAs text tree (depth + 1) id (as ++ cs ++ bs) := by
  obtain ⟨fragments, hcopies, hwithin⟩ := hchild
  have hpieces : piecesOfNode (.ofText text) tree id =
      .ok [.fragment (.text node.start a), .node child, .fragment (.text b node.stop)] := by
    simp [piecesOfNode, require_some hget, hmarks, hspan, hedits, sortOn, insertOn, piecesFrom,
      piecesOfEdit, Nat.not_lt_of_le has.le, bind, Except.bind, pure, Except.pure]
  have hexpand : ∀ other, Piece.node other ∈ [.fragment (.text node.start a), .node child,
      .fragment (.text b node.stop)] → ∀ done,
      fragmentsWithin (.ofText text) tree depth done other = .ok (fragments.reverse ++ done) := by
    intro other hother
    obtain rfl : other = child := by simpa using hother
    exact hwithin
  refine ⟨_, ((Copies.single has).append hcopies).append (.single hbs), fun done => ?_⟩
  rw [fragmentsWithin, hpieces]
  exact (foldlM_pieces hexpand done).trans (by simp [Piece.expand])

end

end Layout

namespace Tree

open Text Layout

variable {text : List Char} {t₀ tree : Tree} {root n k m : NodeId}

/-- One node holds `m` in the place of `k`, and nothing else has changed. -/
structure Exchanged (t₀ tree : Tree) (root n k m : NodeId) : Prop where
  kin : t₀.Kin tree
  place : ∃ front back, t₀.slots n = front ++ .node k :: back ∧ ∀ node, tree.get? n = some node →
    node.slots = front ++ .node m :: back ∧ node.before = some (front ++ .node k :: back)
  rest : ∀ {id node}, tree.get? id = some node → id ≠ n →
    node.slots = t₀.slots id ∧ node.before = none
  /-- The marked nodes are those on the way down. -/
  marked : ∀ {id node}, tree.get? id = some node → t₀.Reaches root id →
    (node.marks.any ↔ t₀.Reaches id n)

theorem exchanged_replaceSlot (h : t₀.ReadFrom text root) (hn : t₀.Reaches root n)
    (hm : ¬t₀.Reaches m n) {index : Nat} {old : Node} {spec : FieldSpec}
    (hreplaces : t₀.Replaces n index (.node m) old spec)
    (hslot : old.slots[index]? = some (.node k)) :
    t₀.Exchanged (t₀.replaceSlot n index (.node m)).2 root n k m := by
  have hclimbs := hreplaces.climbs
  obtain ⟨marked, hmarked⟩ := hreplaces.get?
  set mid := t₀.exchanged n index (.node m) spec.field
  have hmidget := get?_exchanged t₀ n index (.node m) spec.field
  have hsize : mid.size = t₀.size := size_exchanged ..
  -- The node that moves is not on the way up.
  have hparent : ∀ i, t₀.Reaches i n → mid.parentId? i = t₀.parentId? i := by
    intro i hi
    have hne : i ≠ m := fun heq => hm (heq ▸ hi)
    rw [parentId?, parentId?, hmidget]
    cases t₀.get? i with
    | none => rfl
    | some node =>
        rcases eq_or_ne i n with rfl | hin
        · simp [Slot.children, hne, Node.change]
        · simp [Slot.children, hne, hin]
  have hunmarked : ∀ {i node}, mid.get? i = some node → node.marks.below = false := by
    intro i node hget
    rw [hmidget] at hget
    obtain ⟨other, hother, rfl⟩ := Option.map_eq_some_iff.mp hget
    have hmarks := (h.shape hother).unmarked.1
    by_cases hi : i = n <;> simp [hi, Node.change, hmarks]
  have hup : mid.BelowUp (mid.parentId? n) := by
    intro i p node parent hget hbelow
    rw [hunmarked hget] at hbelow
    cases hbelow
  refine ⟨kin_replaceSlot .., ?_, ?_, ?_⟩
  · have hlt := hreplaces.inBounds
    have hk : old.slots[index] = .node k := (List.getElem?_eq_some_iff.mp hslot).choose_spec
    have hsplit : old.slots.take index ++ .node k :: old.slots.drop (index + 1) = old.slots := by
      rw [← hk, ← List.drop_eq_getElem_cons hlt, List.take_append_drop]
    refine ⟨old.slots.take index, old.slots.drop (index + 1), ?_, fun node hget => ?_⟩
    · rw [slots_of_get? hreplaces.get, hsplit]
    · rw [hmarked, hreplaces.get] at hget
      obtain rfl := Option.some.inj hget
      rw [hsplit]
      simp [Node.marking, Node.change, List.set_eq_take_append_cons_drop, hlt,
        (h.shape hreplaces.get).unmarked.2]
  · intro id node hget hid
    rw [hmarked] at hget
    obtain ⟨other, hother, rfl⟩ := Option.map_eq_some_iff.mp hget
    rw [slots_of_get? hother]
    simp [hid, Node.marking, (h.shape hother).unmarked.2]
  · intro id node hget hid
    have hget' := hget
    rw [hmarked] at hget'
    obtain ⟨other, hother, hnode⟩ := Option.map_eq_some_iff.mp hget'
    have hmidnode := hmidget id
    rw [hother, Option.map_some] at hmidnode
    have hbelow := hclimbs.below_iff hup hmidnode hget
    rw [rises_iff_reaches h hsize hparent hn hid, hunmarked hmidnode] at hbelow
    have hown : node.marks.own ↔ id = n := by
      have hmarks := (h.shape hother).unmarked.1
      rw [← hnode]
      by_cases heq : id = n <;> simp [heq, Node.marking, Node.change, hmarks]
    rw [Marks.any, Bool.or_eq_true, hown, hbelow]
    constructor
    · rintro (rfl | hfalse | ⟨-, hreach⟩)
      · exact .refl
      · cases hfalse
      · exact hreach
    · intro hreach
      by_cases heq : id = n
      · exact .inl heq
      · exact .inr (.inr ⟨heq, hreach⟩)

theorem ReadFrom.exists_inside (h : t₀.ReadFrom text root) {a b : NodeId} {node : Node}
    (hab : t₀.Reaches a b) (hget : t₀.get? a = some node) :
    ∃ other, t₀.get? b = some other ∧ node.start ≤ other.start ∧ other.stop ≤ node.stop := by
  induction hab with
  | refl => exact ⟨node, hget, Nat.le_refl _, Nat.le_refl _⟩
  | @tail b c _ hbc ih =>
      obtain ⟨middle, hmiddle, hstart, hstop⟩ := ih
      rw [Holds, children_of_get? hmiddle] at hbc
      obtain ⟨other, hother, hge, hle⟩ := (nests_of_shape (h.shape hmiddle)).inside c hbc
      exact ⟨other, hother, hstart.trans hge, hle.trans hstop⟩

section

variable {held new : Node} {cs : List Char}
  (hx : t₀.Exchanged tree root n k m)

include hx

/-- A node that the place cannot be reached from has no edit. -/
theorem Exchanged.editOfKept_eq_nil {id : NodeId} (hid : t₀.Reaches root id)
    (hnot : ¬t₀.Reaches id n) : editOfKept tree (some id) = [] := by
  cases hget : tree.get? id with
  | none => simp [editOfKept, require, hget, throw, throwThe, MonadExceptOf.throw]
  | some node =>
      rw [editOfKept_some hget, if_neg]
      exact fun hmarks => hnot ((hx.marked hget hid).mp hmarks)

variable (h : t₀.ReadFrom text root) (hk : t₀.get? k = some held) (hheld : t₀.Holds n k)
  (hm : ∀ depth, LaidAs text tree (depth + 1) m cs)
  (hedits : ∀ node, tree.get? n = some node →
    editsOfNode (.ofText text) tree node = .ok [⟨held.start, held.stop, .print m⟩])

include h hk hheld hm hedits

/-- On the way down to the place each node is laid out as its text, with the new node in the place.
-/
theorem Exchanged.laidAs {p : NodeId} {old : Node} {as bs : List Char} {depth : Nat}
    (hp : t₀.Reaches p n) (hroot : t₀.Reaches root p) (hold : t₀.get? p = some old)
    (has : Between text old.start as held.start) (hbs : Between text held.stop bs old.stop)
    (hdepth : p ≤ depth) : LaidAs text tree (depth + 2) p (as ++ cs ++ bs) := by
  have hlt : held.start < held.stop := (h.sound hk (h.ne_root_of_holds hheld)).lt
  obtain ⟨node, hget, hkin⟩ := hx.kin.get? hold
  have hmarks : node.marks.any := (hx.marked hget hroot).mpr hp
  have hspan : node.hasSpan := by
    have hle := has.le
    have hle' := hbs.le
    rw [hkin.start] at hle
    rw [hkin.stop] at hle'
    simp only [Node.hasSpan, decide_eq_true_eq]
    omega
  induction hp using Relation.ReflTransGen.head_induction_on generalizing old node as bs depth with
  | refl =>
      rw [hkin.start] at has
      rw [hkin.stop] at hbs
      exact laidAs_marked hget hmarks hspan (hedits node hget) has (hm depth) hbs
  | @head p c hholds hc ih =>
      have hne : p ≠ n := by
        have hle := le_of_reaches_of_lt (fun _ _ => h.lt_of_holds) hc
        exact (Nat.ne_of_lt (Nat.lt_of_le_of_lt hle (h.lt_of_holds hholds))).symm
      have hcroot : t₀.Reaches root c := hroot.tail hholds
      obtain ⟨hslots, hbefore⟩ := hx.rest hget hne
      have hchildren : node.children = t₀.children p := by
        rw [Node.children, hslots, ← children_eq]
      have hfits : node.slots.length = node.kind.schema.length := by
        rw [hslots, slots_of_get? hold, ← hkin.kind]
        exact h.fits p old hold
      have hmem : c ∈ old.children := by rwa [Holds, children_of_get? hold] at hholds
      obtain ⟨other, hother, hstart, hstop⟩ := (nests_of_shape (h.shape hold)).inside c hmem
      obtain ⟨new, hnew, hkin'⟩ := hx.kin.get? hother
      have hcmarks : new.marks.any := (hx.marked hnew hcroot).mpr hc
      -- Of the children of the node the place can be reached from one only.
      have hedits' : editsOfNode (.ofText text) tree node =
          .ok [⟨other.start, other.stop, .print c⟩] := by
        rw [editsOfNode_same hfits hbefore, hchildren,
          flatMap_eq_of_mem (h.isTreeBelow.nodup p hroot) hholds fun b hb hbc =>
            hx.editOfKept_eq_nil (hroot.tail hb)
              (h.isTreeBelow.not_reaches_both hroot hholds hb (Ne.symm hbc) hc),
          editOfKept_some hnew, if_pos hcmarks, hkin'.start, hkin'.stop]
      obtain ⟨place, hplace, hle, hle'⟩ := h.exists_inside (hc.tail hheld) hother
      obtain rfl := Option.some.inj (hk.symm.trans hplace)
      obtain ⟨as₁, as₂, rfl, has₁, has₂⟩ := has.split (boundary_start h hother) hstart hle
      obtain ⟨bs₁, bs₂, rfl, hbs₁, hbs₂⟩ := hbs.split (h.shape hother).stop.boundary hle' hstop
      have hcspan : new.hasSpan := by
        rw [Node.hasSpan, ← hkin'.start, ← hkin'.stop]
        exact decide_eq_true (h.sound hother (h.ne_root_of_holds hholds)).lt
      have hcdepth := Nat.lt_of_lt_of_le (h.lt_of_holds hholds) hdepth
      obtain ⟨depth, rfl⟩ := Nat.exists_eq_add_one_of_ne_zero (Nat.ne_zero_of_lt hcdepth)
      have hchild : LaidAs text tree (depth + 2) c (as₂ ++ cs ++ bs₁) :=
        ih hcroot hother has₂ hbs₁ (Nat.le_of_lt_succ hcdepth) new hnew hkin' hcmarks hcspan
      rw [hkin.start] at has₁
      rw [hkin.stop] at hbs₂
      simpa using laidAs_marked hget hmarks hspan hedits' has₁ hchild hbs₂

end

end Tree

open Text Layout

variable {text : List Char}

theorem Text.Between.bytes_eq {a b : Nat} {cs : List Char} (h : Between text a cs b) :
    bytes cs = ((bytes text).drop a).take (b - a) := by
  obtain ⟨rest, hat, rfl⟩ := h
  rw [drop_bytes hat, bytes_append, Nat.add_sub_cancel_left, ← length_bytes,
    List.take_left]

theorem Parsed.exists_print_of_laidAs {parsed : Parsed} {cs : List Char}
    (h : LaidAs parsed.text parsed.tree (parsed.tree.size + 1) parsed.root cs)
    (options : PrintOptions) :
    ∃ printed, parsed.print options = .ok printed ∧ printed.code = cs := by
  obtain ⟨fragments, hcopies, hwithin⟩ := h
  have hfragments : Layout.fragments (.ofText parsed.text) parsed.tree parsed.root =
      .ok fragments := by
    rw [Layout.fragments, hwithin []]
    simp [bind, Except.bind, pure, Except.pure]
  refine ⟨_, print_of_fragments hfragments options, ?_⟩
  rw [hcopies.output_foldl_put rfl, output_writer, List.nil_append]

theorem Tree.exists_slot_of_child? {tree : Tree} {n k : NodeId} {f : Field}
    (h : tree.child? n f = some k) : ∃ node index, tree.get? n = some node ∧
      node.kind.fieldIndex? f = some index ∧ node.slots[index]? = some (.node k) := by
  simp only [child?, slot?, Node.slot?, Option.bind_eq_bind, Option.bind_eq_some_iff] at h
  obtain ⟨slot, ⟨node, hget, index, hindex, hslot⟩, hnode⟩ := h
  cases slot with
  | absent => cases hnode
  | list items => cases hnode
  | node id =>
      obtain rfl : id = k := Option.some.inj hnode
      exact ⟨node, index, hget, hindex, hslot⟩

theorem Path.replace_child {text : List Char} {tree : Tree} {root n k m : NodeId} {f : Field}
    {node : Node} {index : Nat}
    (h : tree.ReadFrom text root) (hget : tree.get? n = some node)
    (hindex : node.kind.fieldIndex? f = some index) (hslot : node.slots[index]? = some (.node k)) :
    (Path.field (some n) f).replace tree (some (some m)) =
      .ok (tree.replaceSlot n index (.node m)) := by
  obtain ⟨spec, hspec, -⟩ := NodeKind.exists_of_fieldIndex? hindex
  have haccepts : spec.accepts (.node k) :=
    (h.shape hget).accepts (List.mem_iff_getElem?.mpr ⟨index,
      List.getElem?_zip_eq_some.mpr ⟨hspec, hslot⟩⟩)
  have hsequence : spec.isSequence = false := by
    simpa [FieldSpec.accepts, FieldSpec.isSequence] using haccepts
  simp [replace, locate, hget, hindex, hspec, hsequence, Slot.ofOption, bind, Except.bind, pure,
    Except.pure]

theorem Tree.holds_of_slot {tree : Tree} {n k : NodeId} {node : Node} {index : Nat}
    (hget : tree.get? n = some node) (hslot : node.slots[index]? = some (.node k)) :
    tree.Holds n k := by
  rw [Holds, children_of_get? hget]
  exact List.mem_flatMap.mpr ⟨_, List.mem_of_getElem? hslot, by simp [Slot.children]⟩

theorem Tree.ReadFrom.laidAs {tree : Tree} {root : NodeId} {cs : List Char}
    (h : tree.ReadFrom text root) (hcs : Between text 0 cs (byteLength text)) (depth : Nat) :
    LaidAs text tree (depth + 1) root cs := by
  obtain ⟨program, hprogram, -, hstart, hstop⟩ := h.program
  refine laidAs_unmarked hprogram (by simp [(h.shape hprogram).unmarked.1, Marks.any]) ?_
  rwa [hstart, hstop]

/-- The table after a node has been put in the place of another one is laid out as the source with
the one range in the place of the other. -/
theorem Tree.ReadFrom.laidAs_replaceSlot_ne {tree : Tree} {root n k m : NodeId}
    {node held new : Node} {index : Nat} {before middle after : List Char}
    (h : tree.ReadFrom text root) (hn : tree.Reaches root n) (hm : tree.Reaches root m)
    (hnot : ¬tree.Reaches m n)
    (hget : tree.get? n = some node) (hslot : node.slots[index]? = some (.node k)) (hne : k ≠ m)
    (hk : tree.get? k = some held) (hnew : tree.get? m = some new)
    (hbefore : Between text 0 before held.start)
    (hmiddle : Between text new.start middle new.stop)
    (hafter : Between text held.stop after (byteLength text)) :
    LaidAs text (tree.replaceSlot n index (.node m)).2 (root + 2) root
      (before ++ middle ++ after) := by
  have hlt : index < node.slots.length := (List.getElem?_eq_some_iff.mp hslot).choose
  obtain ⟨spec, hspec⟩ : ∃ spec, node.kind.schema[index]? = some spec :=
    ⟨_, List.getElem?_eq_getElem (h.fits n node hget ▸ hlt)⟩
  have hreplaces : tree.Replaces n index (.node m) node spec :=
    ⟨hget, hspec, hlt, by simpa [hslot] using hne⟩
  have hx := exchanged_replaceSlot h hn hnot hreplaces hslot
  obtain ⟨program, hprogram, -, hstart, hstop⟩ := h.program
  have hholds : tree.Holds n k := holds_of_slot hget hslot
  obtain ⟨held', hk', hkin⟩ := hx.kin.get? hk
  obtain ⟨new', hnew', hkin'⟩ := hx.kin.get? hnew
  have hmroot : m ≠ root := fun heq => hnot (heq ▸ hn)
  have hspan : new'.hasSpan := by
    rw [Node.hasSpan, ← hkin'.start, ← hkin'.stop]
    exact decide_eq_true (h.sound hnew hmroot).lt
  have hlaid : ∀ depth,
      LaidAs text (tree.replaceSlot n index (.node m)).2 (depth + 1) m middle := by
    intro depth
    rw [hkin'.start, hkin'.stop] at hmiddle
    exact laidAs_unmarked hnew' (fun hmarks => hnot ((hx.marked hnew' hm).mp hmarks)) hmiddle
  refine hx.laidAs h hk hholds hlaid (fun node' hnode' => ?_) hn .refl hprogram (hstart ▸ hbefore)
    (hstop ▸ hafter) (Nat.le_refl root)
  obtain ⟨front, back, hold, hplace⟩ := hx.place
  obtain ⟨hslots, hkept⟩ := hplace node' hnode'
  obtain ⟨_, hnode'', hkin''⟩ := hx.kin.get? hget
  obtain rfl := Option.some.inj (hnode'.symm.trans hnode'')
  have hfits : node'.slots.length = node'.kind.schema.length := by
    rw [slots_of_get? hget] at hold
    rw [hslots, ← hkin''.kind, ← h.fits n node hget, hold]
    simp
  rw [hkin.start, hkin.stop]
  refine editsOfNode_exchanged hfits hslots hkept hne hk' hnew' hspan
    fun slot hmem child hchild => ?_
  have hchild : tree.Holds n child := by
    rw [Holds, children_eq, hold]
    refine List.mem_flatMap.mpr ⟨slot, ?_, hchild⟩
    rcases List.mem_append.mp hmem with hmem | hmem <;> simp [hmem]
  refine hx.editOfKept_eq_nil (hn.tail hchild) fun hreach => ?_
  exact h.isTreeBelow.acyclic n child hn hchild hreach

/-- A node may also be put where it is, which changes nothing. -/
theorem Tree.ReadFrom.laidAs_replaceSlot {tree : Tree} {root n k m : NodeId}
    {node held new : Node} {index : Nat} {before middle after : List Char}
    (h : tree.ReadFrom text root) (hn : tree.Reaches root n) (hm : tree.Reaches root m)
    (hnot : ¬tree.Reaches m n) (hget : tree.get? n = some node)
    (hslot : node.slots[index]? = some (.node k)) (hk : tree.get? k = some held)
    (hnew : tree.get? m = some new) (hbefore : Between text 0 before held.start)
    (hmiddle : Between text new.start middle new.stop)
    (hafter : Between text held.stop after (byteLength text)) :
    LaidAs text (tree.replaceSlot n index (.node m)).2 (root + 2) root
      (before ++ middle ++ after) := by
  by_cases hne : k = m
  · subst hne
    obtain rfl := Option.some.inj (hk.symm.trans hnew)
    have hsame : tree.replaceSlot n index (.node k) = (false, tree) :=
      replaceSlot_same hget fun slot hother => Option.some.inj (hother.symm.trans hslot)
    rw [hsame]
    exact h.laidAs ((hbefore.append hmiddle).append hafter) _
  · exact h.laidAs_replaceSlot_ne hn hm hnot hget hslot hne hk hnew hbefore hmiddle hafter

/-- When in the tree of a source a child in a field for one node is replaced by a node that is not
above it, the output is the source with the bytes of the one in the place of those of the other. The
node is then held twice and knows its new place only, wherever it was held before. -/
theorem bytes_print_replace {fileName : Option String} {parsed : Parsed} {n k m : NodeId}
    {f : Field}
    (hparse : parse text fileName = .ok parsed) (hn : parsed.tree.Reaches parsed.root n)
    (hk : parsed.tree.child? n f = some k) (hm : parsed.tree.Reaches parsed.root m)
    (hnot : ¬parsed.tree.Reaches m n) (options : PrintOptions) :
    ∃ held new changed tree printed,
      parsed.tree.get? k = some held ∧ parsed.tree.get? m = some new ∧
      (Path.field (some n) f).replace parsed.tree (some (some m)) = .ok (changed, tree) ∧
      { parsed with tree }.print options = .ok printed ∧
      bytes printed.code = (bytes text).take held.start ++
        ((bytes text).drop new.start).take (new.stop - new.start) ++
        (bytes text).drop held.stop := by
  obtain ⟨htext, -, h⟩ := readFrom_of_parse hparse
  obtain ⟨node, index, hget, hindex, hslot⟩ := Tree.exists_slot_of_child? hk
  obtain ⟨program, hprogram, -, hstart, hstop⟩ := h.program
  obtain ⟨held, hheld, -, hheldStop⟩ :=
    h.exists_inside (hn.tail (Tree.holds_of_slot hget hslot)) hprogram
  obtain ⟨new, hnew, -, -⟩ := h.exists_inside hm hprogram
  obtain ⟨before, hbefore⟩ := Between.exists_of_le (at_zero text).boundary
    (boundary_start h hheld) (Nat.zero_le _)
  obtain ⟨middle, hmiddle⟩ := Between.exists_of_le (boundary_start h hnew)
    (h.shape hnew).stop.boundary (h.start_le hnew)
  obtain ⟨after, hafter⟩ : ∃ after, Between text held.stop after (byteLength text) := by
    refine Between.exists_of_le (h.shape hheld).stop.boundary ?_ (hstop ▸ hheldStop)
    exact hstop ▸ (h.shape hprogram).stop.boundary
  have hlaid := h.laidAs_replaceSlot hn hm hnot hget hslot hheld hnew hbefore hmiddle hafter
  have hsize : (parsed.tree.replaceSlot n index (.node m)).2.size + 1 = parsed.root + 2 := by
    rw [Tree.size_replaceSlot, h.size]
  obtain ⟨printed, hprint, hcode⟩ := @Parsed.exists_print_of_laidAs
    { parsed with tree := (parsed.tree.replaceSlot n index (.node m)).2 } _
    (htext ▸ hsize ▸ hlaid) options
  refine ⟨held, new, _, _, printed, hheld, hnew, Path.replace_child h hget hindex hslot, hprint, ?_⟩
  have htail : ((bytes text).drop held.stop).take (byteLength text - held.stop) =
      (bytes text).drop held.stop := by
    rw [← length_bytes, ← List.length_drop, List.take_length]
  rw [hcode, bytes_append, bytes_append, hbefore.bytes_eq, hmiddle.bytes_eq, hafter.bytes_eq,
    List.drop_zero, Nat.sub_zero, htail]

/-- The operand of the first statement becomes that of the second one, which is left as it is. -/
theorem bytes_print_replace_operand :
    ∃ parsed changed tree printed, parse "-a;bc".toList none = .ok parsed ∧
      (Path.field (some 1) .argument).replace parsed.tree (some (some 3)) = .ok (changed, tree) ∧
      { parsed with tree }.print {} = .ok printed ∧ bytes printed.code = bytes "-bc;bc".toList := by
  obtain ⟨parsed, hparse, hcheck⟩ := exists_parsed_of_any
    (show (parse "-a;bc".toList none).toOption.any (fun parsed =>
      parsed.root == 5 && (parsed.tree.children 5).contains 2 &&
      (parsed.tree.children 5).contains 4 && (parsed.tree.children 2).contains 1 &&
      (parsed.tree.children 4).contains 3 && (parsed.tree.children 3).isEmpty &&
      parsed.tree.child? 1 .argument == some 0 &&
      parsed.tree.range? 0 == some (1, 2) && parsed.tree.range? 3 == some (3, 5)) = true by
        decide +kernel)
  simp only [Bool.and_eq_true, beq_iff_eq, List.contains_iff_mem, List.isEmpty_iff, and_assoc]
    at hcheck
  obtain ⟨hroot, h₂, h₄, h₁, h₃, hleaf, hchild, hheld, hnew⟩ := hcheck
  have hn : parsed.tree.Reaches parsed.root 1 :=
    hroot ▸ .tail (.single (show parsed.tree.Holds 5 2 from h₂)) h₁
  have hm : parsed.tree.Reaches parsed.root 3 :=
    hroot ▸ .tail (.single (show parsed.tree.Holds 5 4 from h₄)) h₃
  have hnot : ¬parsed.tree.Reaches 3 1 := by
    intro hreach
    rcases hreach.cases_head with heq | ⟨c, hholds, -⟩
    · cases heq
    · rw [Tree.Holds, hleaf] at hholds
      cases hholds
  obtain ⟨held, new, changed, tree, printed, hget, hget', hreplace, hprint, hbytes⟩ :=
    bytes_print_replace hparse hn hchild hm hnot {}
  refine ⟨parsed, changed, tree, printed, hparse, hreplace, hprint, hbytes.trans ?_⟩
  rw [range?_of_get? hget] at hheld
  rw [range?_of_get? hget'] at hnew
  obtain ⟨hstart, hstop⟩ := Prod.mk.inj (Option.some.inj hheld)
  obtain ⟨hstart', hstop'⟩ := Prod.mk.inj (Option.some.inj hnew)
  rw [hstart, hstop, hstart', hstop']
  decide +kernel

end FlowErasure
