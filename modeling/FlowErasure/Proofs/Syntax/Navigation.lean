import FlowErasure.Proofs.Erasure.Removals
import FlowErasure.Proofs.Grammar.WellFormed
import FlowErasure.Proofs.Syntax.Descendants

/-!
# Finding the way in a tree

A node only knows the node and the field that adopted it last; where it stands in a list is looked up
in the list. `Linked` says that what the nodes of a tree know is right. What the parser answers is
linked, and removals keep it so: a removal adopts what is left in a slot once more, at the place where
it is already. So through any sequence of removals and of erasing, the place of a node leads back to
the node, and nothing is listed twice or left out.
-/

namespace FlowErasure

namespace Tree

variable {tree a b c : Tree} {root id : NodeId}

/-- The part of a table below `root` is a tree, in which each node knows where it is held. -/
structure Linked (tree : Tree) (root : NodeId) : Prop where
  inside : root < tree.size
  fits : tree.Fits
  below : ∀ a b, tree.Holds a b → b < a
  isTree : tree.IsTreeBelow root
  owned : tree.Owned 0 root

theorem WellFormed.linked (h : tree.WellFormed root) : tree.Linked root where
  inside := by rw [h.last]; exact Nat.lt_succ_self root
  fits := h.fits
  below := h.below
  isTree := h.isTree
  owned id hid := ⟨Nat.zero_le id, h.parent id hid⟩

/-! ## Removals -/

structure Thins (a b : Tree) : Prop where
  trims : a.Trims b
  parent : ∀ id, b.parent? id = a.parent? id

namespace Thins

theorem refl (a : Tree) : a.Thins a where
  trims := .refl a
  parent _ := rfl

theorem reaches (h : a.Thins b) {x y : NodeId} (hxy : b.Reaches x y) : a.Reaches x y :=
  hxy.lift id fun x _ hholds => h.trims.children_subset x hholds

theorem exists_field (h : a.Thins b) {spec : FieldSpec} {slot : Slot}
    (hfield : (spec, slot) ∈ b.fields id) :
    ∃ slot', (spec, slot') ∈ a.fields id ∧ slot'.Trims slot := by
  obtain ⟨node, hget⟩ : ∃ node, b.get? id = some node := by
    cases hget : b.get? id with
    | none => simp [fields, hget] at hfield
    | some node => exact ⟨node, rfl⟩
  obtain ⟨node', hget', hkin⟩ := h.trims.kin.symm.get? hget
  rw [fields_of_get? hget] at hfield
  obtain ⟨index, hindex⟩ := List.mem_iff_getElem?.mp hfield
  obtain ⟨hspec, hslot⟩ := List.getElem?_zip_eq_some.mp hindex
  have hlength := h.trims.length id
  rw [slots_of_get? hget, slots_of_get? hget'] at hlength
  have hlt : index < node'.slots.length := by
    rw [← hlength]
    exact (List.getElem?_eq_some_iff.mp hslot).choose
  have hslot' := List.getElem?_eq_getElem hlt
  have hold : (a.slots id)[index]? = some node'.slots[index] := by
    rw [slots_of_get? hget', hslot']
  have hnew : (b.slots id)[index]? = some slot := by
    rw [slots_of_get? hget, hslot]
  refine ⟨node'.slots[index], ?_, h.trims.slot hold hnew⟩
  rw [fields_of_get? hget']
  rw [hkin.kind] at hspec
  exact List.mem_iff_getElem?.mpr ⟨index, List.getElem?_zip_eq_some.mpr ⟨hspec, hslot'⟩⟩

/-- Replacing a slot by what can be left of it, at a node whose children know that it holds them. -/
theorem replaceSlot (h : a.Thins b) {index : Nat} {node : Node} {spec : FieldSpec} {value : Slot}
    (howned : ∀ spec slot, (spec, slot) ∈ a.fields id → ∀ c ∈ slot.children,
      a.parent? c = some (id, spec.field))
    (hget : b.get? id = some node) (hspec : node.kind.schema[index]? = some spec)
    (hvalue : ∀ slot, node.slots[index]? = some slot → slot.Trims value) :
    a.Thins (b.replaceSlot id index value).2 := by
  refine ⟨h.trims.trans (trims_replaceSlot hget hspec hvalue), fun i => ?_⟩
  rw [← h.parent i]
  rcases b.replaceSlot_cases id index value with hsame | ⟨node', spec', hreplaces, -⟩
  · rw [hsame]
  · obtain rfl := Option.some.inj (hget.symm.trans hreplaces.get)
    obtain rfl := Option.some.inj (hspec.symm.trans hreplaces.schema)
    obtain ⟨marked, hmarked⟩ := hreplaces.get?
    have hbound := hreplaces.inBounds
    have hslot := List.getElem?_eq_getElem hbound
    have hfield : (spec, node.slots[index]) ∈ b.fields id := by
      rw [fields_of_get? hget]
      exact List.mem_iff_getElem?.mpr ⟨index, List.getElem?_zip_eq_some.mpr ⟨hspec, hslot⟩⟩
    obtain ⟨held, hheld, htrims⟩ := h.exists_field hfield
    rw [parent?, parent?, hmarked]
    cases hold : b.get? i with
    | none => rfl
    | some old =>
        by_cases hi : i ∈ value.children
        · have hchild := htrims.children_sublist.subset
            ((hvalue _ hslot).children_sublist.subset hi)
          have hparent := h.parent i
          rw [howned spec held hheld i hchild, parent?, hold] at hparent
          simpa [hi, Node.marking] using hparent.symm
        · simp [hi, Node.marking]

end Thins

/-- Removals at a node that its children know keep a table a thinned one. -/
theorem Linked.keptAt (h : a.Linked root) (hid : a.Reaches root id) :
    Erasure.KeptAt a.Thins id := by
  intro b path result hthins hpath hok
  rcases Path.delete_cases b path with hfails |
    ⟨id', index, node, spec, value, hid', hget, hspec, hvalue, heq⟩
  · exact absurd hok (hfails result)
  · obtain rfl : id' = id := Option.some.inj (Option.some.inj (hid'.symm.trans hpath))
    obtain rfl := Except.ok.inj (heq.symm.trans hok)
    exact hthins.replaceSlot (h.owned id' hid).2 hget hspec hvalue

/-- Removals keep a tree linked. -/
theorem Linked.thin (h : a.Linked root) (hthins : a.Thins b) : b.Linked root where
  inside := hthins.trims.kin.size ▸ h.inside
  fits id node hget := by
    obtain ⟨node', hget', hkin⟩ := hthins.trims.kin.symm.get? hget
    have hlength := hthins.trims.length id
    rw [slots_of_get? hget, slots_of_get? hget'] at hlength
    rw [hlength, h.fits id node' hget', hkin.kind]
  below x y hxy := h.below x y (hthins.trims.children_subset x hxy)
  isTree :=
    { acyclic := IsAcyclicBelow.of_subset h.isTree.acyclic hthins.trims.children_subset
      nodup := fun x hx => (h.isTree.nodup x (hthins.reaches hx)).sublist
        (hthins.trims.children_sublist x)
      parent := fun x y z hx hy hxz hyz =>
        h.isTree.parent x y z (hthins.reaches hx) (hthins.reaches hy)
          (hthins.trims.children_subset x hxz) (hthins.trims.children_subset y hyz) }
  owned id hid := by
    refine ⟨Nat.zero_le id, fun spec slot hfield c hc => ?_⟩
    obtain ⟨slot', hfield', htrims⟩ := hthins.exists_field hfield
    rw [hthins.parent]
    exact (h.owned id (hthins.reaches hid)).2 spec slot' hfield' c
      (htrims.children_sublist.subset hc)

/-! ## Places -/

theorem Linked.get_of (h : tree.Linked root) (hid : tree.Reaches root id) {child : NodeId}
    (hchild : tree.Holds id child) : (Path.of tree (some child)).get tree = .ok (.node child) := by
  obtain ⟨node, hget, hmem⟩ := exists_get?_of_holds hchild
  obtain ⟨spec, slot, hfield, hslot⟩ := exists_field (h.fits id node hget) hmem
  have hparent := (h.owned id hid).2 spec slot (fields_of_get? hget ▸ hfield) child hslot
  obtain ⟨index, hindex⟩ := List.mem_iff_getElem?.mp hfield
  obtain ⟨hspec, hat⟩ := List.getElem?_zip_eq_some.mp hindex
  have hplace := NodeKind.fieldIndex?_field hspec
  have hlookup : (tree.lookup? (some child)).bind (·.parent) = some (id, spec.field) := hparent
  have hslot? : tree.slot? id spec.field = some slot := by
    simp [Tree.slot?, Node.slot?, hget, hplace, hat]
  have hlocate : Path.locate tree (some id) spec.field =
      .ok ⟨id, node.kind, index, spec, slot⟩ := by
    simp [Path.locate, hget, hplace, hspec, hat, pure, Except.pure]
  unfold Path.of
  simp only [hlookup, hslot?, Option.bind_some]
  cases slot with
  | absent => simp [Slot.children] at hslot
  | node other =>
      obtain rfl : child = other := by simpa [Slot.children] using hslot
      simp [Slot.list?, Path.get, hlocate, bind, Except.bind, pure, Except.pure]
  | list items =>
      have hin : some child ∈ items.nodes := by simpa [Slot.children] using hslot
      obtain ⟨place, hfound⟩ : ∃ place, items.nodes.findIdx? (· == some child) = some place := by
        rw [← Option.isSome_iff_exists, List.findIdx?_isSome]
        exact List.any_eq_true.mpr ⟨some child, hin, by simp⟩
      obtain ⟨hlt, heq, -⟩ := List.findIdx?_eq_some_iff_getElem.mp hfound
      have hnode : items.nodes[place]? = some (some child) := by
        rw [List.getElem?_eq_getElem hlt]
        simpa using heq
      simp [Slot.list?, hfound, Path.get, hlocate, hnode, bind, Except.bind, pure, Except.pure]

def HeldAt (tree : Tree) (child : NodeId) (place : NodeId × Nat) : Prop :=
  ∃ slot, (tree.slots place.1)[place.2]? = some slot ∧ child ∈ slot.children

theorem HeldAt.holds {child : NodeId} {place : NodeId × Nat} (h : tree.HeldAt child place) :
    tree.Holds place.1 child := by
  obtain ⟨slot, hslot, hchild⟩ := h
  rw [Holds, children_eq]
  exact List.mem_flatMap.mpr ⟨slot, List.mem_of_getElem? hslot, hchild⟩

/-- The child knows the field at the place where it is held. -/
theorem Linked.parent?_of_heldAt (h : tree.Linked root) (hid : tree.Reaches root id) {child : NodeId}
    {index : Nat} {node : Node} (hget : tree.get? id = some node)
    (hheld : tree.HeldAt child (id, index)) :
    ∃ field, node.kind.fieldIndex? field = some index ∧ tree.parent? child = some (id, field) := by
  obtain ⟨slot, hslot, hchild⟩ := hheld
  rw [slots_of_get? hget] at hslot
  have hlt : index < node.kind.schema.length := by
    rw [← h.fits id node hget]
    exact (List.getElem?_eq_some_iff.mp hslot).choose
  have hspec := List.getElem?_eq_getElem hlt
  refine ⟨_, NodeKind.fieldIndex?_field hspec, (h.owned id hid).2 _ slot ?_ child hchild⟩
  rw [fields_of_get? hget]
  exact List.mem_iff_getElem?.mpr ⟨index, List.getElem?_zip_eq_some.mpr ⟨hspec, hslot⟩⟩

theorem Linked.heldAt_unique (h : tree.Linked root) {child : NodeId} {place place' : NodeId × Nat}
    (hid : tree.Reaches root place.1) (hheld : tree.HeldAt child place)
    (hid' : tree.Reaches root place'.1) (hheld' : tree.HeldAt child place') : place = place' := by
  obtain ⟨id, index⟩ := place
  obtain ⟨id', index'⟩ := place'
  obtain rfl : id = id' := h.isTree.parent id id' child hid hid' hheld.holds hheld'.holds
  obtain ⟨node, hget, -⟩ := exists_get?_of_holds hheld.holds
  obtain ⟨field, hindex, hparent⟩ := h.parent?_of_heldAt hid hget hheld
  obtain ⟨field', hindex', hparent'⟩ := h.parent?_of_heldAt hid hget hheld'
  obtain rfl : field = field' := congrArg Prod.snd (Option.some.inj (hparent.symm.trans hparent'))
  rw [Option.some.inj (hindex.symm.trans hindex')]

structure Navigable (tree : Tree) (root : NodeId) : Prop where
  /-- The place of a node leads to the node. -/
  get_of : ∀ id, tree.Reaches root id → id ≠ root →
    (Path.of tree (some id)).get tree = .ok (.node id)
  /-- One slot in the tree holds it. -/
  held : ∀ id, tree.Reaches root id → id ≠ root →
    ∃! place : NodeId × Nat, tree.Reaches root place.1 ∧ tree.HeldAt id place
  /-- No slot holds it twice. -/
  once : ∀ id, tree.Reaches root id → (tree.children id).Nodup
  nodup : (tree.descendants root).Nodup
  mem_descendants : ∀ id, id ∈ tree.descendants root ↔ tree.Reaches root id
  /-- A node is listed before what is below it, and its children from left to right. -/
  preOrder : ∀ id, tree.Reaches root id →
    tree.descendants id = id :: (tree.children id).flatMap tree.descendants

/-- Something other than the root can be reached only through what holds it. -/
theorem exists_holds (hid : tree.Reaches root id) (hne : id ≠ root) :
    ∃ holder, tree.Reaches root holder ∧ tree.Holds holder id := by
  cases hid with
  | refl => exact absurd rfl hne
  | tail hreach hholds => exact ⟨_, hreach, hholds⟩

theorem exists_heldAt {holder : NodeId} (h : tree.Holds holder id) :
    ∃ index, tree.HeldAt id (holder, index) := by
  rw [Holds, children_eq] at h
  obtain ⟨slot, hslot, hid⟩ := List.mem_flatMap.mp h
  obtain ⟨index, hindex⟩ := List.mem_iff_getElem?.mp hslot
  exact ⟨index, slot, hindex, hid⟩

theorem Linked.lt_size (h : tree.Linked root) (hid : tree.Reaches root id) : id < tree.size :=
  Nat.lt_of_le_of_lt (le_of_reaches_of_lt h.below hid) h.inside

theorem Linked.navigable (h : tree.Linked root) : tree.Navigable root where
  get_of id hid hne := by
    obtain ⟨holder, hholder, hholds⟩ := exists_holds hid hne
    exact h.get_of hholder hholds
  held id hid hne := by
    obtain ⟨holder, hholder, hholds⟩ := exists_holds hid hne
    obtain ⟨index, hheld⟩ := exists_heldAt hholds
    refine ⟨(holder, index), ⟨hholder, hheld⟩, fun place hplace => ?_⟩
    exact h.heldAt_unique hplace.1 hplace.2 hholder hheld
  once id hid := h.isTree.nodup id hid
  nodup := h.isTree.nodup_descendants .refl
  mem_descendants id := by
    rw [mem_descendants h.isTree.acyclic .refl]
    exact and_iff_left_of_imp h.lt_size
  preOrder id hid := by
    obtain ⟨node, hget⟩ := exists_get? (h.lt_size hid)
    rw [children_of_get? hget]
    exact descendants_eq h.isTree.acyclic hid hget

end Tree

/-! ## Sequences of calls -/

inductive Call where
  | delete (path : Path)
  | erase (rules : Rules)

namespace Call

variable {tree out : Tree} {root : NodeId}

/-- The table after a call. A removal that fails changes nothing. -/
def run (root : NodeId) (tree : Tree) : Call → Tree
  | .delete path => ((path.delete tree).toOption.map (·.2)).getD tree
  | .erase rules => (tree.erase rules root).1

def Starts (root : NodeId) (tree : Tree) : Call → Prop
  | .delete path => ∀ parent, path.parent? = some parent → ∃ id, parent = some id ∧ tree.Reaches root id
  | .erase _ => True

inductive Runs (root : NodeId) : Tree → List Call → Tree → Prop where
  | nil {tree : Tree} : Runs root tree [] tree
  | cons {tree out : Tree} {call : Call} {calls : List Call} (hstarts : call.Starts root tree)
      (hrest : Runs root (call.run root tree) calls out) : Runs root tree (call :: calls) out

theorem thins_run (h : tree.Linked root) {call : Call} (hstarts : call.Starts root tree) :
    tree.Thins (call.run root tree) := by
  cases call with
  | delete path =>
      cases hok : path.delete tree with
      | error e => rw [run, hok]; exact .refl tree
      | ok result =>
          rw [run, hok]
          cases hpath : path.parent? with
          | none =>
              cases path <;> simp [Path.parent?, Path.delete, Path.replace] at hpath hok
          | some parent =>
              obtain ⟨id, rfl, hid⟩ := hstarts parent hpath
              exact h.keptAt hid (.refl tree) hpath hok
  | erase rules =>
      exact Erasure.kept_erase (motive := tree.Thins) (tree.Reaches root)
        (fun _ hid => h.keptAt hid)
        (fun hthins hid hchild => hid.tail (hthins.trims.children_subset _ hchild)) rules .refl
        (.refl tree)

theorem Runs.linked {calls : List Call} (hruns : Runs root tree calls out) (h : tree.Linked root) :
    out.Linked root := by
  induction hruns with
  | nil => exact h
  | cons hstarts _ ih => exact ih (h.thin (thins_run h hstarts))

end Call

/-- What can be reached in a source that has been read stays a tree through which paths, slots and
lists of descendants lead the same ways, whatever is removed from it and by whichever rules. -/
theorem navigable_of_runs {text : List Char} {fileName : Option String} {parsed : Parsed}
    (h : parse text fileName = .ok parsed) {calls : List Call} {out : Tree}
    (hruns : Call.Runs parsed.root parsed.tree calls out) : out.Navigable parsed.root :=
  (hruns.linked (wellFormed_of_parse h).linked).navigable

/-- The place of the second element moves up when the first one is removed. -/
theorem navigable_of_runs_array : ∃ parsed out,
    parse "[a, b]; type T = U;".toList none = .ok parsed ∧
      Call.Runs parsed.root parsed.tree
        [.erase .standard, .delete (.element (some 2) .elements 0)] out ∧
      out.Navigable parsed.root ∧ Path.of out (some 1) = .element (some 2) .elements 0 ∧
      out.descendants parsed.root = [parsed.root, 3, 2, 1] := by
  have hany : (parse "[a, b]; type T = U;".toList none).toOption.any fun parsed =>
      let erased := (parsed.tree.erase .standard parsed.root).1
      let out := Call.run parsed.root erased (.delete (.element (some 2) .elements 0))
      decide (3 ∈ erased.children parsed.root ∧ 2 ∈ erased.children 3 ∧
        Path.of out (some 1) = .element (some 2) .elements 0 ∧
        out.descendants parsed.root = [parsed.root, 3, 2, 1]) := by
    decide +kernel
  obtain ⟨parsed, hparse, hnodes⟩ := exists_parsed_of_any hany
  simp only [decide_eq_true_eq] at hnodes
  obtain ⟨hstatement, harray, hpath, hlist⟩ := hnodes
  have hreach : (parsed.tree.erase .standard parsed.root).1.Reaches parsed.root 2 :=
    .tail (.single hstatement) harray
  have hruns : Call.Runs parsed.root parsed.tree
      [.erase .standard, .delete (.element (some 2) .elements 0)] _ :=
    .cons trivial (.cons (fun _ hparent => ⟨2, (Option.some.inj hparent).symm, hreach⟩) .nil)
  exact ⟨parsed, _, hparse, hruns, navigable_of_runs hparse hruns, hpath, hlist⟩

end FlowErasure
