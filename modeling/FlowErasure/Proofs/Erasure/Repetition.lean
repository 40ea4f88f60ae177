import FlowErasure.Proofs.Erasure.Outcome
import FlowErasure.Proofs.Erasure.Removals
import FlowErasure.Proofs.Syntax.Descendants

/-!
# Erasing again

A node is settled when the rules would leave its slots as they are. A visit settles its node, and it
does not change a node that is settled already, whatever node it is a visit of. So everything a pass has
come to is settled at its end, also where a node is held in several places, and a second pass finds
nothing to do: each of its visits only counts itself.
-/

namespace FlowErasure

namespace Erasure

variable {rules : Rules} {tree a b c : Tree} {p : Progress} {id : NodeId} {node : Node} {depth : Nat}

/-! ## Settled nodes -/

/-- The rules have nothing to change in the slots of the node. -/
def Settled (rules : Rules) (tree : Tree) (id : NodeId) : Prop :=
  ∀ node, tree.get? id = some node → erasedSlots rules tree node = node.slots

theorem keptOf_keptOf (rules : Rules) (tree : Tree) (slot : Slot) :
    keptOf rules tree (keptOf rules tree slot) = keptOf rules tree slot := by
  cases slot with
  | absent => rfl
  | node child => by_cases h : isDeleted rules tree child <;> simp [keptOf, h]
  | list items => simp [keptOf]

/-- Applying the rules to slots that they have been applied to changes nothing. -/
theorem erasedSlot_erasedSlot (rules : Rules) (tree : Tree) (kind : NodeKind) (index : Nat)
    (slot : Slot) :
    erasedSlot rules tree kind index (erasedSlot rules tree kind index slot) =
      erasedSlot rules tree kind index slot := by
  unfold erasedSlot
  cases kind.schema[index]? with
  | none => rfl
  | some spec =>
      by_cases hstrips : rules.strips kind spec.field
      · simp [hstrips]
      · simp [hstrips, keptOf_keptOf]

/-- A field of a settled node is empty if the rules clear it, and holds nothing they delete. -/
theorem Settled.field (h : Settled rules tree id) (hget : tree.get? id = some node)
    {spec : FieldSpec} {slot : Slot} (hfield : (spec, slot) ∈ node.fields) :
    (if rules.strips node.kind spec.field then .absent else keptOf rules tree slot) = slot := by
  obtain ⟨index, hindex⟩ := List.mem_iff_getElem?.mp hfield
  obtain ⟨hspec, hslot⟩ := List.getElem?_zip_eq_some.mp hindex
  have herased : (erasedSlots rules tree node)[index]? = _ := getElem?_erasedSlots hspec
  rw [h node hget, hslot] at herased
  exact (Option.some.inj herased).symm

theorem settled_visit (rules : Rules) (id : NodeId) (p : Progress) :
    Settled rules (visit rules id p).tree id := by
  intro node' hget'
  cases hget : p.tree.get? id with
  | none =>
      rw [visit_none hget] at hget'
      cases hget.symm.trans hget'
  | some node =>
      obtain ⟨hsets, -⟩ := visit_some rules hget
      obtain ⟨other, hother, hkind, hslots⟩ := hsets.get? hget
      obtain rfl := Option.some.inj (hother.symm.trans hget')
      have herased : erasedSlots rules (visit rules id p).tree other =
          (erasedSlots rules p.tree node).mapIdx (erasedSlot rules p.tree node.kind) := by
        rw [← hslots, ← hkind]
        unfold erasedSlots erasedSlot
        simp only [keptOf_kin hsets.kin]
      rw [herased, hslots, erasedSlots, List.mapIdx_mapIdx]
      simp only [Function.comp_def, erasedSlot_erasedSlot]

/-! ## What a pass keeps -/

structure Upholds (rules : Rules) (a b : Tree) : Prop where
  kin : a.Kin b
  slots : ∀ id, Settled rules a id → b.slots id = a.slots id

namespace Upholds

theorem refl (rules : Rules) (a : Tree) : Upholds rules a a where
  kin := .refl a
  slots _ _ := rfl

theorem settled (h : Upholds rules a b) (hid : Settled rules a id) : Settled rules b id := by
  intro node' hget'
  obtain ⟨node, hget, hkin⟩ := h.kin.symm.get? hget'
  have hslots := h.slots id hid
  rw [Tree.slots_of_get? hget', Tree.slots_of_get? hget] at hslots
  rw [erasedSlots_congr h.kin rules hkin.kind hslots, hslots]
  exact hid node hget

theorem trans (h : Upholds rules a b) (h' : Upholds rules b c) : Upholds rules a c where
  kin := h.kin.trans h'.kin
  slots id hid := (h'.slots id (h.settled hid)).trans (h.slots id hid)

theorem children (h : Upholds rules a b) (hid : Settled rules a id) :
    b.children id = a.children id := by
  rw [Tree.children_eq, Tree.children_eq, h.slots id hid]

end Upholds

theorem upholds_visit (rules : Rules) (id : NodeId) (p : Progress) :
    Upholds rules p.tree (visit rules id p).tree := by
  cases hget : p.tree.get? id with
  | none => rw [visit_none hget]; exact .refl rules p.tree
  | some node =>
      obtain ⟨hsets, -⟩ := visit_some rules hget
      refine ⟨hsets.kin, fun i hi => ?_⟩
      rw [hsets.slots]
      by_cases heq : i = id
      · subst heq
        rw [if_pos rfl, Tree.slots_of_get? hget]
        exact hi node hget
      · rw [if_neg heq]

theorem upholds_passWithin (rules : Rules) (depth : Nat) (id : NodeId) (p : Progress) :
    Upholds rules p.tree (passWithin rules depth id p).tree := by
  induction depth generalizing id p with
  | zero => exact .refl rules p.tree
  | succ depth ih =>
      rw [passWithin]
      exact List.foldlRecOn (motive := fun q : Progress => Upholds rules p.tree q.tree) _ _
        (upholds_visit rules id p) fun q hq child _ => hq.trans (ih child q)

def passOver (rules : Rules) (depth : Nat) (ids : List NodeId) (p : Progress) : Progress :=
  ids.foldl (fun p child => passWithin rules depth child p) p

theorem passOver_cons (rules : Rules) (depth : Nat) (id : NodeId) (ids : List NodeId) (p : Progress) :
    passOver rules depth (id :: ids) p = passOver rules depth ids (passWithin rules depth id p) :=
  rfl

theorem passWithin_succ (rules : Rules) (depth : Nat) (id : NodeId) (p : Progress) :
    passWithin rules (depth + 1) id p =
      passOver rules depth ((visit rules id p).tree.children id) (visit rules id p) :=
  rfl

theorem upholds_passOver (rules : Rules) (depth : Nat) (ids : List NodeId) (p : Progress) :
    Upholds rules p.tree (passOver rules depth ids p).tree :=
  List.foldlRecOn (motive := fun q : Progress => Upholds rules p.tree q.tree) _ _
    (.refl rules p.tree) fun q hq child _ => hq.trans (upholds_passWithin rules depth child q)

/-! ## Settled down to a depth -/

def SettledWithin (rules : Rules) (tree : Tree) : Nat → NodeId → Prop
  | 0, _ => True
  | depth + 1, id =>
    Settled rules tree id ∧ ∀ child ∈ tree.children id, SettledWithin rules tree depth child

theorem SettledWithin.uphold (h : SettledWithin rules a depth id) (hab : Upholds rules a b) :
    SettledWithin rules b depth id := by
  induction depth generalizing id with
  | zero => trivial
  | succ depth ih =>
      refine ⟨hab.settled h.1, fun child hchild => ih (h.2 child ?_)⟩
      rwa [hab.children h.1] at hchild

theorem SettledWithin.descendantsOnto_eq (h : SettledWithin rules a depth id)
    (hab : Upholds rules a b) : b.descendantsOnto depth id [] = a.descendantsOnto depth id [] := by
  induction depth generalizing id with
  | zero => rfl
  | succ depth ih =>
      cases hget : a.get? id with
      | none =>
          have hget' : b.get? id = none := by simpa [hget] using hab.kin.isSome id
          rw [Tree.descendantsOnto_none hget, Tree.descendantsOnto_none hget']
      | some node =>
          obtain ⟨node', hget', -⟩ := hab.kin.get? hget
          have hchildren := hab.children h.1
          rw [Tree.descendantsOnto_succ hget, Tree.descendantsOnto_succ hget',
            ← Tree.children_of_get? hget, ← Tree.children_of_get? hget', hchildren]
          exact congrArg (id :: ·) (List.flatMap_congr fun child hchild => ih (h.2 child hchild))

/-- At the end of the pass `q` a node is settled down to `depth`, and since `p` the pass has counted a
visit for each way down from it. -/
structure Settles (rules : Rules) (depth : Nat) (ids : List NodeId) (p q : Progress) : Prop where
  settled : ∀ id ∈ ids, SettledWithin rules q.tree depth id
  visited : q.stats.visited = p.stats.visited +
    (ids.flatMap fun id => q.tree.descendantsOnto depth id []).length

/-- The passes below some nodes settle what each of them comes to, because the later ones uphold what
the earlier ones have settled. -/
theorem settles_passOver {rules : Rules} {depth : Nat}
    (hpass : ∀ id p, Settles rules depth [id] p (passWithin rules depth id p)) (ids : List NodeId)
    (p : Progress) : Settles rules depth ids p (passOver rules depth ids p) := by
  induction ids generalizing p with
  | nil => exact ⟨by simp, rfl⟩
  | cons id ids ih =>
      have hfirst := hpass id p
      have hrest := ih (passWithin rules depth id p)
      have hupholds := upholds_passOver rules depth ids (passWithin rules depth id p)
      have hid := hfirst.settled id (List.mem_singleton_self id)
      rw [passOver_cons]
      constructor
      · intro i hi
        rcases List.mem_cons.mp hi with rfl | hi
        · exact hid.uphold hupholds
        · exact hrest.settled i hi
      · have hvisited := hfirst.visited
        rw [List.flatMap_singleton, ← hid.descendantsOnto_eq hupholds] at hvisited
        rw [List.flatMap_cons, List.length_append, ← Nat.add_assoc, ← hvisited]
        exact hrest.visited

theorem settles_passWithin (rules : Rules) (depth : Nat) (id : NodeId) (p : Progress) :
    Settles rules depth [id] p (passWithin rules depth id p) := by
  induction depth generalizing id p with
  | zero => exact ⟨fun _ _ => trivial, by simp [passWithin, Tree.descendantsOnto]⟩
  | succ depth ih =>
      have hupholds := upholds_passOver rules depth ((visit rules id p).tree.children id)
        (visit rules id p)
      have hbelow := settles_passOver ih ((visit rules id p).tree.children id) (visit rules id p)
      have hsettled := settled_visit rules id p
      have hchildren := hupholds.children hsettled
      rw [passWithin_succ]
      generalize passOver rules depth _ (visit rules id p) = q at hupholds hbelow hchildren
      constructor
      · intro i hi
        rw [List.mem_singleton] at hi
        subst hi
        exact ⟨hupholds.settled hsettled, fun child hchild => hbelow.settled child (hchildren ▸ hchild)⟩
      · rw [List.flatMap_singleton, hbelow.visited, ← hchildren]
        cases hget : p.tree.get? id with
        | none =>
            have hvisit : visit rules id p = p := visit_none hget
            rw [hvisit] at hupholds ⊢
            have hget' : q.tree.get? id = none := by simpa [hget] using hupholds.kin.isSome id
            rw [Tree.descendantsOnto_none hget', Tree.children_of_none hget']
            rfl
        | some node =>
            obtain ⟨hsets, hstats⟩ := visit_some rules hget
            obtain ⟨node', hget', -⟩ := (hsets.kin.trans hupholds.kin).get? hget
            rw [hstats, Tree.children_of_get? hget', Tree.descendantsOnto_succ hget']
            simp only [List.length_cons]
            omega

/-! ## A second pass -/

theorem clearField_of_settled (h : Settled rules p.tree id) (hget : p.tree.get? id = some node)
    {field : Field} (hfield : rules.strips node.kind field) : p.clearField id field = p := by
  cases hindex : node.kind.fieldIndex? field with
  | none => exact clearField_none hget hindex
  | some index =>
      obtain ⟨spec, hspec, rfl⟩ := NodeKind.exists_of_fieldIndex? hindex
      have hsame : p.tree.replaceSlot id index .absent = (false, p.tree) := by
        refine Tree.replaceSlot_same hget fun slot hslot => ?_
        have hmem : (spec, slot) ∈ node.fields :=
          List.mem_iff_getElem?.mpr ⟨index, List.getElem?_zip_eq_some.mpr ⟨hspec, hslot⟩⟩
        have hsettled := h.field hget hmem
        rw [if_pos hfield] at hsettled
        exact hsettled.symm
      unfold Progress.clearField
      rw [Path.delete_field hget hindex, hsame]

theorem deletedIn_of_kept {field : Field} {slot : Slot} (h : keptOf rules tree slot = slot) :
    deletedIn rules tree id field slot = [] := by
  cases slot with
  | absent => rfl
  | node child =>
      by_cases hdeleted : isDeleted rules tree child
      · simp [keptOf, hdeleted] at h
      · simp [deletedIn, hdeleted]
  | list items =>
      have hkept : items.nodes.filter (!isDeleted rules tree ·) = items.nodes :=
        congrArg NodeList.nodes (Slot.list.inj h)
      rw [List.filter_eq_self] at hkept
      simp only [deletedIn, List.map_eq_nil_iff, List.filter_eq_nil_iff]
      rintro ⟨child, index⟩ hmem
      have hchild : child ∈ items.nodes := by
        obtain ⟨-, -, hat⟩ := List.mem_zipIdx (List.mem_reverse.mp hmem)
        exact hat ▸ List.getElem_mem _
      simpa using hkept child hchild

def counting (p : Progress) (n : Nat) : Progress :=
  { p with stats := { p.stats with visited := p.stats.visited + n } }

theorem tree_counting (p : Progress) (n : Nat) : (counting p n).tree = p.tree :=
  rfl

theorem counting_counting (p : Progress) (m n : Nat) :
    counting (counting p m) n = counting p (m + n) := by
  simp only [counting, Nat.add_assoc]

theorem visit_of_settled (h : Settled rules p.tree id) (hget : p.tree.get? id = some node) :
    visit rules id p = counting p 1 := by
  have hclear : (counting p 1).clearFields rules id node.kind = counting p 1 := by
    rw [clearFields_eq]
    refine List.foldlRecOn (motive := (· = counting p 1)) _ _ rfl ?_
    rintro _ rfl field hfield
    exact clearField_of_settled (p := counting p 1) h hget (List.contains_iff_mem.mpr hfield)
  have hdelete : deletedChildren rules p.tree id node = [] := by
    rw [deletedChildren, List.flatMap_eq_nil_iff]
    rintro ⟨spec, slot⟩ hfield
    have hsettled := h.field hget hfield
    by_cases hstrips : rules.strips node.kind spec.field
    · rw [if_pos hstrips] at hsettled
      rw [← hsettled]
      rfl
    · rw [if_neg hstrips] at hsettled
      exact deletedIn_of_kept hsettled
  unfold visit
  simp only [hget]
  have hcounting : ({ p with stats := { p.stats with visited := p.stats.visited + 1 } } : Progress) =
      counting p 1 := rfl
  rw [hcounting, hclear, tree_counting, hget]
  simp only [hdelete, List.foldl_nil]

/-- The passes below some settled nodes only count their visits. -/
theorem passOver_of_settled
    (hpass : ∀ id p, SettledWithin rules p.tree depth id → passWithin rules depth id p =
      counting p (p.tree.descendantsOnto depth id []).length)
    {ids : List NodeId} (h : ∀ id ∈ ids, SettledWithin rules p.tree depth id) :
    passOver rules depth ids p =
      counting p (ids.flatMap fun id => p.tree.descendantsOnto depth id []).length := by
  induction ids generalizing p with
  | nil => rfl
  | cons id ids ih =>
      rw [List.forall_mem_cons] at h
      rw [passOver_cons, hpass id p h.1, ih (p := counting p _) h.2, counting_counting,
        tree_counting, List.flatMap_cons, List.length_append]

theorem passWithin_of_settled (id : NodeId) (p : Progress) (h : SettledWithin rules p.tree depth id) :
    passWithin rules depth id p = counting p (p.tree.descendantsOnto depth id []).length := by
  induction depth generalizing id p with
  | zero => rfl
  | succ depth ih =>
      rw [passWithin_succ]
      cases hget : p.tree.get? id with
      | none =>
          rw [visit_none hget, Tree.children_of_none hget, Tree.descendantsOnto_none hget]
          rfl
      | some node =>
          have hbelow : ∀ child ∈ p.tree.children id,
              SettledWithin rules (counting p 1).tree depth child := h.2
          rw [visit_of_settled h.1 hget, tree_counting, passOver_of_settled ih hbelow,
            counting_counting, tree_counting, Tree.descendantsOnto_succ hget,
            ← Tree.children_of_get? hget, List.length_cons, Nat.add_comm 1]

theorem erase_of_isDeleted {root : NodeId} (h : isDeleted rules tree root) :
    tree.erase rules root = (tree, {}) := by
  unfold Tree.erase
  cases hget : tree.get? root with
  | none => simp [isDeleted, Tree.lookup?, hget] at h
  | some node =>
      have hdeletes : rules.deletes node.kind := by simpa [isDeleted, Tree.lookup?, hget] using h
      simp [Tree.kind?, hget, hdeletes]

/-- Erasing once more changes nothing at all, whatever the rules and however often a node is held. Each
pass visits a node once for every way down to it that there is at the end. -/
theorem erase_erase (tree : Tree) (rules : Rules) (root : NodeId)
    (hacyclic : tree.IsAcyclicBelow root) :
    let out := (tree.erase rules root).1
    let stats := (tree.erase rules root).2
    out.erase rules root = (out, { visited := stats.visited, deleted := 0, cleared := 0 }) ∧
      (isDeleted rules tree root = false →
        stats.visited = (out.descendants root).length ∧
          ∀ i, i ∈ out.descendants root ↔ out.Reaches root i ∧ i < out.size) := by
  intro out stats
  have hrest : out.IsAcyclicBelow root :=
    hacyclic.of_subset (trims_erase tree rules root).children_subset
  cases hroot : isDeleted rules tree root with
  | true =>
      have hsame : (out, stats) = (tree, {}) := erase_of_isDeleted hroot
      obtain ⟨hout, hstats⟩ := Prod.mk.inj hsame
      rw [hout, hstats, erase_of_isDeleted hroot]
      exact ⟨rfl, nofun⟩
  | false =>
      have hsettles := settles_passWithin rules tree.size root { tree }
      have hkin := (upholds_passWithin rules tree.size root { tree }).kin
      have hpass : (out, stats) = _ := erase_eq_passWithin hroot
      generalize passWithin rules tree.size root { tree } = first at hsettles hkin hpass
      obtain ⟨hout, hstats⟩ := Prod.mk.inj hpass
      have hsize : tree.size = first.tree.size := hkin.size
      have hroot' : isDeleted rules first.tree root = false := by rwa [isDeleted_kin hkin]
      have hsettled := hsettles.settled root (List.mem_singleton_self root)
      have hvisited : stats.visited = (first.tree.descendants root).length := by
        have hcount := hsettles.visited
        rwa [List.flatMap_singleton, hsize, Nat.zero_add, ← hstats] at hcount
      rw [hout] at hrest ⊢
      rw [hsize] at hsettled
      refine ⟨?_, fun _ => ⟨hvisited, fun i => Tree.mem_descendants hrest .refl⟩⟩
      rw [erase_eq_passWithin hroot', passWithin_of_settled root { tree := first.tree } hsettled]
      simp only [counting, Nat.zero_add]
      rw [hvisited]
      rfl

/-- A program that holds one name with a type twice, around a hole and a type alias. -/
def shared : Tree :=
  let tree := Tree.empty
  let (type, tree) := tree.add { kind := .ascription, start := 1, stop := 5, slots := [] }
  let (name, tree) := tree.add
    { kind := .identifier, start := 0, stop := 5, slots := [.absent, .node type] }
  let (declared, tree) := tree.add { kind := .typeAlias, start := 6, stop := 9, slots := [] }
  let body := Slot.list ⟨[some name, none, some declared, some name], 0, 9⟩
  (tree.add { kind := .program, start := 0, stop := 9, slots := [body] }).2

/-- Rules with a field that identifiers do not have, and with one field twice. -/
def crooked : Rules :=
  Rules.standard.withAction .identifier (.strip [.ascription, .implements, .ascription])

theorem erase_erase_shared :
    (shared.erase crooked 3).2 = { visited := 3, deleted := 1, cleared := 1 } ∧
      (shared.erase crooked 3).1.erase crooked 3 =
        ((shared.erase crooked 3).1, { visited := 3, deleted := 0, cleared := 0 }) := by
  have hlt : ∀ a < shared.size, ∀ b ∈ shared.children a, b < a := by decide
  have hacyclic : shared.IsAcyclicBelow 3 :=
    Tree.isAcyclicBelow_of_lt 3 fun a b hab => hlt a (Tree.lt_size_of_holds hab) b hab
  have hstats : (shared.erase crooked 3).2 = { visited := 3, deleted := 1, cleared := 1 } := by
    decide
  have hagain := (erase_erase shared crooked 3 hacyclic).1
  rw [hstats] at hagain
  exact ⟨hstats, hagain⟩

end Erasure

end FlowErasure
