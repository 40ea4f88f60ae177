import FlowErasure.Layout.Print
import FlowErasure.Proofs.Grammar.Program
import FlowErasure.Proofs.Syntax.Rising

/-!
# Clearing fields

What clearing some fields leaves of a table depends on which fields they are and not on their order.
`Tree.Cleared` says what is left, node by node: the cleared slots are empty, a node with one of them
keeps the slots it had, and the nodes on the way up from it are marked.
-/

namespace FlowErasure

structure Node.Cleared (gone : Nat → Prop) (below : Prop) (old node : Node) : Prop where
  rest : node = { old with slots := node.slots, marks := node.marks, before := node.before }
  slots_gone : ∀ index, gone index → node.slots[index]? = some .absent
  slots_rest : ∀ index, ¬gone index → node.slots[index]? = old.slots[index]?
  own : node.marks.own ↔ ∃ index, gone index
  below : node.marks.below ↔ below
  before_gone : (∃ index, gone index) → node.before = some old.slots
  before_rest : (¬∃ index, gone index) → node.before = none

namespace Node.Cleared

variable {gone : Nat → Prop} {below : Prop} {old node node' : Node} {index : Nat}

theorem refl (hmarks : node.marks = {}) (hbefore : node.before = none) :
    node.Cleared (fun _ => False) False node where
  rest := rfl
  slots_gone _ h := h.elim
  slots_rest _ _ := rfl
  own := by simp [hmarks]
  below := by simp [hmarks]
  before_gone h := by simp at h
  before_rest _ := hbefore

theorem congr {gone' : Nat → Prop} {below' : Prop} (h : old.Cleared gone below node)
    (hgone : ∀ index, gone' index ↔ gone index) (hbelow : below' ↔ below) :
    old.Cleared gone' below' node := by
  obtain rfl : gone' = gone := funext fun index => propext (hgone index)
  obtain rfl : below' = below := propext hbelow
  exact h

theorem unique (h : old.Cleared gone below node) (h' : old.Cleared gone below node') :
    node = node' := by
  have hslots : node.slots = node'.slots := by
    apply List.ext_getElem?
    intro index
    by_cases hindex : gone index
    · rw [h.slots_gone index hindex, h'.slots_gone index hindex]
    · rw [h.slots_rest index hindex, h'.slots_rest index hindex]
  have hown : node.marks.own = node'.marks.own := Bool.eq_iff_iff.mpr (h.own.trans h'.own.symm)
  have hbelow : node.marks.below = node'.marks.below :=
    Bool.eq_iff_iff.mpr (h.below.trans h'.below.symm)
  have hmarks : node.marks = node'.marks := by
    cases hnode : node.marks
    cases hnode' : node'.marks
    simp_all
  have hbefore : node.before = node'.before := by
    by_cases hany : ∃ index, gone index
    · rw [h.before_gone hany, h'.before_gone hany]
    · rw [h.before_rest hany, h'.before_rest hany]
  rw [h.rest, h'.rest, hslots, hmarks, hbefore]

theorem change (h : old.Cleared gone below node) (hlt : index < node.slots.length) :
    old.Cleared (fun j => gone j ∨ j = index) below (node.change index .absent) where
  rest := by
    rw [h.rest]
    rfl
  slots_gone j hj := by
    rw [Node.change, List.getElem?_set]
    by_cases hindex : index = j
    · simp [← hindex, hlt]
    · simpa [hindex] using h.slots_gone j (hj.resolve_right fun heq => hindex heq.symm)
  slots_rest j hj := by
    have hindex : index ≠ j := fun heq => hj (.inr heq.symm)
    simpa [Node.change, hindex] using h.slots_rest j fun hgone => hj (.inl hgone)
  own := by
    simp only [Node.change, true_iff]
    exact ⟨index, .inr rfl⟩
  below := h.below
  before_gone _ := by
    by_cases hany : ∃ index, gone index
    · simp [Node.change, h.before_gone hany]
    · -- The first change of the node: until now its slots are the ones it started with.
      have hslots : node.slots = old.slots :=
        List.ext_getElem? fun j => h.slots_rest j fun hj => hany ⟨j, hj⟩
      simp [Node.change, h.before_rest hany, hslots]
  before_rest hnone := (hnone ⟨index, .inr rfl⟩).elim

/-- The node is marked because something below it has changed. -/
theorem marking {marked : Bool} {below' : Prop} (h : old.Cleared gone below node)
    (hbelow : (node.marking marked).marks.below ↔ below') :
    old.Cleared gone below' (node.marking marked) where
  rest := by
    rw [h.rest]
    rfl
  slots_gone := h.slots_gone
  slots_rest := h.slots_rest
  own := h.own
  below := hbelow
  before_gone := h.before_gone
  before_rest := h.before_rest

theorem parent (h : old.Cleared gone below node) : node.parent = old.parent := by
  rw [h.rest]

theorem kind (h : old.Cleared gone below node) : node.kind = old.kind := by
  rw [h.rest]

end Node.Cleared

namespace Tree

variable {start tree tree' : Tree} {gone : NodeId → Nat → Prop} {id : NodeId} {index : Nat}

def Unchanged (tree : Tree) : Prop :=
  ∀ {id : NodeId} {node : Node}, tree.get? id = some node → node.marks = {} ∧ node.before = none

/-! ### One slot -/

section

variable {field : Field} {i : NodeId} {node new : Node}

/-- An empty value has no nodes to adopt, so one node changes. -/
theorem get?_exchanged_absent (tree : Tree) (id : NodeId) (index : Nat) (field : Field)
    (i : NodeId) : (tree.exchanged id index .absent field).get? i =
      (tree.get? i).map fun node => if i = id then node.change index .absent else node := by
  rw [get?_exchanged]
  congr 1
  funext node
  split <;> rfl

theorem parentId?_exchanged_absent (tree : Tree) (id : NodeId) (index : Nat) (field : Field)
    (i : NodeId) : (tree.exchanged id index .absent field).parentId? i = tree.parentId? i := by
  rw [parentId?, parentId?, get?_exchanged_absent]
  cases tree.get? i with
  | none => rfl
  | some node =>
      by_cases hi : i = id
      · simp [hi, Node.change]
      · simp [hi]

theorem below_exchanged_absent (hget : tree.get? i = some node)
    (hnew : (tree.exchanged id index .absent field).get? i = some new) :
    new.marks.below = node.marks.below := by
  rw [get?_exchanged_absent, hget] at hnew
  obtain rfl := Option.some.inj hnew
  split <;> rfl

end

structure Cleared (start : Tree) (gone : NodeId → Nat → Prop) (tree : Tree) : Prop where
  names : tree.names = start.names
  size : tree.size = start.size
  node : ∀ {id : NodeId} {old node : Node}, start.get? id = some old → tree.get? id = some node →
    old.Cleared (gone id) (∃ n index, gone n index ∧ start.Rises (start.parentId? n) id) node

namespace Cleared

theorem refl (h : start.Unchanged) : start.Cleared (fun _ _ => False) start where
  names := rfl
  size := rfl
  node {id old node} hold hget := by
    obtain rfl := Option.some.inj (hold.symm.trans hget)
    exact (Node.Cleared.refl (h hget).1 (h hget).2).congr (fun _ => .rfl) (by simp)

theorem congr {gone' : NodeId → Nat → Prop} (h : start.Cleared gone tree)
    (hgone : ∀ id index, gone' id index ↔ gone id index) : start.Cleared gone' tree := by
  obtain rfl : gone' = gone := funext fun id => funext fun index => propext (hgone id index)
  exact h

theorem exists_node (h : start.Cleared gone tree) {old : Node} (hold : start.get? id = some old) :
    ∃ node, tree.get? id = some node :=
  exists_get? (h.size ▸ lt_size_of_get? hold)

theorem exists_old (h : start.Cleared gone tree) {node : Node} (hget : tree.get? id = some node) :
    ∃ old, start.get? id = some old :=
  exists_get? (h.size ▸ lt_size_of_get? hget)

/-- The slots that have been cleared say all about the table. -/
theorem unique (h : start.Cleared gone tree) (h' : start.Cleared gone tree') : tree = tree' := by
  have hnames : tree.names = tree'.names := h.names.trans h'.names.symm
  have hsize : tree.size = tree'.size := h.size.trans h'.size.symm
  have hnodes : tree.nodes = tree'.nodes := by
    apply Array.ext hsize
    intro i hi hi'
    obtain ⟨old, hold⟩ := h.exists_old (Array.getElem?_eq_getElem hi)
    exact (h.node hold (Array.getElem?_eq_getElem hi)).unique
      (h'.node hold (Array.getElem?_eq_getElem hi'))
  cases tree
  cases tree'
  simp_all

theorem parentId? (h : start.Cleared gone tree) (i : NodeId) :
    tree.parentId? i = start.parentId? i := by
  rw [Tree.parentId?, Tree.parentId?]
  cases hold : start.get? i with
  | none =>
      cases hget : tree.get? i with
      | none => rfl
      | some node =>
          obtain ⟨old, hsome⟩ := h.exists_old hget
          rw [hold] at hsome
          cases hsome
  | some old =>
      obtain ⟨node, hget⟩ := h.exists_node hold
      rw [hget, Option.bind_some, Option.bind_some, (h.node hold hget).parent]

theorem belowUp (h : start.Cleared gone tree) : tree.BelowUp none := by
  intro i p node parent hget hbelow hp hparent
  obtain ⟨old, hold⟩ := h.exists_old hget
  obtain ⟨oldParent, holdParent⟩ := h.exists_old hparent
  obtain ⟨n, index, hgone, hrises⟩ := (h.node hold hget).below.mp hbelow
  rw [h.parentId?] at hp
  exact .inl ((h.node holdParent hparent).below.mpr ⟨n, index, hgone, hrises.tail hp⟩)

theorem belowUp_exchanged (h : start.Cleared gone tree) (above : Option NodeId) (field : Field) :
    (tree.exchanged id index .absent field).BelowUp above := by
  intro i p new parent hnew hbelow hp hparent
  left
  rw [parentId?_exchanged_absent] at hp
  obtain ⟨child, hchild, -⟩ :=
    Option.map_eq_some_iff.mp ((get?_exchanged_absent ..).symm.trans hnew)
  obtain ⟨other, hother, -⟩ :=
    Option.map_eq_some_iff.mp ((get?_exchanged_absent ..).symm.trans hparent)
  rw [below_exchanged_absent hother hparent]
  rw [below_exchanged_absent hchild hnew] at hbelow
  exact (h.belowUp hchild hbelow hp hother).resolve_right (by simp)

theorem replaces (h : start.Cleared gone tree) {node : Node} {spec : FieldSpec}
    (hreplaces : tree.Replaces id index .absent node spec) :
    start.Cleared (fun i j => gone i j ∨ (i = id ∧ j = index))
      (tree.replaceSlot id index .absent).2 := by
  have hclimbs := hreplaces.climbs
  obtain ⟨marked, hmarked⟩ := hreplaces.get?
  have hparent : ∀ i, (tree.exchanged id index .absent spec.field).parentId? i =
      start.parentId? i :=
    fun i => (parentId?_exchanged_absent ..).trans (h.parentId? i)
  refine ⟨hclimbs.names.trans ((names_exchanged ..).trans h.names), ?_, ?_⟩
  · rw [size_replaceSlot, h.size]
  · intro i old new hold hnew
    obtain ⟨node', hget⟩ := h.exists_node hold
    have hcleared := h.node hold hget
    have hmid := get?_exchanged_absent tree id index spec.field i
    rw [hget, Option.map_some] at hmid
    have hiff := hclimbs.below_iff (h.belowUp_exchanged _ _) hmid hnew
    rw [below_exchanged_absent hget hmid, hcleared.below, hparent, rises_congr hparent] at hiff
    have hbelow' : (∃ n j, (gone n j ∨ (n = id ∧ j = index)) ∧
        start.Rises (start.parentId? n) i) ↔ new.marks.below := by
      rw [hiff]
      constructor
      · rintro ⟨n, j, hgone | ⟨rfl, rfl⟩, hrises⟩
        · exact .inl ⟨n, j, hgone, hrises⟩
        · exact .inr hrises
      · rintro (⟨n, j, hgone, hrises⟩ | hrises)
        · exact ⟨n, j, .inl hgone, hrises⟩
        · exact ⟨id, index, .inr ⟨rfl, rfl⟩, hrises⟩
    rw [hmarked, hget] at hnew
    obtain rfl := Option.some.inj hnew
    by_cases hi : i = id
    · subst hi
      obtain rfl := Option.some.inj (hget.symm.trans hreplaces.get)
      simp only [if_true, Slot.children, List.not_mem_nil, if_false] at hbelow' ⊢
      exact ((hcleared.change hreplaces.inBounds).marking hbelow'.symm).congr (by simp) .rfl
    · simp only [hi, if_false, Slot.children, List.not_mem_nil] at hbelow' ⊢
      exact (hcleared.marking hbelow'.symm).congr (by simp) .rfl

end Cleared

def Clears (tree : Tree) (path : Path) (id : NodeId) (index : Nat) : Prop :=
  ∃ field node slot, path = .field (some id) field ∧ tree.get? id = some node ∧
    node.kind.fieldIndex? field = some index ∧ node.slots[index]? = some slot ∧ slot ≠ .absent

/-- A field can be cleared once. -/
theorem Cleared.clears_iff (h : start.Cleared gone tree) {path : Path} :
    tree.Clears path id index ↔ start.Clears path id index ∧ ¬gone id index := by
  constructor
  · rintro ⟨field, node, slot, rfl, hget, hplace, hslot, hne⟩
    obtain ⟨old, hold⟩ := h.exists_old hget
    have hcleared := h.node hold hget
    have hgone : ¬gone id index := by
      intro hgone
      rw [hcleared.slots_gone index hgone] at hslot
      exact hne (Option.some.inj hslot).symm
    rw [hcleared.slots_rest index hgone] at hslot
    rw [hcleared.kind] at hplace
    exact ⟨⟨field, old, slot, rfl, hold, hplace, hslot, hne⟩, hgone⟩
  · rintro ⟨⟨field, old, slot, rfl, hold, hplace, hslot, hne⟩, hgone⟩
    obtain ⟨node, hget⟩ := h.exists_node hold
    have hcleared := h.node hold hget
    rw [← hcleared.slots_rest index hgone] at hslot
    rw [← hcleared.kind] at hplace
    exact ⟨field, node, slot, rfl, hget, hplace, hslot, hne⟩

end Tree

namespace Path

variable {start tree : Tree} {gone : NodeId → Nat → Prop} {path : Path} {paths paths' : List Path}

def isField : Path → Bool
  | .field _ _ => true
  | _ => false

def deleted (tree : Tree) (path : Path) : Tree :=
  ((path.delete tree).toOption.map (·.2)).getD tree

/-- Removing a field replaces its slot if something is there, and does nothing otherwise. -/
theorem deleted_cases (tree : Tree) (hfield : path.isField) :
    (path.deleted tree = tree ∧ ∀ id index, ¬tree.Clears path id index) ∨
      ∃ id index node spec, tree.Replaces id index .absent node spec ∧
        path.deleted tree = (tree.replaceSlot id index .absent).2 ∧
        ∀ i j, tree.Clears path i j ↔ i = id ∧ j = index := by
  rcases path with _ | ⟨_ | id, field⟩ | _
  · cases hfield
  · exact .inl ⟨rfl, fun _ _ ⟨_, _, _, heq, _⟩ => nomatch heq⟩
  · cases hget : tree.get? id with
    | none =>
        refine .inl ⟨?_, ?_⟩
        · simp [deleted, delete, replace, locate_missing hget, bind, Except.bind, Except.toOption]
        · rintro _ _ ⟨_, _, _, heq, hsome, _⟩
          cases heq
          cases hget.symm.trans hsome
    | some node =>
        cases hindex : node.kind.fieldIndex? field with
        | none =>
            refine .inl ⟨?_, ?_⟩
            · simp [deleted, delete_field_none hget hindex, Except.toOption]
            · rintro _ _ ⟨_, _, _, heq, hsome, hplace, _⟩
              cases heq
              obtain rfl := Option.some.inj (hget.symm.trans hsome)
              cases hindex.symm.trans hplace
        | some index =>
            have heq : (Path.field (some id) field).deleted tree =
                (tree.replaceSlot id index .absent).2 := by
              simp [deleted, delete_field hget hindex, Except.toOption]
            rcases tree.replaceSlot_cases id index .absent with hsame | ⟨other, spec, hreplaces, -⟩
            · refine .inl ⟨by rw [heq, hsame], ?_⟩
              rintro _ _ ⟨_, _, slot, heq, hsome, hplace, hslot, hne⟩
              cases heq
              obtain rfl := Option.some.inj (hget.symm.trans hsome)
              obtain rfl := Option.some.inj (hplace.symm.trans hindex)
              obtain ⟨spec, hspec, -⟩ := NodeKind.exists_of_fieldIndex? hindex
              have hlt := (List.getElem?_eq_some_iff.mp hslot).choose
              have htrue := (Tree.replaceSlot_fst hget hspec .absent).mpr ⟨hlt, by simpa [hslot]⟩
              rw [hsame] at htrue
              cases htrue
            · refine .inr ⟨id, index, other, spec, hreplaces, heq, fun i j => ⟨?_, ?_⟩⟩
              · rintro ⟨_, _, _, heq, hsome, hplace, _⟩
                cases heq
                obtain rfl := Option.some.inj (hget.symm.trans hsome)
                exact ⟨rfl, Option.some.inj (hplace.symm.trans hindex)⟩
              · rintro ⟨rfl, rfl⟩
                obtain rfl := Option.some.inj (hget.symm.trans hreplaces.get)
                have hslot := List.getElem?_eq_getElem hreplaces.inBounds
                refine ⟨field, node, _, rfl, hget, hindex, hslot, fun habsent => ?_⟩
                exact hreplaces.differs (hslot.trans (congrArg some habsent))
  · cases hfield

/-- Removing a field clears its slot, if something is there. -/
theorem cleared_deleted (h : start.Cleared gone tree) (hfield : path.isField) :
    start.Cleared (fun id index => gone id index ∨ start.Clears path id index)
      (path.deleted tree) := by
  rcases path.deleted_cases tree hfield with
    ⟨heq, hnot⟩ | ⟨id, index, node, spec, hreplaces, heq, hiff⟩
  · rw [heq]
    refine h.congr fun i j => ⟨fun hor => hor.elim (fun hgone => hgone) fun hclears => ?_, .inl⟩
    by_contra hgone
    exact hnot i j (h.clears_iff.mpr ⟨hclears, hgone⟩)
  · rw [heq]
    refine (h.replaces hreplaces).congr fun i j => ?_
    rw [← hiff, h.clears_iff]
    tauto

theorem cleared_deleteEach (h : start.Cleared gone tree) (hfields : ∀ path ∈ paths, path.isField) :
    start.Cleared (fun id index => gone id index ∨ ∃ path ∈ paths, start.Clears path id index)
      (deleteEach tree paths) := by
  induction paths generalizing tree gone with
  | nil => exact h.congr (by simp)
  | cons path paths ih =>
      have hfirst := cleared_deleted h (hfields path List.mem_cons_self)
      exact (ih hfirst fun other hother => hfields other (List.mem_cons_of_mem path hother)).congr
        (by simp [or_assoc])

/-- Two lists with the same paths to fields leave the same table. -/
theorem deleteEach_congr (h : start.Unchanged) (hfields : ∀ path ∈ paths, path.isField)
    (hsame : ∀ path, path ∈ paths' ↔ path ∈ paths) :
    deleteEach start paths' = deleteEach start paths := by
  have hfields' : ∀ path ∈ paths', path.isField := fun path hpath =>
    hfields path ((hsame path).mp hpath)
  refine Tree.Cleared.unique (cleared_deleteEach (.refl h) hfields') ?_
  exact (cleared_deleteEach (.refl h) hfields).congr (by simp [hsame])

end Path

/-- In whatever order fields are removed from a table that nodes have only been added to, and
however often, the same table is left: the same slots, the same kept slots, marks and parents. So a
source from which fields have been removed is laid out in the same way, with the same map. Some of
the fields may be those of nodes that the removal of others has already taken out of the tree. -/
theorem deleteEach_reordered {paths paths' : List Path} (hfields : ∀ path ∈ paths, path.isField)
    (hsame : ∀ path, path ∈ paths' ↔ path ∈ paths) :
    (∀ start : Tree, start.Built → Path.deleteEach start paths' = Path.deleteEach start paths) ∧
      ∀ (text : List Char) (fileName : Option String) (parsed : Parsed),
        parse text fileName = .ok parsed →
        Path.deleteEach parsed.tree paths' = Path.deleteEach parsed.tree paths ∧
        ∀ options : PrintOptions,
          { parsed with tree := Path.deleteEach parsed.tree paths' }.print options =
            { parsed with tree := Path.deleteEach parsed.tree paths }.print options := by
  refine ⟨fun start hbuilt => ?_, fun text fileName parsed hparse => ?_⟩
  · exact Path.deleteEach_congr (fun hget => hbuilt.unchanged hget) hfields hsame
  · obtain ⟨-, -, hread⟩ := readFrom_of_parse hparse
    have hunchanged : parsed.tree.Unchanged := fun hget => (hread.shape hget).unmarked
    have htree := Path.deleteEach_congr hunchanged hfields hsame
    exact ⟨htree, fun options => by rw [htree]⟩

/-- An operation in an operation: the outer operand takes the inner operation with it. -/
theorem deleteEach_reordered_operations :
    (∀ path ∈ [Path.field (some 1) .argument, .field (some 2) .argument], path.isField) ∧
      Change.operations.Built ∧
      Path.deleteEach Change.operations [.field (some 2) .argument, .field (some 1) .argument] =
        Path.deleteEach Change.operations [.field (some 1) .argument, .field (some 2) .argument] ∧
      (Path.deleteEach Change.operations
        [.field (some 2) .argument, .field (some 1) .argument]).dirtyNodes = [1, 2] ∧
      ∃ parsed, parse "!-a".toList none = .ok parsed ∧
        { parsed with
          tree := Path.deleteEach parsed.tree
            [.field (some 2) .argument, .field (some 1) .argument] }.print {} =
        { parsed with
          tree := Path.deleteEach parsed.tree
            [.field (some 1) .argument, .field (some 2) .argument] }.print {} := by
  have hfields : ∀ path ∈ [Path.field (some 1) .argument, .field (some 2) .argument],
      path.isField := by decide
  have hsame : ∀ path, path ∈ [Path.field (some 2) .argument, .field (some 1) .argument] ↔
      path ∈ [Path.field (some 1) .argument, .field (some 2) .argument] := by
    intro path
    simp only [List.mem_cons, List.not_mem_nil, or_false]
    exact or_comm
  have hbuilt : Change.operations.Built :=
    (((Tree.Built.empty .common).add rfl rfl).add rfl rfl).add rfl rfl
  have hall := deleteEach_reordered hfields hsame
  have hsome : (parse "!-a".toList none).toOption.isSome := by decide +kernel
  refine ⟨hfields, hbuilt, hall.1 _ hbuilt, by decide +kernel, ?_⟩
  cases hparse : parse "!-a".toList none with
  | error e =>
      rw [hparse] at hsome
      exact absurd hsome nofun
  | ok parsed => exact ⟨parsed, rfl, (hall.2 _ _ parsed hparse).2 {}⟩

end FlowErasure
