import FlowErasure.Syntax.Path
import Mathlib.Data.List.Basic
import Mathlib.Data.List.Induction
import Mathlib.Data.List.Nodup

/-!
# Changes of a node table

What each operation on a table does to the nodes in it. Every change goes through `Tree.replaceSlot`.
It keeps all that was read from the source, the slots before the first change included (`Node.Kin`),
and it keeps the slots of every node but one.
-/

namespace FlowErasure

namespace Node

/-- The slots a node had before its first change. -/
def original (node : Node) : List Slot :=
  node.before.getD node.slots

/-- Two states of one node: only its present slots, its parent and its marks may differ. -/
structure Kin (a b : Node) : Prop where
  kind : a.kind = b.kind
  start : a.start = b.start
  stop : a.stop = b.stop
  flags : a.flags = b.flags
  token : a.token = b.token
  name : a.name = b.name
  original : a.original = b.original

theorem Kin.refl (a : Node) : a.Kin a := by
  constructor <;> rfl

theorem Kin.symm {a b : Node} (h : a.Kin b) : b.Kin a :=
  ⟨h.kind.symm, h.start.symm, h.stop.symm, h.flags.symm, h.token.symm, h.name.symm,
    h.original.symm⟩

theorem Kin.trans {a b c : Node} (h : a.Kin b) (h' : b.Kin c) : a.Kin c where
  kind := h.kind.trans h'.kind
  start := h.start.trans h'.start
  stop := h.stop.trans h'.stop
  flags := h.flags.trans h'.flags
  token := h.token.trans h'.token
  name := h.name.trans h'.name
  original := h.original.trans h'.original

def marking (below : Bool) (node : Node) : Node :=
  { node with marks := { node.marks with below := node.marks.below || below } }

@[simp] theorem marking_false : marking false = id := by
  funext node
  simp [marking]

def change (index : Nat) (value : Slot) (node : Node) : Node :=
  { node with
    slots := node.slots.set index value
    before := node.before <|> some node.slots
    marks := { node.marks with own := true } }

theorem Kin.marking (below : Bool) (node : Node) : node.Kin (node.marking below) := by
  constructor <;> rfl

theorem Kin.change (index : Nat) (value : Slot) (node : Node) :
    node.Kin (node.change index value) := by
  constructor <;> try rfl
  cases h : node.before <;> simp [Node.original, Node.change, h]

end Node

namespace Tree

/-! ## Reading -/

theorem lt_size_of_get? {tree : Tree} {id : NodeId} {node : Node}
    (h : tree.get? id = some node) : id < tree.size := by
  obtain ⟨hlt, -⟩ := Array.getElem?_eq_some_iff.mp h
  exact hlt

theorem exists_get? {tree : Tree} {id : NodeId} (h : id < tree.size) :
    ∃ node, tree.get? id = some node :=
  ⟨tree.nodes[id], Array.getElem?_eq_getElem h⟩

theorem slots_of_get? {tree : Tree} {id : NodeId} {node : Node}
    (h : tree.get? id = some node) : tree.slots id = node.slots := by
  simp [slots, h]

theorem children_of_get? {tree : Tree} {id : NodeId} {node : Node}
    (h : tree.get? id = some node) : tree.children id = node.children := by
  simp [children, h]

theorem children_of_none {tree : Tree} {id : NodeId} (h : tree.get? id = none) :
    tree.children id = [] := by
  simp [children, h]

theorem children_eq (tree : Tree) (id : NodeId) :
    tree.children id = (tree.slots id).flatMap Slot.children := by
  unfold children slots
  cases tree.get? id <;> rfl

@[simp] theorem get?_modify (tree : Tree) (id i : NodeId) (f : Node → Node) :
    (tree.modify id f).get? i = if i = id then (tree.get? i).map f else tree.get? i := by
  simp only [modify, get?, Array.getElem?_modify]
  by_cases h : i = id
  · simp [h]
  · simp [h, Ne.symm h]

@[simp] theorem size_modify (tree : Tree) (id : NodeId) (f : Node → Node) :
    (tree.modify id f).size = tree.size := by
  simp [modify, size]

/-! ## Parents and marks -/

theorem get?_adopt (tree : Tree) (parent : NodeId) (field : Field) (slot : Slot) (i : NodeId) :
    (tree.adopt parent field slot).get? i =
      (tree.get? i).map fun node =>
        if i ∈ slot.children then { node with parent := some (parent, field) } else node := by
  unfold adopt
  generalize slot.children = children
  induction children generalizing tree with
  | nil => simp
  | cons child children ih =>
      rw [List.foldl_cons, ih, get?_modify]
      by_cases h : i = child
      · subst h
        cases tree.get? i <;> simp
      · simp [h]

theorem size_adopt (tree : Tree) (parent : NodeId) (field : Field) (slot : Slot) :
    (tree.adopt parent field slot).size = tree.size := by
  unfold adopt
  generalize slot.children = children
  induction children generalizing tree with
  | nil => rfl
  | cons child children ih => rw [List.foldl_cons, ih, size_modify]

theorem get?_markAbove (bound : Nat) (id : Option NodeId) (tree : Tree) :
    ∃ marked : NodeId → Bool, ∀ i,
      (markAbove bound id tree).get? i = (tree.get? i).map (Node.marking (marked i)) := by
  induction bound generalizing id tree with
  | zero => exact ⟨fun _ => false, fun i => by simp [markAbove]⟩
  | succ bound ih =>
      cases id with
      | none => exact ⟨fun _ => false, fun i => by simp [markAbove]⟩
      | some id =>
          unfold markAbove
          split
          · exact ⟨fun _ => false, fun i => by simp⟩
          · split
            · exact ⟨fun _ => false, fun i => by simp⟩
            · rename_i node _ _
              obtain ⟨marked, h⟩ := ih (node.parent.map (·.1)) (tree.modify id fun node =>
                { node with marks := { node.marks with below := true } })
              refine ⟨fun i => marked i || decide (i = id), fun i => ?_⟩
              rw [h, get?_modify]
              by_cases hi : i = id
              · subst hi
                cases tree.get? i <;> simp [Node.marking]
              · simp [hi]

@[simp] theorem size_markAbove (bound : Nat) (id : Option NodeId) (tree : Tree) :
    (markAbove bound id tree).size = tree.size := by
  induction bound generalizing id tree with
  | zero => rfl
  | succ bound ih =>
      cases id with
      | none => rfl
      | some id =>
          unfold markAbove
          split
          · rfl
          · split
            · rfl
            · rw [ih, size_modify]

/-! ## Replacing a slot -/

structure Replaces (tree : Tree) (id : NodeId) (index : Nat) (value : Slot) (node : Node)
    (spec : FieldSpec) : Prop where
  get : tree.get? id = some node
  schema : node.kind.schema[index]? = some spec
  inBounds : index < node.slots.length
  differs : node.slots[index]? ≠ some value

theorem replaceSlot_cases (tree : Tree) (id : NodeId) (index : Nat) (value : Slot) :
    tree.replaceSlot id index value = (false, tree) ∨
      ∃ node spec, tree.Replaces id index value node spec ∧
        (tree.replaceSlot id index value).1 = true := by
  unfold replaceSlot
  split
  · exact .inl rfl
  · rename_i node hnode
    split
    · rename_i current spec hcurrent hspec
      split
      · exact .inl rfl
      · rename_i hne
        refine .inr ⟨node, spec, ⟨hnode, hspec, ?_, ?_⟩, rfl⟩
        · exact (List.getElem?_eq_some_iff.mp hcurrent).choose
        · rw [hcurrent]
          simpa using hne
    · exact .inl rfl

/-- Replacing a slot by what it holds already does nothing. -/
theorem replaceSlot_same {tree : Tree} {id : NodeId} {node : Node} {index : Nat} {value : Slot}
    (hget : tree.get? id = some node)
    (hsame : ∀ slot, node.slots[index]? = some slot → slot = value) :
    tree.replaceSlot id index value = (false, tree) := by
  rcases tree.replaceSlot_cases id index value with h | ⟨node', _, hreplaces, -⟩
  · exact h
  · obtain rfl := Option.some.inj (hget.symm.trans hreplaces.get)
    have hslot := List.getElem?_eq_getElem hreplaces.inBounds
    exact absurd (hslot.trans (congrArg some (hsame _ hslot))) hreplaces.differs

/-- What replacing a slot does to every node: the slot of one node changes, the nodes in the new
value are adopted, and some nodes get a mark. -/
theorem Replaces.get? {tree : Tree} {id : NodeId} {index : Nat} {value : Slot} {node : Node}
    {spec : FieldSpec} (h : tree.Replaces id index value node spec) :
    ∃ marked : NodeId → Bool, ∀ i, (tree.replaceSlot id index value).2.get? i =
      (tree.get? i).map fun node =>
        Node.marking (marked i) {
          (if i = id then node.change index value else node) with
          parent := if i ∈ value.children then some (id, spec.field) else node.parent } := by
  obtain ⟨current, hcurrent⟩ : ∃ current, node.slots[index]? = some current :=
    ⟨_, List.getElem?_eq_getElem h.inBounds⟩
  have hne : current ≠ value := fun heq => h.differs (by rw [hcurrent, heq])
  unfold replaceSlot
  simp only [h.get, hcurrent, h.schema, hne, if_false]
  generalize hparent : Option.map _ _ = parent
  obtain ⟨marked, hmarked⟩ := get?_markAbove
    ((tree.adopt id spec.field value).modify id (Node.change index value)).size parent
    ((tree.adopt id spec.field value).modify id (Node.change index value))
  refine ⟨marked, fun i => ?_⟩
  refine (hmarked i).trans ?_
  rw [get?_modify, get?_adopt, Option.map_map]
  by_cases hi : i = id
  · subst hi
    cases tree.get? i with
    | none => simp
    | some node => by_cases hm : i ∈ value.children <;> simp [hm, Node.change]
  · cases tree.get? i with
    | none => simp
    | some node => by_cases hm : i ∈ value.children <;> simp [hi, hm]

/-- A slot that exists, has a field and holds something else is replaced. -/
theorem replaceSlot_fst {tree : Tree} {id : NodeId} {index : Nat} {node : Node}
    {spec : FieldSpec} (hget : tree.get? id = some node)
    (hspec : node.kind.schema[index]? = some spec) (value : Slot) :
    (tree.replaceSlot id index value).1 = true ↔
      index < node.slots.length ∧ node.slots[index]? ≠ some value := by
  unfold replaceSlot
  simp only [hget, hspec]
  by_cases hlt : index < node.slots.length
  · rw [List.getElem?_eq_getElem hlt]
    simp only [hlt, true_and]
    split <;> simp_all
  · rw [List.getElem?_eq_none (by omega)]
    simp [hlt]

/-- Two states of one table: what was read from the source is the same in both. -/
structure Kin (a b : Tree) : Prop where
  size : a.size = b.size
  node : ∀ {i : NodeId} {n m : Node}, a.get? i = some n → b.get? i = some m → n.Kin m

namespace Kin

variable {a b c : Tree}

theorem refl (a : Tree) : a.Kin a where
  size := rfl
  node h h' := by
    cases h.symm.trans h'
    exact .refl _

theorem symm (h : a.Kin b) : b.Kin a where
  size := h.size.symm
  node hm hn := (h.node hn hm).symm

theorem get? (h : a.Kin b) {i : NodeId} {n : Node} (hn : a.get? i = some n) :
    ∃ m, b.get? i = some m ∧ n.Kin m := by
  obtain ⟨m, hm⟩ := exists_get? (h.size ▸ lt_size_of_get? hn)
  exact ⟨m, hm, h.node hn hm⟩

theorem trans (h : a.Kin b) (h' : b.Kin c) : a.Kin c where
  size := h.size.trans h'.size
  node hn hm := by
    obtain ⟨k, hk, hnk⟩ := h.get? hn
    exact hnk.trans (h'.node hk hm)

theorem isSome (h : a.Kin b) (i : NodeId) : (b.get? i).isSome = (a.get? i).isSome := by
  have hsize : a.nodes.size = b.nodes.size := h.size
  rw [Bool.eq_iff_iff, Tree.get?, Tree.get?, isSome_getElem?, isSome_getElem?]
  simp [hsize]

theorem kind? (h : a.Kin b) (i : NodeId) : b.kind? i = a.kind? i := by
  cases hn : a.get? i with
  | none =>
      have hb : b.get? i = none := by simpa [hn] using h.isSome i
      simp [Tree.kind?, hn, hb]
  | some n =>
      obtain ⟨m, hm, hnm⟩ := h.get? hn
      simp [Tree.kind?, hn, hm, hnm.kind]

end Kin

theorem size_replaceSlot (tree : Tree) (id : NodeId) (index : Nat) (value : Slot) :
    (tree.replaceSlot id index value).2.size = tree.size := by
  unfold replaceSlot
  split
  · rfl
  · split
    · split
      · rfl
      · simp [size_adopt]
    · rfl

theorem kin_replaceSlot (tree : Tree) (id : NodeId) (index : Nat) (value : Slot) :
    tree.Kin (tree.replaceSlot id index value).2 := by
  rcases tree.replaceSlot_cases id index value with h | ⟨node, spec, h, -⟩
  · rw [h]
    exact .refl tree
  · refine ⟨(size_replaceSlot tree id index value).symm, fun {i n m} hn hm => ?_⟩
    obtain ⟨marked, hget⟩ := h.get?
    rw [hget, hn, Option.map_some, Option.some.injEq] at hm
    subst hm
    refine Node.Kin.trans ?_ (.marking _ _)
    by_cases hi : i = id
    · simp only [hi, if_true]
      exact (Node.Kin.change index value n).trans (by constructor <;> rfl)
    · simp only [hi, if_false]
      constructor <;> rfl

theorem slots_replaceSlot {tree : Tree} {id : NodeId} {index : Nat} {node : Node}
    {spec : FieldSpec} (hget : tree.get? id = some node)
    (hspec : node.kind.schema[index]? = some spec) (value : Slot) (i : NodeId) :
    (tree.replaceSlot id index value).2.slots i =
      if i = id then (tree.slots i).set index value else tree.slots i := by
  rcases tree.replaceSlot_cases id index value with h | ⟨node', spec', h, -⟩
  · rw [h]
    by_cases hi : i = id
    · subst hi
      have hsame := (replaceSlot_fst hget hspec value).not.mp (by simp [h])
      rw [if_pos rfl, slots_of_get? hget]
      by_cases hlt : index < node.slots.length
      · have heq : node.slots[index] = value := by
          by_contra hne
          exact hsame ⟨hlt, by simpa [hlt] using hne⟩
        rw [← heq, List.set_getElem_self]
      · rw [List.set_eq_of_length_le (by omega)]
    · simp [hi]
  · obtain ⟨marked, hmarked⟩ := h.get?
    unfold slots
    rw [hmarked]
    by_cases hi : i = id
    · subst hi
      simp [h.get, Node.marking, Node.change]
    · cases tree.get? i <;> simp [hi, Node.marking]

/-! ## Adding a node -/

def holder? (fields : List (FieldSpec × Slot)) (child : NodeId) : Option Field :=
  (fields.reverse.find? fun (_, slot) => slot.children.contains child).map fun (spec, _) =>
    spec.field

theorem get?_adoptAll (tree : Tree) (parent : NodeId) (fields : List (FieldSpec × Slot))
    (i : NodeId) :
    (fields.foldl (fun tree (spec, slot) => tree.adopt parent spec.field slot) tree).get? i =
      (tree.get? i).map fun node =>
        { node with parent := (holder? fields i).map (parent, ·) <|> node.parent } := by
  induction fields using List.reverseRecOn with
  | nil => simp [holder?]
  | append_singleton fields last ih =>
      obtain ⟨spec, slot⟩ := last
      rw [List.foldl_append, List.foldl_cons, List.foldl_nil, get?_adopt, ih, Option.map_map]
      cases tree.get? i with
      | none => rfl
      | some node => by_cases h : i ∈ slot.children <;> simp [holder?, h]

theorem size_adoptAll (tree : Tree) (parent : NodeId) (fields : List (FieldSpec × Slot)) :
    (fields.foldl (fun tree (spec, slot) => tree.adopt parent spec.field slot) tree).size =
      tree.size := by
  induction fields generalizing tree with
  | nil => rfl
  | cons field fields ih => rw [List.foldl_cons, ih, size_adopt]

def fitted (node : Node) : Node :=
  { node with slots := fitSlots node.kind node.slots }

@[simp] theorem add_fst (tree : Tree) (node : Node) : (tree.add node).1 = tree.size := rfl

@[simp] theorem size_add (tree : Tree) (node : Node) :
    (tree.add node).2.size = tree.size + 1 := by
  have h := size_adoptAll tree tree.size (fitted node).fields
  unfold size at h
  simpa [add, size, fitted] using h

theorem get?_add (tree : Tree) (node : Node) (i : NodeId) :
    (tree.add node).2.get? i =
      if i = tree.size then some (fitted node)
      else (tree.get? i).map fun old =>
        { old with
          parent := (holder? (fitted node).fields i).map (tree.size, ·) <|> old.parent } := by
  have hsize := size_adoptAll tree tree.size (fitted node).fields
  have hget := get?_adoptAll tree tree.size (fitted node).fields i
  unfold get? size at *
  simp only [add, Array.getElem?_push]
  by_cases hi : i = tree.nodes.size
  · have : i = _ := hi.trans hsize.symm
    rw [if_pos hi]
    exact if_pos this
  · have : ¬i = _ := fun h => hi (h.trans hsize)
    rw [if_neg hi]
    exact (if_neg this).trans hget

theorem length_fitSlots (kind : NodeKind) (slots : List Slot) :
    (fitSlots kind slots).length = kind.schema.length := by
  simp [fitSlots]

/-- Every node has one slot for each field of its schema. -/
def Fits (tree : Tree) : Prop :=
  ∀ id node, tree.get? id = some node → node.slots.length = node.kind.schema.length

theorem fits_empty : empty.Fits := by
  intro id node h
  simp [get?, empty] at h

theorem Fits.add {tree : Tree} (h : tree.Fits) (node : Node) : (tree.add node).2.Fits := by
  intro i other hget
  rw [get?_add] at hget
  by_cases hi : i = tree.size
  · rw [if_pos hi] at hget
    cases hget
    exact length_fitSlots node.kind node.slots
  · rw [if_neg hi] at hget
    obtain ⟨old, hold, rfl⟩ := Option.map_eq_some_iff.mp hget
    exact h i old hold

theorem Fits.replaceSlot {tree : Tree} (h : tree.Fits) (id : NodeId) (index : Nat)
    (value : Slot) : (tree.replaceSlot id index value).2.Fits := by
  rcases tree.replaceSlot_cases id index value with hsame | ⟨node, spec, hreplaces, -⟩
  · rw [hsame]
    exact h
  · obtain ⟨marked, hmarked⟩ := hreplaces.get?
    intro i other hget
    rw [hmarked] at hget
    obtain ⟨old, hold, rfl⟩ := Option.map_eq_some_iff.mp hget
    by_cases hi : i = id <;> simpa [hi, Node.marking, Node.change] using h i old hold

end Tree

end FlowErasure
