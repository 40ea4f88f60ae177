import FlowErasure.Erasure.Pass
import FlowErasure.Proofs.Syntax.Spans
import FlowErasure.Proofs.Syntax.Trimming

/-!
# Marks

A change of a node is marked at the node and at every node above it. `markAbove` stops at the first
node that is marked already, so the marks are right only because they have been right all along:
above a marked node all nodes are marked (`Tree.MarksUp`).
-/

namespace FlowErasure

namespace Tree

variable {tree : Tree}

/-- The node that holds a marked node is marked too. -/
def MarksUp (tree : Tree) : Prop :=
  ∀ {id p : NodeId} {node parent : Node}, tree.get? id = some node → node.marks.any →
    tree.parentId? id = some p → tree.get? p = some parent → parent.marks.below

def ParentsAfter (tree : Tree) : Prop :=
  ∀ {id p : NodeId}, tree.parentId? id = some p → id < p

theorem parentId?_markAbove (bound : Nat) (above : Option NodeId) (tree : Tree) (id : NodeId) :
    (markAbove bound above tree).parentId? id = tree.parentId? id := by
  obtain ⟨marked, hmarked⟩ := get?_markAbove bound above tree
  rw [parentId?, parentId?, hmarked]
  cases tree.get? id <;> rfl

theorem parentId?_below (tree : Tree) (q id : NodeId) :
    (tree.modify q fun node => { node with marks := { node.marks with below := true } }).parentId? id
      = tree.parentId? id := by
  rw [parentId?, parentId?, get?_modify]
  split <;> cases tree.get? id <;> rfl

theorem marksUp_markAbove (bound : Nat) (above : Option NodeId) (tree : Tree)
    (hafter : tree.ParentsAfter)
    (hup : ∀ {id p : NodeId} {node parent : Node}, tree.get? id = some node → node.marks.any →
      tree.parentId? id = some p → above ≠ some p → tree.get? p = some parent →
      parent.marks.below)
    (hbound : ∀ p, above = some p → tree.size ≤ bound + p) :
    (markAbove bound above tree).MarksUp := by
  induction bound generalizing above tree with
  | zero =>
      intro id p node parent hget hany hp hparent
      rw [markAbove] at hget hp hparent
      by_cases habove : above = some p
      · have hlt := lt_size_of_get? hparent
        have hle := hbound p habove
        simp only [Nat.zero_add] at hle
        exact absurd hlt (Nat.not_lt_of_le hle)
      · exact hup hget hany hp habove hparent
  | succ bound ih =>
      cases above with
      | none =>
          intro id p node parent hget hany hp hparent
          exact hup hget hany hp (by simp) hparent
      | some q =>
          unfold markAbove
          split
          · rename_i hnone
            intro id p node parent hget hany hp hparent
            refine hup hget hany hp (fun heq => ?_) hparent
            obtain rfl := Option.some.inj heq
            simp [hnone] at hparent
          · rename_i above hq
            split
            · rename_i hbelow
              intro id p node parent hget hany hp hparent
              by_cases heq : some q = some p
              · obtain rfl := Option.some.inj heq
                exact Option.some.inj (hq.symm.trans hparent) ▸ hbelow
              · exact hup hget hany hp heq hparent
            · refine ih _ _ (fun {id p} hp => hafter ?_) ?_ ?_
              · rwa [parentId?_below] at hp
              · intro id p node parent hget hany hp hne hparent
                rw [parentId?_below] at hp
                rw [get?_modify] at hget hparent
                by_cases hpq : p = q
                · subst hpq
                  obtain ⟨old, -, rfl⟩ := Option.map_eq_some_iff.mp (if_pos rfl ▸ hparent)
                  rfl
                · rw [if_neg hpq] at hparent
                  have hidq : id ≠ q := by
                    rintro rfl
                    refine hne ?_
                    simpa [parentId?, hq] using hp
                  rw [if_neg hidq] at hget
                  exact hup hget hany hp (fun heq => hpq (Option.some.inj heq).symm) hparent
              · intro p hp
                have hlt : q < p := hafter (by simpa [parentId?, hq] using hp)
                rw [size_modify]
                calc tree.size
                    ≤ bound + 1 + q := hbound q rfl
                  _ = bound + (q + 1) := by omega
                  _ ≤ bound + p := Nat.add_le_add_left hlt bound

/-! ## Pruning -/

/-- Removals have been made only at nodes that hold their children. So every node still knows the
node that holds it, and every change is marked up to the root. -/
structure Prunes (a b : Tree) : Prop where
  trims : a.Trims b
  parent : ∀ id, b.parentId? id = a.parentId? id
  up : b.MarksUp
  own : ∀ {id node}, b.get? id = some node → node.marks.any = false → node.before = none

def Keeps (tree : Tree) (id : NodeId) : Prop :=
  ∀ c ∈ tree.children id, tree.parentId? c = some id

theorem prunes_refl (h : ∀ {id node}, tree.get? id = some node →
    node.marks = {} ∧ node.before = none) : tree.Prunes tree where
  trims := .refl tree
  parent _ := rfl
  up {id p node parent} hget hany := by
    rw [(h hget).1] at hany
    exact absurd hany (by decide)
  own hget _ := (h hget).2

/-- The table in which a slot has been replaced and nothing has been marked above it yet. -/
def exchanged (tree : Tree) (id : NodeId) (index : Nat) (value : Slot) (field : Field) : Tree :=
  (tree.adopt id field value).modify id (Node.change index value)

theorem size_exchanged (tree : Tree) (id : NodeId) (index : Nat) (value : Slot) (field : Field) :
    (tree.exchanged id index value field).size = tree.size := by
  rw [exchanged, size_modify, size_adopt]

theorem Replaces.replaceSlot_eq {id : NodeId} {index : Nat} {value : Slot} {node : Node}
    {spec : FieldSpec} (h : tree.Replaces id index value node spec) :
    (tree.replaceSlot id index value).2 =
      markAbove tree.size ((tree.exchanged id index value spec.field).parentId? id)
        (tree.exchanged id index value spec.field) := by
  obtain ⟨current, hcurrent⟩ : ∃ current, node.slots[index]? = some current :=
    ⟨_, List.getElem?_eq_getElem h.inBounds⟩
  have hne : current ≠ value := fun heq => h.differs (by rw [hcurrent, heq])
  have hsize := size_exchanged tree id index value spec.field
  have hparent : (tree.exchanged id index value spec.field).parentId? id =
      (((tree.exchanged id index value spec.field).get? id).bind (·.parent)).map (·.1) := by
    rw [parentId?, Option.map_bind]
    rfl
  rw [← hsize, hparent]
  unfold replaceSlot
  simp only [h.get, hcurrent, h.schema, hne, if_false]
  rfl

theorem get?_exchanged (tree : Tree) (id : NodeId) (index : Nat) (value : Slot) (field : Field)
    (i : NodeId) :
    (tree.exchanged id index value field).get? i = (tree.get? i).map fun node =>
      { (if i = id then node.change index value else node) with
        parent := if i ∈ value.children then some (id, field) else node.parent } := by
  rw [exchanged, get?_modify, get?_adopt]
  cases tree.get? i with
  | none => simp
  | some node =>
      by_cases hi : i = id
      · subst hi
        by_cases hm : i ∈ value.children <;> simp [hm, Node.change]
      · by_cases hm : i ∈ value.children <;> simp [hi, hm]

theorem Prunes.replaceSlot {a b : Tree} (h : a.Prunes b) (hafter : a.ParentsAfter) {id : NodeId}
    {index : Nat} {node : Node} {spec : FieldSpec} (hkeeps : a.Keeps id)
    (hget : b.get? id = some node) (hspec : node.kind.schema[index]? = some spec) {value : Slot}
    (hvalue : ∀ slot, node.slots[index]? = some slot → slot.Trims value) :
    a.Prunes (b.replaceSlot id index value).2 := by
  have htrims := h.trims.trans (trims_replaceSlot hget hspec hvalue)
  rcases b.replaceSlot_cases id index value with hsame | ⟨node', spec', hreplaces, -⟩
  · rw [hsame] at htrims ⊢
    exact ⟨htrims, h.parent, h.up, h.own⟩
  · obtain rfl := Option.some.inj (hget.symm.trans hreplaces.get)
    have hchildren : ∀ c ∈ value.children, b.parentId? c = some id := by
      intro c hc
      have hslot := List.getElem?_eq_getElem hreplaces.inBounds
      have hmem : c ∈ b.children id := by
        rw [children_eq, slots_of_get? hget]
        exact List.mem_flatMap.mpr
          ⟨_, List.mem_of_getElem? hslot, (hvalue _ hslot).children_sublist.subset hc⟩
      rw [h.parent]
      exact hkeeps c (h.trims.children_subset id hmem)
    set mid := b.exchanged id index value spec'.field
    have hsize : mid.size = b.size := size_exchanged ..
    have hmid : ∀ i, mid.parentId? i = b.parentId? i := by
      intro i
      rw [parentId?, get?_exchanged]
      by_cases hi : i ∈ value.children
      · have hparent := hchildren i hi
        rw [hparent]
        rw [parentId?] at hparent
        cases hold : b.get? i with
        | none => simp [hold] at hparent
        | some old => simp [hi]
      · rw [parentId?]
        cases b.get? i <;> simp [hi]
    rw [hreplaces.replaceSlot_eq] at htrims ⊢
    refine ⟨htrims, ?_, ?_, ?_⟩
    · intro i
      rw [parentId?_markAbove, hmid, h.parent]
    · refine marksUp_markAbove _ _ _ ?_ ?_ ?_
      · intro i p hp
        rw [hmid, h.parent] at hp
        exact hafter hp
      · intro i p other parent hother hany hp hne hparent
        have hi : i ≠ id := fun heq => hne (heq ▸ hp)
        rw [hmid] at hp
        rw [get?_exchanged] at hother hparent
        obtain ⟨old, hold, rfl⟩ := Option.map_eq_some_iff.mp hother
        obtain ⟨oldParent, holdParent, rfl⟩ := Option.map_eq_some_iff.mp hparent
        have hbelow := h.up hold (by simpa [hi] using hany) hp holdParent
        by_cases hp : p = id <;> simpa [hp, Node.change] using hbelow
      · intro p _
        rw [hsize]
        exact Nat.le_add_right _ _
    · intro i other hother hany
      obtain ⟨marked, hmarked⟩ := get?_markAbove b.size (mid.parentId? id) mid
      rw [hmarked, get?_exchanged, Option.map_map] at hother
      obtain ⟨old, hold, rfl⟩ := Option.map_eq_some_iff.mp hother
      by_cases hi : i = id
      · simp [hi, Node.marking, Node.change, Marks.any] at hany
      · have hold' : old.marks.any = false := by
          simp only [Function.comp, hi, if_false, Node.marking, Marks.any, Bool.or_eq_false_iff]
            at hany
          simp [Marks.any, hany.1, hany.2.1]
        simpa [hi, Node.marking] using h.own hold hold'

theorem Prunes.delete {a b : Tree} (h : a.Prunes b) (hafter : a.ParentsAfter) {path : Path}
    {id : NodeId} (hpath : path.parent? = some (some id)) (hkeeps : a.Keeps id)
    {result : Bool × Tree} (hok : path.delete b = .ok result) : a.Prunes result.2 := by
  rcases Path.delete_cases b path with hfails |
    ⟨id', index, node, spec, value, hid, hget, hspec, hvalue, heq⟩
  · exact absurd hok (hfails result)
  · obtain rfl : id' = id := Option.some.inj (Option.some.inj (hid.symm.trans hpath))
    obtain rfl := Except.ok.inj (heq.symm.trans hok)
    exact h.replaceSlot hafter hkeeps hget hspec hvalue

end Tree

end FlowErasure
