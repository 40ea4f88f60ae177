import FlowErasure.Proofs.Erasure.Visit
import FlowErasure.Proofs.Syntax.Descendants
import Mathlib.Data.Set.Card

/-!
# The outcome of the erasure pass

The nodes that survive are defined by recursion from the root: a surviving node keeps its erased
slots, and what these hold survives. Where the part below the root is a tree, the pass visits each
surviving node once, before any of its children, so at every visit the slots of the node are still
those of the source.
-/

namespace FlowErasure

namespace Erasure

/-- The node is there after the pass: it is the root, or an erased slot of a surviving node holds
it. -/
inductive Survives (rules : Rules) (tree : Tree) (root : NodeId) : NodeId → Prop where
  | root : (tree.get? root).isSome → Survives rules tree root root
  | child {a b : NodeId} {node : Node} : Survives rules tree root a → tree.get? a = some node →
    b ∈ (erasedSlots rules tree node).flatMap Slot.children → (tree.get? b).isSome →
    Survives rules tree root b

def survivorsWithin (rules : Rules) (tree : Tree) : Nat → NodeId → List NodeId
  | 0, _ => []
  | depth + 1, id =>
    match tree.get? id with
    | none => []
    | some node =>
      id :: ((erasedSlots rules tree node).flatMap Slot.children).flatMap
        (survivorsWithin rules tree depth)

def countAt (count : Node → Nat) (tree : Tree) (id : NodeId) : Nat :=
  ((tree.get? id).map count).getD 0

structure Visited (rules : Rules) (tree : Tree) (ids : List NodeId) (p q : Progress) : Prop where
  kin : p.tree.Kin q.tree
  done : ∀ id ∈ ids, ∀ node, tree.get? id = some node →
    q.tree.slots id = erasedSlots rules tree node
  rest : ∀ id, id ∉ ids → q.tree.slots id = p.tree.slots id
  stats : q.stats =
    { visited := p.stats.visited + ids.length
      deleted := p.stats.deleted + (ids.map (countAt (removedCount rules tree) tree)).sum
      cleared := p.stats.cleared + (ids.map (countAt (clearedCount rules) tree)).sum }

namespace Visited

variable {rules : Rules} {tree : Tree} {ids ids' : List NodeId} {p q r : Progress}

theorem nil : Visited rules tree [] p p where
  kin := .refl _
  done := by simp
  rest _ _ := rfl
  stats := by simp

theorem append (h : Visited rules tree ids p q) (h' : Visited rules tree ids' q r)
    (hapart : ids.Disjoint ids') : Visited rules tree (ids ++ ids') p r where
  kin := h.kin.trans h'.kin
  done id hid node hget := by
    rcases List.mem_append.mp hid with hid | hid
    · rw [h'.rest id (hapart hid)]
      exact h.done id hid node hget
    · exact h'.done id hid node hget
  rest id hid := by
    rw [List.mem_append, not_or] at hid
    rw [h'.rest id hid.2, h.rest id hid.1]
  stats := by
    rw [h'.stats, h.stats]
    simp [Nat.add_assoc]

end Visited

theorem erasedSlots_congr {a b : Tree} (h : a.Kin b) (rules : Rules) {node node' : Node}
    (hkind : node'.kind = node.kind) (hslots : node'.slots = node.slots) :
    erasedSlots rules b node' = erasedSlots rules a node := by
  unfold erasedSlots erasedSlot
  rw [hkind, hslots]
  simp only [keptOf_kin h]

theorem removedCount_congr {a b : Tree} (h : a.Kin b) (rules : Rules) {node node' : Node}
    (hkind : node'.kind = node.kind) (hslots : node'.slots = node.slots) :
    removedCount rules b node' = removedCount rules a node := by
  unfold removedCount Node.fields
  rw [hkind, hslots]
  simp only [deletedCount_kin h]

theorem clearedCount_congr (rules : Rules) {node node' : Node} (hkind : node'.kind = node.kind)
    (hslots : node'.slots = node.slots) : clearedCount rules node' = clearedCount rules node := by
  unfold clearedCount Node.fields
  rw [hkind, hslots]

/-- A visit of a node whose slots are still those of `tree`. -/
theorem visited_visit (rules : Rules) {tree : Tree} {id : NodeId} {p : Progress} {node : Node}
    (hkin : tree.Kin p.tree) (hget : tree.get? id = some node)
    (hslots : p.tree.slots id = tree.slots id) :
    Visited rules tree [id] p (visit rules id p) := by
  obtain ⟨node', hget', hnode⟩ := hkin.get? hget
  rw [Tree.slots_of_get? hget', Tree.slots_of_get? hget] at hslots
  obtain ⟨hsets, hstats⟩ := visit_some rules hget'
  rw [erasedSlots_congr hkin rules hnode.kind.symm hslots] at hsets
  rw [removedCount_congr hkin rules hnode.kind.symm hslots,
    clearedCount_congr rules hnode.kind.symm hslots] at hstats
  constructor
  · exact hsets.kin
  · intro i hi other hother
    rw [List.mem_singleton] at hi
    subst hi
    rw [hget] at hother
    obtain rfl := Option.some.inj hother
    rw [hsets.slots, if_pos rfl]
  · intro i hi
    rw [hsets.slots, if_neg (by simpa using hi)]
  · simpa [countAt, hget] using hstats

/-- The pass below several nodes, one after another, given the pass below each. -/
private theorem visited_foldl {rules : Rules} {tree : Tree} {depth : Nat}
    (hpass : ∀ id p, tree.Kin p.tree → (survivorsWithin rules tree depth id).Nodup →
      (∀ i ∈ survivorsWithin rules tree depth id, p.tree.slots i = tree.slots i) →
      Visited rules tree (survivorsWithin rules tree depth id) p (passWithin rules depth id p))
    (ids : List NodeId) :
    ∀ p : Progress, tree.Kin p.tree →
      (ids.flatMap (survivorsWithin rules tree depth)).Nodup →
      (∀ i ∈ ids.flatMap (survivorsWithin rules tree depth), p.tree.slots i = tree.slots i) →
      Visited rules tree (ids.flatMap (survivorsWithin rules tree depth)) p
        (ids.foldl (fun p child => passWithin rules depth child p) p) := by
  induction ids with
  | nil => exact fun _ _ _ _ => .nil
  | cons id ids ih =>
      intro p hkin hnodup hslots
      rw [List.flatMap_cons] at hnodup hslots ⊢
      rw [List.foldl_cons]
      have hapart := List.disjoint_of_nodup_append hnodup
      have hfirst := hpass id p hkin hnodup.of_append_left
        fun i hi => hslots i (List.mem_append_left _ hi)
      refine hfirst.append (ih _ (hkin.trans hfirst.kin) hnodup.of_append_right ?_) hapart
      intro i hi
      rw [hfirst.rest i fun hmem => hapart hmem hi]
      exact hslots i (List.mem_append_right _ hi)

theorem visited_passWithin {rules : Rules} {tree : Tree} (depth : Nat) :
    ∀ id p, tree.Kin p.tree → (survivorsWithin rules tree depth id).Nodup →
      (∀ i ∈ survivorsWithin rules tree depth id, p.tree.slots i = tree.slots i) →
      Visited rules tree (survivorsWithin rules tree depth id) p (passWithin rules depth id p) := by
  induction depth with
  | zero => exact fun _ _ _ _ _ => .nil
  | succ depth ih =>
      intro id p hkin hnodup hslots
      rw [survivorsWithin] at hnodup hslots ⊢
      rw [passWithin]
      cases hget : tree.get? id with
      | none =>
          have hnone : p.tree.get? id = none := by
            have := hkin.isSome id
            rw [hget] at this
            simpa using this
          simpa [visit_none hnone, Tree.children, hnone] using Visited.nil
      | some node =>
          simp only [hget] at hnodup hslots ⊢
          have hvisit := visited_visit rules hkin hget (hslots id (by simp))
          have hchildren : (visit rules id p).tree.children id =
              (erasedSlots rules tree node).flatMap Slot.children := by
            rw [Tree.children_eq, hvisit.done id (by simp) node hget]
          rw [List.nodup_cons] at hnodup
          rw [hchildren, ← List.singleton_append]
          refine hvisit.append
            (visited_foldl ih _ _ (hkin.trans hvisit.kin) hnodup.2 ?_) ?_
          · intro i hi
            have hne : i ∉ [id] := by
              rintro hmem
              rw [List.mem_singleton] at hmem
              exact hnodup.1 (hmem ▸ hi)
            rw [hvisit.rest i hne]
            exact hslots i (List.mem_cons_of_mem _ hi)
          · intro i hi hmem
            rw [List.mem_singleton] at hi
            exact hnodup.1 (hi ▸ hmem)

/-! ## The surviving nodes -/

theorem children_keptOf_sublist (rules : Rules) (tree : Tree) (slot : Slot) :
    (keptOf rules tree slot).children.Sublist slot.children := by
  cases slot with
  | absent => exact .refl _
  | node child =>
      by_cases h : isDeleted rules tree child <;> simp [keptOf, h, Slot.children]
  | list items => exact List.filter_sublist.filterMap id

theorem children_erasedSlot_sublist (rules : Rules) (tree : Tree) (kind : NodeKind) (index : Nat)
    (slot : Slot) : (erasedSlot rules tree kind index slot).children.Sublist slot.children := by
  unfold erasedSlot
  cases kind.schema[index]? with
  | none => exact .refl _
  | some spec =>
      by_cases h : rules.strips kind spec.field
      · simp [h, Slot.children]
      · simpa [h] using children_keptOf_sublist rules tree slot

private theorem flatMap_mapIdx_sublist (slots : List Slot) :
    ∀ f : Nat → Slot → Slot, (∀ i slot, (f i slot).children.Sublist slot.children) →
      ((slots.mapIdx f).flatMap Slot.children).Sublist (slots.flatMap Slot.children) := by
  induction slots with
  | nil => exact fun _ _ => .refl _
  | cons slot slots ih =>
      intro f hf
      rw [List.mapIdx_cons, List.flatMap_cons, List.flatMap_cons]
      exact (hf 0 slot).append (ih _ fun i => hf (i + 1))

theorem children_erasedSlots_sublist (rules : Rules) (tree : Tree) (node : Node) :
    ((erasedSlots rules tree node).flatMap Slot.children).Sublist node.children :=
  flatMap_mapIdx_sublist _ _ fun _ _ => children_erasedSlot_sublist ..

theorem holds_of_mem_erasedSlots {rules : Rules} {tree : Tree} {a b : NodeId} {node : Node}
    (hget : tree.get? a = some node)
    (hb : b ∈ (erasedSlots rules tree node).flatMap Slot.children) : tree.Holds a b := by
  have hmem := (children_erasedSlots_sublist rules tree node).subset hb
  simpa [Tree.Holds, Tree.children, hget] using hmem

theorem reaches_of_mem_survivorsWithin {rules : Rules} {tree : Tree} (depth : Nat) :
    ∀ {id i}, i ∈ survivorsWithin rules tree depth id → tree.Reaches id i := by
  induction depth with
  | zero => simp [survivorsWithin]
  | succ depth ih =>
      intro id i hi
      rw [survivorsWithin] at hi
      cases hget : tree.get? id with
      | none => simp [hget] at hi
      | some node =>
          simp only [hget, List.mem_cons, List.mem_flatMap] at hi
          rcases hi with rfl | ⟨child, hchild, hi⟩
          · exact .refl
          · have hholds := holds_of_mem_erasedSlots hget (List.mem_flatMap.mpr hchild)
            exact .head hholds (ih hi)

theorem nodup_survivorsWithin (rules : Rules) {tree : Tree} {root : NodeId}
    (h : tree.IsTreeBelow root) (depth : Nat) :
    ∀ id, tree.Reaches root id → (survivorsWithin rules tree depth id).Nodup := by
  induction depth with
  | zero => exact fun _ _ => List.nodup_nil
  | succ depth ih =>
      intro id hid
      rw [survivorsWithin]
      cases hget : tree.get? id with
      | none => exact List.nodup_nil
      | some node =>
          have hsub : ((erasedSlots rules tree node).flatMap Slot.children).Sublist
              (tree.children id) := by
            rw [Tree.children_of_get? hget]
            exact children_erasedSlots_sublist rules tree node
          exact h.nodup_cons_flatMap hid hsub
            (fun b hb => ih b (hid.tail (hsub.subset hb)))
            fun b _ i hi => reaches_of_mem_survivorsWithin depth hi

theorem survives_of_mem {rules : Rules} {tree : Tree} {root : NodeId} (depth : Nat) :
    ∀ {id i}, Survives rules tree root id → i ∈ survivorsWithin rules tree depth id →
      Survives rules tree root i := by
  induction depth with
  | zero => simp [survivorsWithin]
  | succ depth ih =>
      intro id i hid hi
      rw [survivorsWithin] at hi
      cases hget : tree.get? id with
      | none => simp [hget] at hi
      | some node =>
          simp only [hget, List.mem_cons] at hi
          rcases hi with rfl | hi
          · exact hid
          · obtain ⟨child, hchild, hi⟩ := List.mem_flatMap.mp hi
            refine ih (.child hid hget hchild ?_) hi
            cases depth with
            | zero => simp [survivorsWithin] at hi
            | succ depth =>
                rw [survivorsWithin] at hi
                cases hc : tree.get? child <;> simp [hc] at hi ⊢

theorem mem_survivorsWithin_succ {rules : Rules} {tree : Tree} {a b : NodeId} {node : Node}
    (hget : tree.get? a = some node)
    (hb : b ∈ (erasedSlots rules tree node).flatMap Slot.children)
    (hsome : (tree.get? b).isSome) (depth : Nat) :
    ∀ {id}, a ∈ survivorsWithin rules tree depth id →
      b ∈ survivorsWithin rules tree (depth + 1) id := by
  induction depth with
  | zero => simp [survivorsWithin]
  | succ depth ih =>
      intro id ha
      rw [survivorsWithin] at ha ⊢
      cases hid : tree.get? id with
      | none => simp [hid] at ha
      | some top =>
          simp only [hid, List.mem_cons] at ha ⊢
          right
          rcases ha with rfl | ha
          · obtain rfl : top = node := Option.some.inj (hid.symm.trans hget)
            refine List.mem_flatMap.mpr ⟨b, hb, ?_⟩
            obtain ⟨child, hchild⟩ := Option.isSome_iff_exists.mp hsome
            simp [survivorsWithin, hchild]
          · obtain ⟨child, hchild, ha⟩ := List.mem_flatMap.mp ha
            exact List.mem_flatMap.mpr ⟨child, hchild, ih ha⟩

theorem mem_survivorsWithin_mono {rules : Rules} {tree : Tree} {i : NodeId} {depth depth' : Nat}
    (hle : depth ≤ depth') :
    ∀ {id}, i ∈ survivorsWithin rules tree depth id → i ∈ survivorsWithin rules tree depth' id := by
  induction depth generalizing depth' with
  | zero => simp [survivorsWithin]
  | succ depth ih =>
      intro id hi
      obtain ⟨depth', rfl⟩ : ∃ d, depth' = d + 1 := ⟨depth' - 1, by omega⟩
      rw [survivorsWithin] at hi ⊢
      cases hid : tree.get? id with
      | none => simp [hid] at hi
      | some top =>
          simp only [hid, List.mem_cons, List.mem_flatMap] at hi ⊢
          rcases hi with rfl | ⟨child, hchild, hi⟩
          · exact .inl rfl
          · exact .inr ⟨child, hchild, ih (by omega) hi⟩

/-- The nodes above a surviving node are distinct, and there are as many as it takes levels to
reach it. -/
theorem exists_chain {rules : Rules} {tree : Tree} {root i : NodeId}
    (h : tree.IsTreeBelow root) (hi : Survives rules tree root i) :
    tree.Reaches root i ∧ ∃ chain : List NodeId, chain.Nodup ∧
      (∀ a ∈ chain, a < tree.size ∧ tree.Reaches a i) ∧
      i ∈ survivorsWithin rules tree chain.length root := by
  induction hi with
  | root hsome =>
      obtain ⟨node, hget⟩ := Option.isSome_iff_exists.mp hsome
      refine ⟨.refl, [root], List.nodup_singleton _, ?_, ?_⟩
      · intro a ha
        rw [List.mem_singleton] at ha
        subst ha
        exact ⟨Tree.lt_size_of_get? hget, .refl⟩
      · simp [survivorsWithin, hget]
  | @child a b node _ hget hb hsome ih =>
      obtain ⟨hreach, chain, hnodup, habove, hmem⟩ := ih
      obtain ⟨child, hchild⟩ := Option.isSome_iff_exists.mp hsome
      have hholds := holds_of_mem_erasedSlots hget hb
      refine ⟨hreach.tail hholds, b :: chain, List.nodup_cons.mpr ⟨?_, hnodup⟩, ?_, ?_⟩
      · intro hbc
        exact h.acyclic a b hreach hholds (habove b hbc).2
      · intro c hc
        rcases List.mem_cons.mp hc with rfl | hc
        · exact ⟨Tree.lt_size_of_get? hchild, .refl⟩
        · exact ⟨(habove c hc).1, (habove c hc).2.tail hholds⟩
      · exact mem_survivorsWithin_succ hget hb hsome _ hmem

/-- As many levels as the table has nodes are enough. -/
theorem mem_survivors_iff {rules : Rules} {tree : Tree} {root i : NodeId}
    (h : tree.IsTreeBelow root) :
    i ∈ survivorsWithin rules tree tree.size root ↔ Survives rules tree root i := by
  constructor
  · intro hi
    have hroot : Survives rules tree root root := by
      refine .root ?_
      cases hsize : tree.size with
      | zero => simp [hsize, survivorsWithin] at hi
      | succ depth =>
          rw [hsize, survivorsWithin] at hi
          cases hget : tree.get? root <;> simp [hget] at hi ⊢
    exact survives_of_mem _ hroot hi
  · intro hi
    obtain ⟨-, chain, hnodup, habove, hmem⟩ := exists_chain h hi
    have hle : chain.length ≤ tree.size := by
      have hsubset : chain ⊆ List.range tree.size := fun a ha =>
        List.mem_range.mpr (habove a ha).1
      simpa using (hnodup.subperm hsubset).length_le
    exact mem_survivorsWithin_mono hle hmem

/-! ## Counting -/

/-- The fields of surviving nodes that the rules clear and that are not absent before the pass. -/
def clearedFields (rules : Rules) (tree : Tree) (root : NodeId) : Set (NodeId × Field) :=
  {(id, field) | Survives rules tree root id ∧ ∃ node spec slot, tree.get? id = some node ∧
    (spec, slot) ∈ node.fields ∧ spec.field = field ∧ rules.strips node.kind field ∧
    slot ≠ .absent}

/-- The children of deleted kinds in the fields of surviving nodes that the rules do not clear. -/
def removedChildren (rules : Rules) (tree : Tree) (root : NodeId) : Set NodeId :=
  {child | isDeleted rules tree child ∧ ∃ id node spec slot, Survives rules tree root id ∧
    tree.get? id = some node ∧ (spec, slot) ∈ node.fields ∧
    rules.strips node.kind spec.field = false ∧ child ∈ slot.children}

private theorem ncard_eq_length {α : Type} {s : Set α} {l : List α} (hnodup : l.Nodup)
    (hmem : ∀ a, a ∈ l ↔ a ∈ s) : s.ncard = l.length := by
  classical
  have hs : s = (l.toFinset : Set α) := by
    ext a
    simp [hmem]
  rw [hs, Set.ncard_coe_finset, List.toFinset_card_of_nodup hnodup]

private theorem map_fst_zip_sublist {α β : Type} :
    ∀ (l : List α) (l' : List β), ((l.zip l').map Prod.fst).Sublist l
  | [], _ => by simp
  | _ :: _, [] => by simp
  | a :: l, _ :: l' => by simpa using map_fst_zip_sublist l l'

private theorem map_snd_zip_sublist {α β : Type} :
    ∀ (l : List α) (l' : List β), ((l.zip l').map Prod.snd).Sublist l'
  | [], _ => by simp
  | _ :: _, [] => by simp
  | _ :: l, b :: l' => by simpa using map_snd_zip_sublist l l'

private def clearedAt (rules : Rules) (tree : Tree) (id : NodeId) : List (NodeId × Field) :=
  match tree.get? id with
  | none => []
  | some node =>
    (node.fields.filter fun (spec, slot) =>
      rules.strips node.kind spec.field && slot != .absent).map fun (spec, _) => (id, spec.field)

private theorem length_clearedAt (rules : Rules) (tree : Tree) (id : NodeId) :
    (clearedAt rules tree id).length = countAt (clearedCount rules) tree id := by
  unfold clearedAt countAt
  cases tree.get? id with
  | none => rfl
  | some node => simp [clearedCount, List.countP_eq_length_filter]

private theorem nodup_clearedAt (rules : Rules) (tree : Tree) (id : NodeId) :
    (clearedAt rules tree id).Nodup := by
  unfold clearedAt
  cases tree.get? id with
  | none => exact List.nodup_nil
  | some node =>
      have hfields : (node.fields.map fun (spec, _) => spec.field).Nodup := by
        have hsub : (node.fields.map Prod.fst).Sublist node.kind.schema := by
          exact map_fst_zip_sublist _ _
        have := node.kind.nodup_schema.sublist (hsub.map (·.field))
        simpa [Function.comp_def] using this
      have hfilter := hfields.sublist <| (List.filter_sublist (l := node.fields)
        (p := fun (spec, slot) => rules.strips node.kind spec.field && slot != .absent)).map _
      have hpairs := hfilter.map (Prod.mk_right_injective id)
      simpa [Function.comp_def] using hpairs

theorem ncard_clearedFields {rules : Rules} {tree : Tree} {root : NodeId}
    (h : tree.IsTreeBelow root) :
    (clearedFields rules tree root).ncard =
      ((survivorsWithin rules tree tree.size root).map (countAt (clearedCount rules) tree)).sum := by
  rw [ncard_eq_length (l := (survivorsWithin rules tree tree.size root).flatMap
    (clearedAt rules tree))]
  · simp only [List.length_flatMap, length_clearedAt]
  · refine List.nodup_flatMap.mpr ⟨fun id _ => nodup_clearedAt rules tree id, ?_⟩
    refine (nodup_survivorsWithin rules h _ root .refl).imp fun {a b} hne => ?_
    have hfst : ∀ {id x}, x ∈ clearedAt rules tree id → x.1 = id := by
      intro id x hx
      unfold clearedAt at hx
      cases hget : tree.get? id with
      | none => simp [hget] at hx
      | some node =>
          simp only [hget, List.mem_map] at hx
          obtain ⟨_, _, rfl⟩ := hx
          rfl
    intro x hx hx'
    exact hne ((hfst hx).symm.trans (hfst hx'))
  · rintro ⟨id, field⟩
    simp only [List.mem_flatMap, mem_survivors_iff h, clearedFields, Set.mem_ofPred_eq]
    constructor
    · rintro ⟨a, ha, hmem⟩
      unfold clearedAt at hmem
      cases hget : tree.get? a with
      | none => simp [hget] at hmem
      | some node =>
          simp only [hget, List.mem_map, List.mem_filter, Bool.and_eq_true, bne_iff_ne] at hmem
          obtain ⟨⟨spec, slot⟩, ⟨hfield, hstrips, hne⟩, heq⟩ := hmem
          obtain ⟨rfl, rfl⟩ := Prod.mk.inj heq
          exact ⟨ha, node, spec, slot, hget, hfield, rfl, hstrips, hne⟩
    · rintro ⟨ha, node, spec, slot, hget, hfield, rfl, hstrips, hne⟩
      refine ⟨id, ha, ?_⟩
      simp only [clearedAt, hget, List.mem_map, List.mem_filter, Bool.and_eq_true, bne_iff_ne]
      exact ⟨(spec, slot), ⟨hfield, hstrips, hne⟩, rfl⟩

private def removedAt (rules : Rules) (tree : Tree) (id : NodeId) : List NodeId :=
  match tree.get? id with
  | none => []
  | some node =>
    node.fields.flatMap fun (spec, slot) =>
      if rules.strips node.kind spec.field then []
      else slot.children.filter fun child : NodeId => isDeleted rules tree child

private theorem length_filter_children (rules : Rules) (tree : Tree) (slot : Slot) :
    (slot.children.filter fun child : NodeId => isDeleted rules tree child).length =
      deletedCount rules tree slot := by
  cases slot with
  | absent => rfl
  | node child => by_cases h : isDeleted rules tree child <;> simp [Slot.children, deletedCount, h]
  | list items =>
      obtain ⟨nodes, start, stop⟩ := items
      simp only [Slot.children, deletedCount]
      induction nodes with
      | nil => rfl
      | cons node nodes ih =>
          cases node with
          | none => simpa [isDeleted, Tree.lookup?] using ih
          | some child =>
              by_cases h : isDeleted rules tree child <;>
                simpa [h, List.filterMap_cons] using ih

private theorem length_removedAt (rules : Rules) (tree : Tree) (id : NodeId) :
    (removedAt rules tree id).length = countAt (removedCount rules tree) tree id := by
  unfold removedAt countAt
  cases tree.get? id with
  | none => rfl
  | some node =>
      simp only [Option.map_some, Option.getD_some, List.length_flatMap, removedCount]
      congr 1
      apply List.map_congr_left
      rintro ⟨spec, slot⟩ -
      by_cases h : rules.strips node.kind spec.field <;> simp [h, length_filter_children]

private theorem removedAt_sublist (rules : Rules) (tree : Tree) (id : NodeId) :
    (removedAt rules tree id).Sublist (tree.children id) := by
  unfold removedAt Tree.children
  cases tree.get? id with
  | none => exact .refl _
  | some node =>
      have hfields : (node.fields.flatMap fun (_, slot) => slot.children).Sublist
          node.children := by
        have hsub : (node.fields.map Prod.snd).Sublist node.slots := by
          exact map_snd_zip_sublist _ _
        have := hsub.flatMap Slot.children
        simpa [List.flatMap_map, Node.children] using this
      refine (List.Sublist.flatMap_right _ ?_).trans hfields
      rintro ⟨spec, slot⟩ -
      by_cases h : rules.strips node.kind spec.field <;> simp [h, List.filter_sublist]

theorem ncard_removedChildren {rules : Rules} {tree : Tree} {root : NodeId}
    (h : tree.IsTreeBelow root) :
    (removedChildren rules tree root).ncard =
      ((survivorsWithin rules tree tree.size root).map
        (countAt (removedCount rules tree) tree)).sum := by
  have hreach : ∀ id ∈ survivorsWithin rules tree tree.size root, tree.Reaches root id :=
    fun id hid => reaches_of_mem_survivorsWithin _ hid
  rw [ncard_eq_length (l := (survivorsWithin rules tree tree.size root).flatMap
    (removedAt rules tree))]
  · simp only [List.length_flatMap, length_removedAt]
  · refine List.nodup_flatMap.mpr ⟨fun id hid => ?_, ?_⟩
    · exact (h.nodup id (hreach id hid)).sublist (removedAt_sublist rules tree id)
    · refine (nodup_survivorsWithin rules h _ root .refl).imp_of_mem fun {a b} ha hb hne => ?_
      intro child hchild hchild'
      exact hne (h.parent a b child (hreach a ha) (hreach b hb)
        ((removedAt_sublist rules tree a).subset hchild)
        ((removedAt_sublist rules tree b).subset hchild'))
  · intro child
    simp only [List.mem_flatMap, mem_survivors_iff h, removedChildren, Set.mem_ofPred_eq]
    constructor
    · rintro ⟨a, ha, hmem⟩
      unfold removedAt at hmem
      cases hget : tree.get? a with
      | none => simp [hget] at hmem
      | some node =>
          simp only [hget, List.mem_flatMap] at hmem
          obtain ⟨⟨spec, slot⟩, hfield, hmem⟩ := hmem
          by_cases hstrips : rules.strips node.kind spec.field
          · simp [hstrips] at hmem
          · simp only [hstrips, Bool.false_eq_true, if_false, List.mem_filter] at hmem
            exact ⟨hmem.2, a, node, spec, slot, ha, hget, hfield, by simpa using hstrips, hmem.1⟩
    · rintro ⟨hdel, a, node, spec, slot, ha, hget, hfield, hstrips, hchild⟩
      refine ⟨a, ha, ?_⟩
      simp only [removedAt, hget, List.mem_flatMap]
      exact ⟨(spec, slot), hfield, by simp [hstrips, hchild, hdel]⟩

/-! ## The outcome -/

structure Outcome (rules : Rules) (tree : Tree) (root : NodeId) (out : Tree)
    (stats : ErasureStats) : Prop where
  /-- Nothing but slots, parents and marks changes. -/
  kin : tree.Kin out
  /-- At each surviving node the rules have been applied to every slot. -/
  surviving : ∀ id node, Survives rules tree root id → tree.get? id = some node →
    out.slots id = erasedSlots rules tree node
  /-- All other slots are as before. -/
  others : ∀ id, ¬Survives rules tree root id → out.slots id = tree.slots id
  /-- The surviving nodes are those that can be reached now. -/
  reachable : ∀ id, Survives rules tree root id ↔ out.Reaches root id ∧ (out.get? id).isSome
  noneDeleted : ∀ id, out.Reaches root id → isDeleted rules out id = false
  allCleared : ∀ id node spec slot, out.Reaches root id → out.get? id = some node →
    (spec, slot) ∈ node.fields → rules.strips node.kind spec.field → slot = .absent
  visited : stats.visited = {id | out.Reaches root id ∧ (out.get? id).isSome}.ncard
  cleared : stats.cleared = (clearedFields rules tree root).ncard
  deleted : stats.deleted = (removedChildren rules tree root).ncard

theorem erase_eq_passWithin {rules : Rules} {tree : Tree} {root : NodeId}
    (h : isDeleted rules tree root = false) :
    tree.erase rules root =
      ((passWithin rules tree.size root { tree }).tree,
        (passWithin rules tree.size root { tree }).stats) := by
  unfold Tree.erase
  cases hget : tree.get? root with
  | none =>
      have hpass : passWithin rules tree.size root { tree } = { tree } := by
        cases tree.size with
        | zero => rfl
        | succ depth => simp [passWithin, visit, hget, Tree.children]
      simp [Tree.kind?, hget, hpass]
  | some node =>
      have hkept : rules.deletes node.kind = false := by
        simpa [isDeleted, Tree.lookup?, hget] using h
      simp [Tree.kind?, hget, hkept]

/-- A slot that belongs to a field keeps no child of a deleted kind, and nothing at all if the rules
clear the field. -/
theorem getElem?_erasedSlots {rules : Rules} {tree : Tree} {node : Node} {index : Nat}
    {spec : FieldSpec} (hspec : node.kind.schema[index]? = some spec) :
    (erasedSlots rules tree node)[index]? = (node.slots[index]?).map fun slot =>
      if rules.strips node.kind spec.field then .absent else keptOf rules tree slot := by
  rw [erasedSlots, List.getElem?_mapIdx]
  congr 1
  funext slot
  simp [erasedSlot, hspec]

theorem isDeleted_of_mem_keptOf {rules : Rules} {tree : Tree} {slot : Slot} {child : NodeId}
    (h : child ∈ (keptOf rules tree slot).children) : isDeleted rules tree child = false := by
  cases slot with
  | absent => simp [keptOf, Slot.children] at h
  | node other =>
      by_cases hdel : isDeleted rules tree other
      · simp [keptOf, hdel, Slot.children] at h
      · have heq : child = other := by simpa [keptOf, hdel, Slot.children] using h
        simpa [heq] using hdel
  | list items =>
      simp only [keptOf, Slot.children, List.mem_filterMap, List.mem_filter] at h
      obtain ⟨handle, ⟨-, hkept⟩, heq⟩ := h
      rw [id_eq] at heq
      simpa [heq] using hkept

theorem isDeleted_of_mem_erasedSlots {rules : Rules} {tree : Tree} {node : Node} {child : NodeId}
    (hfits : node.slots.length = node.kind.schema.length)
    (h : child ∈ (erasedSlots rules tree node).flatMap Slot.children) :
    isDeleted rules tree child = false := by
  obtain ⟨slot, hslot, hchild⟩ := List.mem_flatMap.mp h
  obtain ⟨index, hindex⟩ := List.mem_iff_getElem?.mp hslot
  have hlt : index < node.kind.schema.length := by
    have := (List.getElem?_eq_some_iff.mp hindex).choose
    simpa [erasedSlots, hfits] using this
  rw [getElem?_erasedSlots (List.getElem?_eq_getElem hlt)] at hindex
  obtain ⟨before, -, rfl⟩ := Option.map_eq_some_iff.mp hindex
  by_cases hstrips : rules.strips node.kind node.kind.schema[index].field
  · simp [hstrips, Slot.children] at hchild
  · simp only [hstrips, Bool.false_eq_true, if_false] at hchild
    exact isDeleted_of_mem_keptOf hchild

theorem visited_erase {tree : Tree} {rules : Rules} {root : NodeId} (htree : tree.IsTreeBelow root)
    (hroot : isDeleted rules tree root = false) :
    Visited rules tree (survivorsWithin rules tree tree.size root) { tree }
      ⟨(tree.erase rules root).1, (tree.erase rules root).2⟩ := by
  rw [erase_eq_passWithin hroot]
  have hnodup := nodup_survivorsWithin rules htree tree.size root .refl
  exact visited_passWithin tree.size root { tree } (.refl tree) hnodup fun _ _ => rfl

/-- A pass over a tree ends with the tree of the recursive definition. -/
theorem erase_outcome (tree : Tree) (rules : Rules) (root : NodeId) (hfits : tree.Fits)
    (htree : tree.IsTreeBelow root) (hroot : isDeleted rules tree root = false) :
    Outcome rules tree root (tree.erase rules root).1 (tree.erase rules root).2 := by
  have hnodup := nodup_survivorsWithin rules htree tree.size root .refl
  have hvisited := visited_erase htree hroot
  generalize hq : (⟨(tree.erase rules root).1, (tree.erase rules root).2⟩ : Progress) = q at hvisited
  rw [show (tree.erase rules root).1 = q.tree from hq ▸ rfl,
    show (tree.erase rules root).2 = q.stats from hq ▸ rfl]
  have hkin : tree.Kin q.tree := hvisited.kin
  have hsurviving : ∀ id node, Survives rules tree root id → tree.get? id = some node →
      q.tree.slots id = erasedSlots rules tree node := fun id node hid hget =>
    hvisited.done id ((mem_survivors_iff htree).mpr hid) node hget
  have hreachable : ∀ id, Survives rules tree root id ↔
      q.tree.Reaches root id ∧ (q.tree.get? id).isSome := by
    intro id
    constructor
    · intro hid
      induction hid with
      | root hsome => exact ⟨.refl, hkin.isSome root ▸ hsome⟩
      | @child a b node ha hget hb hsome ih =>
          refine ⟨ih.1.tail ?_, hkin.isSome b ▸ hsome⟩
          rw [Tree.Holds, Tree.children_eq, hsurviving a node ha hget]
          exact hb
    · rintro ⟨hreach, hsome⟩
      rw [hkin.isSome id] at hsome
      induction hreach with
      | refl => exact .root hsome
      | @tail a b _ hholds ih =>
          have ha : (tree.get? a).isSome := by
            rw [← hkin.isSome a]
            obtain ⟨node, hget⟩ := Tree.exists_get? (Tree.lt_size_of_holds hholds)
            simp [hget]
          obtain ⟨node, hget⟩ := Option.isSome_iff_exists.mp ha
          rw [Tree.Holds, Tree.children_eq, hsurviving a node (ih ha) hget] at hholds
          exact .child (ih ha) hget hholds hsome
  have hexists : ∀ {id}, q.tree.Reaches root id → ∀ {node}, q.tree.get? id = some node →
      Survives rules tree root id := fun hreach _ hget =>
    (hreachable _).mpr ⟨hreach, by simp [hget]⟩
  constructor
  · exact hkin
  · exact hsurviving
  · intro id hid
    exact hvisited.rest id ((mem_survivors_iff htree).not.mpr hid)
  · exact hreachable
  · intro id hreach
    rw [isDeleted_kin hkin]
    cases hget : q.tree.get? id with
    | none =>
        have hnone : tree.get? id = none := by simpa [hget] using hkin.isSome id
        simp [isDeleted, Tree.lookup?, hnone]
    | some node =>
        cases hexists hreach hget with
        | root => exact hroot
        | child _ hget hb _ => exact isDeleted_of_mem_erasedSlots (hfits _ _ hget) hb
  · intro id node spec slot hreach hget hfield hstrips
    have hid := hexists hreach hget
    have hsome : (tree.get? id).isSome := by
      rw [← hkin.isSome id]
      simp [hget]
    obtain ⟨old, hold⟩ := Option.isSome_iff_exists.mp hsome
    have hkind := (hkin.node hold hget).kind
    have hslots := hsurviving id old hid hold
    rw [Tree.slots_of_get? hget] at hslots
    obtain ⟨index, hindex⟩ := List.mem_iff_getElem?.mp hfield
    obtain ⟨hspec, hslot⟩ := List.getElem?_zip_eq_some.mp hindex
    rw [← hkind] at hspec hstrips
    rw [hslots, getElem?_erasedSlots hspec] at hslot
    obtain ⟨before, -, hbefore⟩ := Option.map_eq_some_iff.mp hslot
    exact hbefore.symm.trans (if_pos hstrips)
  · rw [ncard_eq_length hnodup]
    · simp [hvisited.stats]
    · intro id
      rw [mem_survivors_iff htree]
      exact hreachable id
  · rw [ncard_clearedFields htree]
    simp [hvisited.stats]
  · rw [ncard_removedChildren htree]
    simp [hvisited.stats]

def annotated : Tree :=
  let tree := Tree.empty
  let (first, tree) := tree.add { kind := .typeAlias, start := 0, stop := 10, slots := [] }
  let (type, tree) := tree.add { kind := .ascription, start := 12, stop := 20, slots := [] }
  let (name, tree) := tree.add
    { kind := .identifier, start := 11, stop := 20, slots := [.absent, .node type] }
  let body := Slot.list ⟨[some first, some name], 0, 20⟩
  (tree.add { kind := .program, start := 0, stop := 20, slots := [body] }).2

theorem erase_outcome_annotated :
    Outcome .standard annotated 3 (annotated.erase .standard 3).1 (annotated.erase .standard 3).2 ∧
      (annotated.erase .standard 3).2 = { visited := 2, deleted := 1, cleared := 1 } := by
  refine ⟨erase_outcome annotated .standard 3 ?_ ?_ (by decide), by decide⟩
  · exact (((Tree.fits_empty.add _).add _).add _).add _
  · exact Tree.isTreeBelow_of_children_lt 3 (by decide) (by decide) (by decide)

end Erasure

end FlowErasure
