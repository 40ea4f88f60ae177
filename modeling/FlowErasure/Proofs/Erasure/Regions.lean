import FlowErasure.Proofs.Erasure.Pruning

/-!
# Removed regions

The parts of a source that belong to what a pass removes: the node of a field that becomes empty, a
list that is cleared as a whole, and each longest run of deleted statements or class members. At a node
without marks, and below it, there are none.
-/

namespace FlowErasure

/-- A longest run of consecutive elements that satisfy `p`. -/
def IsRun {α : Type} (p : α → Bool) (as run : List α) : Prop :=
  ∃ before after, as = before ++ run ++ after ∧ run ≠ [] ∧ (∀ a ∈ run, p a) ∧
    (∀ a, before.getLast? = some a → p a = false) ∧ ∀ a, after.head? = some a → p a = false

section

variable {α : Type} {p : α → Bool} {as bs run : List α} {b : α}

theorem isRun_of_all (h : ∀ a ∈ as, p a) : IsRun p as run ↔ run = as ∧ as ≠ [] := by
  constructor
  · rintro ⟨before, after, rfl, hne, -, hbefore, hafter⟩
    have hnil : before = [] := by
      cases hlast : before.getLast? with
      | none => exact List.getLast?_eq_none_iff.mp hlast
      | some a =>
          have ha : p a := h a (by simp [List.mem_of_getLast? hlast])
          simp [hbefore a hlast] at ha
    have hnil' : after = [] := by
      cases after with
      | nil => rfl
      | cons a after =>
          have ha : p a := h a (by simp)
          simp [hafter a rfl] at ha
    simp [hnil, hnil', hne]
  · rintro ⟨rfl, hne⟩
    exact ⟨[], [], by simp, hne, h, by simp, by simp⟩

theorem isRun_append_cons (h : ∀ a ∈ as, p a) (hb : p b = false) :
    IsRun p (as ++ b :: bs) run ↔ (run = as ∧ as ≠ []) ∨ IsRun p bs run := by
  constructor
  · rintro ⟨before, after, heq, hne, hrun, hbefore, hafter⟩
    rw [List.append_assoc] at heq
    rcases List.append_eq_append_iff.mp heq with ⟨mid, rfl, hmid⟩ | ⟨mid, rfl, hmid⟩
    · -- The run starts after `as`, and not with `b`.
      right
      cases mid with
      | nil =>
          obtain ⟨a, run, rfl⟩ := List.exists_cons_of_ne_nil hne
          obtain ⟨rfl, -⟩ := List.cons.inj hmid
          simpa [hb] using hrun b (by simp)
      | cons a mid =>
          obtain ⟨rfl, rfl⟩ := List.cons.inj hmid
          refine ⟨mid, after, by simp, hne, hrun, fun a ha => hbefore a ?_, hafter⟩
          rw [List.getLast?_append_of_ne_nil _ (by simp), List.getLast?_cons, ha]
          rfl
    · -- The run starts in `as`, so with its first element.
      left
      have hnil : before = [] := by
        cases hlast : before.getLast? with
        | none => exact List.getLast?_eq_none_iff.mp hlast
        | some a =>
            have ha : p a := h a (by simp [List.mem_of_getLast? hlast])
            simp [hbefore a hlast] at ha
      subst hnil
      rw [List.nil_append]
      rcases List.append_eq_append_iff.mp hmid with ⟨rest, rfl, rfl⟩ | ⟨rest, rfl, hb'⟩
      · cases rest with
        | nil => simpa using hne
        | cons a rest =>
            have ha : p a := h a (by simp)
            simp [hafter a rfl] at ha
      · cases rest with
        | nil => simpa using hne
        | cons a rest =>
            obtain ⟨rfl, -⟩ := List.cons.inj hb'
            simpa [hb] using hrun b (by simp)
  · rintro (⟨rfl, hne⟩ | ⟨before, after, rfl, hne, hrun, hbefore, hafter⟩)
    · exact ⟨[], b :: bs, by simp, hne, h, by simp, by simpa using hb⟩
    · refine ⟨as ++ b :: before, after, by simp, hne, hrun, fun a ha => ?_, hafter⟩
      rw [List.getLast?_append_of_ne_nil _ (by simp), List.getLast?_cons] at ha
      cases hlast : before.getLast? with
      | none =>
          rw [hlast] at ha
          exact Option.some.inj ha ▸ hb
      | some last =>
          rw [hlast] at ha
          exact hbefore a (hlast.trans ha)

theorem exists_isRun_of_all {q : List α → Prop} (h : ∀ a ∈ as, p a) :
    (∃ run, IsRun p as run ∧ q run) ↔ as ≠ [] ∧ q as := by
  simp [isRun_of_all h, and_assoc]

theorem exists_isRun_append_cons {q : List α → Prop} (h : ∀ a ∈ as, p a) (hb : p b = false) :
    (∃ run, IsRun p (as ++ b :: bs) run ∧ q run) ↔
      (as ≠ [] ∧ q as) ∨ ∃ run, IsRun p bs run ∧ q run := by
  simp [isRun_append_cons h hb, or_and_right, exists_or, and_assoc]

end

namespace Erasure

def Spans (tree : Tree) (elements : List Handle) (range : Nat × Nat) : Prop :=
  ∃ a b first last, elements.head? = some (some a) ∧ elements.getLast? = some (some b) ∧
    tree.get? a = some first ∧ tree.get? b = some last ∧ range = (first.start, last.stop)

theorem Spans.unique {tree : Tree} {elements : List Handle} {range range' : Nat × Nat}
    (h : Spans tree elements range) (h' : Spans tree elements range') : range = range' := by
  obtain ⟨a, b, first, last, ha, hb, hfirst, hlast, rfl⟩ := h
  obtain ⟨a', b', first', last', ha', hb', hfirst', hlast', rfl⟩ := h'
  obtain rfl : a = a' := by simpa using ha.symm.trans ha'
  obtain rfl : b = b' := by simpa using hb.symm.trans hb'
  rw [Option.some.inj (hfirst.symm.trans hfirst'), Option.some.inj (hlast.symm.trans hlast')]

inductive RemovedIn (rules : Rules) (tree : Tree) (kind : NodeKind) (spec : FieldSpec) :
    Slot → Nat × Nat → Prop where
  /-- The node of a field that is cleared, or a node of a deleted kind. -/
  | field {id : NodeId} {child : Node} : tree.get? id = some child →
    rules.strips kind spec.field ∨ rules.deletes child.kind →
    RemovedIn rules tree kind spec (.node id) (child.start, child.stop)
  /-- A list that is cleared, with its keyword and its delimiters. -/
  | clause {items : NodeList} : rules.strips kind spec.field →
    RemovedIn rules tree kind spec (.list items) (items.start, items.stop)
  /-- A longest run of deleted statements or class members. -/
  | run {items : NodeList} {run : List Handle} {range : Nat × Nat} :
    rules.strips kind spec.field = false → spec.shape = .block →
    IsRun (isDeleted rules tree) items.nodes run → Spans tree run range →
    RemovedIn rules tree kind spec (.list items) range

def RemovedAt (rules : Rules) (tree : Tree) (node : Node) (range : Nat × Nat) : Prop :=
  ∃ spec slot, (spec, slot) ∈ node.fields ∧ RemovedIn rules tree node.kind spec slot range

def Removed (rules : Rules) (tree : Tree) (root : NodeId) (range : Nat × Nat) : Prop :=
  ∃ id node, Survives rules tree root id ∧ tree.get? id = some node ∧
    RemovedAt rules tree node range

variable {rules : Rules} {tree : Tree} {root id : NodeId} {node : Node} {range : Nat × Nat}

/-- The standard rules delete what means nothing when the program runs. -/
theorem deletes_standard (kind : NodeKind) : Rules.standard.deletes kind = kind.isTypeOnly := by
  cases kind <;> rfl

theorem isDeleted_of_isValue {t₀ : Tree} {id : NodeId} (h : t₀.IsValue id) :
    isDeleted .standard t₀ (some id) = false := by
  obtain ⟨face, hface, hkind⟩ := h
  obtain ⟨node, hget, rfl⟩ := Tree.get?_of_face? hface
  rw [isDeleted, Tree.lookup?, Option.bind_some, hget, Option.any_some, deletes_standard]
  exact hkind

def keptChildren (rules : Rules) (tree : Tree) (node : Node) : List NodeId :=
  (erasedSlots rules tree node).flatMap Slot.children

theorem erased_ne_of_removedIn {spec : FieldSpec} {slot : Slot}
    (h : RemovedIn rules tree node.kind spec slot range) :
    (if rules.strips node.kind spec.field then .absent else keptOf rules tree slot) ≠ slot := by
  cases h with
  | @field id child hget hremoved =>
      rcases hremoved with hstrips | hdeletes
      · simp [hstrips]
      · split
        · simp
        · simp [keptOf, isDeleted, Tree.lookup?, hget, hdeletes]
  | clause hstrips => simp [hstrips]
  | @run items run range hstrips hshape hrun hspans =>
      obtain ⟨before, after, hnodes, hne, hdeleted, -⟩ := hrun
      obtain ⟨handle, hhandle⟩ := List.exists_mem_of_ne_nil run hne
      have hmem : handle ∈ items.nodes := by simp [hnodes, hhandle]
      intro heq
      simp only [hstrips, Bool.false_eq_true, if_false, keptOf, Slot.list.injEq] at heq
      have hfilter : items.nodes.filter (!isDeleted rules tree ·) = items.nodes :=
        congrArg NodeList.nodes heq
      rw [← hfilter] at hmem
      simp [hdeleted handle hhandle] at hmem

theorem not_removedAt_of_eq (hsame : erasedSlots rules tree node = node.slots) :
    ¬RemovedAt rules tree node range := by
  rintro ⟨spec, slot, hfield, hremoved⟩
  obtain ⟨index, hindex⟩ := List.mem_iff_getElem?.mp hfield
  obtain ⟨hspec, hslot⟩ := List.getElem?_zip_eq_some.mp hindex
  have herased : (erasedSlots rules tree node)[index]? = _ := getElem?_erasedSlots hspec
  rw [hsame, hslot] at herased
  exact erased_ne_of_removedIn hremoved (Option.some.inj herased).symm

theorem keptOf_of_deletedCount {slot : Slot} (h : deletedCount rules tree slot = 0) :
    keptOf rules tree slot = slot := by
  cases slot with
  | absent => rfl
  | node child =>
      have hkept : isDeleted rules tree child = false := by
        by_contra hdeleted
        simp [deletedCount, hdeleted] at h
      simp [keptOf, hkept]
  | list items =>
      have hkept := List.countP_eq_zero.mp h
      have hfilter : items.nodes.filter (!isDeleted rules tree ·) = items.nodes :=
        List.filter_eq_self.mpr fun handle hhandle => by simp [hkept handle hhandle]
      rw [keptOf, hfilter]

/-- A node that counts for nothing in a pass keeps its slots. -/
theorem erasedSlots_of_counts (hcleared : clearedCount rules node = 0)
    (hremoved : removedCount rules tree node = 0) : erasedSlots rules tree node = node.slots := by
  apply List.ext_getElem?
  intro index
  cases hspec : node.kind.schema[index]? with
  | none =>
      have hslot : erasedSlot rules tree node.kind index = fun slot => slot := by
        funext slot
        rw [erasedSlot, hspec]
      rw [erasedSlots, List.getElem?_mapIdx, hslot, Option.map_id_fun']
      rfl
  | some spec =>
      rw [getElem?_erasedSlots hspec]
      cases hslot : node.slots[index]? with
      | none => rfl
      | some slot =>
          have hfield : (spec, slot) ∈ node.fields :=
            List.mem_of_getElem? (List.getElem?_zip_eq_some.mpr ⟨hspec, hslot⟩)
          rw [Option.map_some]
          split
          · rename_i hstrips
            have habsent := List.countP_eq_zero.mp hcleared _ hfield
            simp only [hstrips, Bool.true_and, bne_iff_ne, not_not] at habsent
            rw [habsent]
          · rename_i hstrips
            have hcount := List.sum_eq_zero_iff_forall_eq_nat.mp hremoved _ (List.mem_map_of_mem hfield)
            simp only [hstrips] at hcount
            rw [keptOf_of_deletedCount hcount]

/-! ## Below a node -/

theorem Survives.trans {a b c : NodeId} (h : Survives rules tree a b)
    (h' : Survives rules tree b c) : Survives rules tree a c := by
  induction h' with
  | root => exact h
  | child _ hget hmem hsome ih => exact .child ih hget hmem hsome

theorem Survives.isSome (h : Survives rules tree root id) : (tree.get? id).isSome := by
  cases h with
  | root h => exact h
  | child _ _ _ h => exact h

/-- What survives below a node is the node, or survives below a surviving child. -/
theorem survives_iff (hget : tree.get? root = some node) :
    Survives rules tree root id ↔
      id = root ∨ ∃ child ∈ keptChildren rules tree node, Survives rules tree child id := by
  constructor
  · intro h
    induction h with
    | root => exact .inl rfl
    | @child a b other _ hother hb hsome ih =>
        rcases ih with rfl | ⟨child, hchild, hsurvives⟩
        · obtain rfl := Option.some.inj (hget.symm.trans hother)
          exact .inr ⟨b, hb, .root hsome⟩
        · exact .inr ⟨child, hchild, .child hsurvives hother hb hsome⟩
  · rintro (rfl | ⟨child, hchild, hsurvives⟩)
    · exact .root (by simp [hget])
    · have hsome : (tree.get? child).isSome := by
        clear hchild
        induction hsurvives with
        | root h => exact h
        | child _ _ _ _ ih => exact ih
      exact .trans (.child (.root (by simp [hget])) hget hchild hsome) hsurvives

/-- So what is removed is removed at the node or below a surviving child. -/
theorem removed_iff (hget : tree.get? root = some node) :
    Removed rules tree root range ↔ RemovedAt rules tree node range ∨
      ∃ child ∈ keptChildren rules tree node, Removed rules tree child range := by
  constructor
  · rintro ⟨id, other, hsurvives, hother, hremoved⟩
    rcases (survives_iff hget).mp hsurvives with rfl | ⟨child, hchild, hsurvives⟩
    · obtain rfl := Option.some.inj (hget.symm.trans hother)
      exact .inl hremoved
    · exact .inr ⟨child, hchild, id, other, hsurvives, hother, hremoved⟩
  · rintro (hremoved | ⟨child, hchild, id, other, hsurvives, hother, hremoved⟩)
    · exact ⟨root, node, .root (by simp [hget]), hget, hremoved⟩
    · exact ⟨id, other, (survives_iff hget).mpr (.inr ⟨child, hchild, hsurvives⟩), hother,
        hremoved⟩

end Erasure

open Erasure

/-! ## An erased tree -/

structure Tree.Erased (text : List Char) (t₀ tree : Tree) (root : NodeId) : Prop where
  read : t₀.ReadFrom text root
  prunes : t₀.Prunes tree
  slots : ∀ {id node}, Survives .standard t₀ root id → t₀.get? id = some node →
    tree.slots id = erasedSlots .standard t₀ node

theorem Tree.ReadFrom.erased {text : List Char} {tree : Tree} {root : NodeId}
    (h : tree.ReadFrom text root) : tree.Erased text (tree.erase .standard root).1 root where
  read := h
  prunes := h.prunes_erase
  slots {id node} hid hget := by
    have hvisited := visited_erase h.isTreeBelow h.isDeleted_root
    exact hvisited.done id ((mem_survivors_iff h.isTreeBelow).mpr hid) node hget

theorem Tree.ReadFrom.not_removed_of_unchanged {text : List Char} {tree : Tree} {root : NodeId}
    (h : tree.ReadFrom text root) (hsame : (tree.erase .standard root).2.changed = false)
    (range : Nat × Nat) : ¬Removed .standard tree root range := by
  rintro ⟨id, node, hid, hget, hremoved⟩
  have hmem := (mem_survivors_iff h.isTreeBelow).mpr hid
  have hstats := (visited_erase h.isTreeBelow h.isDeleted_root).stats
  simp only at hstats
  simp only [hstats, ErasureStats.changed, Nat.zero_add, Bool.or_eq_false_iff,
    decide_eq_false_iff_not, Nat.not_lt, Nat.le_zero, List.sum_eq_zero_iff_forall_eq_nat] at hsame
  have hcleared := hsame.2 _ (List.mem_map_of_mem hmem)
  have hcount := hsame.1 _ (List.mem_map_of_mem hmem)
  simp only [countAt, hget, Option.map_some, Option.getD_some] at hcleared hcount
  exact not_removedAt_of_eq (erasedSlots_of_counts hcleared hcount) hremoved

namespace Tree.Erased

variable {text : List Char} {t₀ tree : Tree} {root id : NodeId} {node : Node}

theorem reaches (h : t₀.Erased text tree root) (hid : Survives .standard t₀ root id) :
    t₀.Reaches root id :=
  (exists_chain h.read.isTreeBelow hid).1

theorem parentId? (h : t₀.Erased text tree root) (hid : Survives .standard t₀ root id)
    (hget : t₀.get? id = some node) {child : NodeId} (hchild : child ∈ keptChildren .standard t₀ node) :
    tree.parentId? child = some id := by
  rw [h.prunes.parent]
  exact h.read.parentId? (h.reaches hid) (holds_of_mem_erasedSlots hget hchild)

theorem survives_child (h : t₀.Erased text tree root) (hid : Survives .standard t₀ root id)
    (hget : t₀.get? id = some node) {child : NodeId}
    (hchild : child ∈ keptChildren .standard t₀ node) : Survives .standard t₀ root child := by
  refine .child hid hget hchild ?_
  have hholds := holds_of_mem_erasedSlots hget hchild
  obtain ⟨other, hother⟩ := exists_get?
    (Nat.lt_trans (h.read.lt_of_holds hholds) (lt_size_of_holds hholds))
  simp [hother]

theorem unmarked_below (h : t₀.Erased text tree root) (hid : Survives .standard t₀ root id)
    (hget : tree.get? id = some node) (hmarks : node.marks.any = false) {below : NodeId}
    (hbelow : Survives .standard t₀ id below) {other : Node}
    (hother : tree.get? below = some other) : other.marks.any = false := by
  induction hbelow generalizing other with
  | root => exact Option.some.inj (hget.symm.trans hother) ▸ hmarks
  | @child a b old ha hold hb _ ih =>
      obtain ⟨new, hnew, -⟩ := h.prunes.trims.kin.get? hold
      by_contra hany
      have hbelow := h.prunes.up hother (by simpa using hany)
        (h.parentId? (hid.trans ha) hold hb) hnew
      have hnone := ih hnew
      simp [Marks.any, hbelow] at hnone

theorem not_removed (h : t₀.Erased text tree root) (hid : Survives .standard t₀ root id)
    (hget : tree.get? id = some node) (hmarks : node.marks.any = false) (range : Nat × Nat) :
    ¬Removed .standard t₀ id range := by
  rintro ⟨below, old, hbelow, hold, hremoved⟩
  obtain ⟨new, hnew, hkin⟩ := h.prunes.trims.kin.get? hold
  have hunmarked := h.unmarked_below hid hget hmarks hbelow hnew
  refine not_removedAt_of_eq ?_ hremoved
  rw [← h.slots (hid.trans hbelow) hold, slots_of_get? hnew]
  have horiginal := hkin.original
  rw [Node.original, Node.original, h.prunes.own hnew hunmarked,
    (h.read.shape hold).unmarked.2] at horiginal
  exact horiginal.symm

/-- A surviving node means something when the program runs. -/
theorem isTypeOnly (h : t₀.Erased text tree root) (hid : Survives .standard t₀ root id)
    (hget : t₀.get? id = some node) : node.kind.isTypeOnly = false := by
  have hkept : isDeleted .standard t₀ (some id) = false := by
    cases hid with
    | root => exact h.read.isDeleted_root
    | child _ hparent hmem _ =>
        exact isDeleted_of_mem_erasedSlots (h.read.shape hparent).fits hmem
  rw [isDeleted, lookup?, Option.bind_some, hget, Option.any_some, deletes_standard] at hkept
  exact hkept

end Tree.Erased

end FlowErasure
