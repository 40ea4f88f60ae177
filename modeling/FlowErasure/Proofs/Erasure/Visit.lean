import FlowErasure.Erasure.Pass
import FlowErasure.Proofs.Syntax.Removal
import Mathlib

/-!
# Visiting one node

A visit clears the fields that the rules strip and takes out the children of deleted kinds, one path at
a time. Together that is one function on the slots of the node (`erasedSlots`), and the counts of
the pass are counts over these slots.
-/

namespace FlowErasure

def Rules.stripped (rules : Rules) (kind : NodeKind) : List Field :=
  match rules.action kind with
  | .strip fields => fields
  | _ => []

def Rules.strips (rules : Rules) (kind : NodeKind) (field : Field) : Bool :=
  (rules.stripped kind).contains field

namespace Erasure

/-- What remains of a slot without the children of deleted kinds. Holes stay. -/
def keptOf (rules : Rules) (tree : Tree) : Slot → Slot
  | .absent => .absent
  | .node child => if isDeleted rules tree child then .absent else .node child
  | .list items => .list { items with nodes := items.nodes.filter (!isDeleted rules tree ·) }

def deletedCount (rules : Rules) (tree : Tree) : Slot → Nat
  | .absent => 0
  | .node child => if isDeleted rules tree child then 1 else 0
  | .list items => items.nodes.countP (isDeleted rules tree)

def erasedSlot (rules : Rules) (tree : Tree) (kind : NodeKind) (index : Nat) (slot : Slot) : Slot :=
  match kind.schema[index]? with
  | none => slot
  | some spec => if rules.strips kind spec.field then .absent else keptOf rules tree slot

def erasedSlots (rules : Rules) (tree : Tree) (node : Node) : List Slot :=
  node.slots.mapIdx (erasedSlot rules tree node.kind)

def clearedCount (rules : Rules) (node : Node) : Nat :=
  node.fields.countP fun (spec, slot) => rules.strips node.kind spec.field && slot != .absent

def removedCount (rules : Rules) (tree : Tree) (node : Node) : Nat :=
  (node.fields.map fun (spec, slot) =>
    if rules.strips node.kind spec.field then 0 else deletedCount rules tree slot).sum

theorem isDeleted_kin {a b : Tree} (h : a.Kin b) (rules : Rules) (node : Handle) :
    isDeleted rules b node = isDeleted rules a node := by
  cases node with
  | none => rfl
  | some id =>
      have hkind := h.kind? id
      simp only [Tree.kind?] at hkind
      simp only [isDeleted, Tree.lookup?, Option.bind_some]
      cases ha : a.get? id <;> cases hb : b.get? id <;> simp_all

structure Sets (id : NodeId) (slots : List Slot) (p q : Progress) : Prop where
  kin : p.tree.Kin q.tree
  slots : ∀ i, q.tree.slots i = if i = id then slots else p.tree.slots i

namespace Sets

variable {id : NodeId} {slots slots' : List Slot} {p q r : Progress}

theorem refl (id : NodeId) (p : Progress) : Sets id (p.tree.slots id) p p where
  kin := .refl _
  slots i := by
    by_cases h : i = id <;> simp [h]

theorem trans (h : Sets id slots p q) (h' : Sets id slots' q r) : Sets id slots' p r where
  kin := h.kin.trans h'.kin
  slots i := by
    rw [h'.slots, h.slots]
    by_cases hi : i = id <;> simp [hi]

theorem get? (h : Sets id slots p q) {node : Node} (hget : p.tree.get? id = some node) :
    ∃ node', q.tree.get? id = some node' ∧ node'.kind = node.kind ∧ node'.slots = slots := by
  obtain ⟨node', hget', hkin⟩ := h.kin.get? hget
  have hslots := h.slots id
  rw [Tree.slots_of_get? hget', if_pos rfl] at hslots
  exact ⟨node', hget', hkin.kind.symm, hslots⟩

theorem replaceSlot {node : Node} {index : Nat} {spec : FieldSpec} {value : Slot}
    {stats : ErasureStats} (hget : p.tree.get? id = some node)
    (hspec : node.kind.schema[index]? = some spec) :
    Sets id (node.slots.set index value) p
      { tree := (p.tree.replaceSlot id index value).2, stats } where
  kin := Tree.kin_replaceSlot _ _ _ _
  slots i := by
    rw [Tree.slots_replaceSlot hget hspec]
    by_cases h : i = id
    · subst h
      simp [Tree.slots_of_get? hget]
    · simp [h]

end Sets

/-- A step of the pass that replaces a slot and counts it if the slot has changed. -/
theorem sets_of_replaceSlot {id : NodeId} {p : Progress} {node : Node} {index : Nat}
    {spec : FieldSpec} (value : Slot) (stats : ErasureStats)
    (hget : p.tree.get? id = some node) (hspec : node.kind.schema[index]? = some spec) :
    let changed := (p.tree.replaceSlot id index value).1
    let q := if changed then
      { tree := (p.tree.replaceSlot id index value).2, stats : Progress } else p
    Sets id (node.slots.set index value) p q := by
  intro changed q
  rcases p.tree.replaceSlot_cases id index value with h | ⟨_, _, -, h⟩
  · have hq : q = { tree := (p.tree.replaceSlot id index value).2, stats := p.stats } := by
      simp [q, changed, h]
    rw [hq]
    exact .replaceSlot hget hspec
  · have hq : q = { tree := (p.tree.replaceSlot id index value).2, stats } := by
      simp [q, changed, h]
    rw [hq]
    exact .replaceSlot hget hspec

/-! ## Clearing fields -/

/-- Clearing a field that the node does not have does nothing. -/
theorem clearField_none {id : NodeId} {p : Progress} {node : Node} {field : Field}
    (hget : p.tree.get? id = some node) (hindex : node.kind.fieldIndex? field = none) :
    p.clearField id field = p := by
  simp [Progress.clearField, Path.delete_field_none hget hindex]

/-- Clearing a field counts if its slot is there and is not absent. -/
theorem clearField_some {id : NodeId} {p : Progress} {node : Node} {field : Field} {index : Nat}
    (hget : p.tree.get? id = some node) (hindex : node.kind.fieldIndex? field = some index) :
    Sets id (node.slots.set index .absent) p (p.clearField id field) ∧
      (p.clearField id field).stats = { p.stats with
        cleared := p.stats.cleared +
          if (node.slots[index]?).any (· != .absent) then 1 else 0 } := by
  obtain ⟨spec, hspec, -⟩ := NodeKind.exists_of_fieldIndex? hindex
  have hsets := sets_of_replaceSlot .absent
    { p.stats with cleared := p.stats.cleared + 1 } hget hspec
  have hfst := Tree.replaceSlot_fst hget hspec .absent
  have heq : p.clearField id field =
      if (p.tree.replaceSlot id index .absent).1 then
        { tree := (p.tree.replaceSlot id index .absent).2
          stats := { p.stats with cleared := p.stats.cleared + 1 } }
      else p := by
    unfold Progress.clearField
    rw [Path.delete_field hget hindex]
    rcases p.tree.replaceSlot id index .absent with ⟨changed, tree⟩
    cases changed <;> rfl
  rw [heq]
  refine ⟨hsets, ?_⟩
  have hany : (node.slots[index]?).any (· != .absent) =
      (p.tree.replaceSlot id index .absent).1 := by
    rw [Bool.eq_iff_iff, hfst]
    by_cases hlt : index < node.slots.length
    · simp [hlt]
    · simp [hlt]
  rw [hany]
  split <;> rfl

def named (fields : List Field) (kind : NodeKind) (index : Nat) : Bool :=
  (kind.schema[index]?).any (fields.contains ·.field)

def clearing (fields : List Field) (node : Node) : List Slot :=
  node.slots.mapIdx fun index slot => if named fields node.kind index then .absent else slot

def clearingCount (fields : List Field) (node : Node) : Nat :=
  node.fields.countP fun (spec, slot) => fields.contains spec.field && slot != .absent

theorem getElem?_clearing (fields : List Field) (node : Node) (index : Nat) :
    (clearing fields node)[index]? =
      (node.slots[index]?).map fun slot => if named fields node.kind index then .absent else slot := by
  simp [clearing]

theorem clearing_append_none {fields : List Field} {node : Node} {field : Field}
    (hindex : node.kind.fieldIndex? field = none) :
    clearing (fields ++ [field]) node = clearing fields node := by
  apply List.ext_getElem?
  intro i
  rw [getElem?_clearing, getElem?_clearing]
  have hnamed : named (fields ++ [field]) node.kind i = named fields node.kind i := by
    unfold named
    cases hspec : node.kind.schema[i]? with
    | none => rfl
    | some spec =>
        have hne : spec.field ≠ field := by
          rintro rfl
          simp [NodeKind.fieldIndex?_field hspec] at hindex
        simp [hne]
  rw [hnamed]

theorem clearing_append_some {fields : List Field} {node : Node} {field : Field} {index : Nat}
    (hindex : node.kind.fieldIndex? field = some index) :
    clearing (fields ++ [field]) node = (clearing fields node).set index .absent := by
  obtain ⟨spec, hspec, rfl⟩ := NodeKind.exists_of_fieldIndex? hindex
  apply List.ext_getElem?
  intro i
  rw [getElem?_clearing, List.getElem?_set, getElem?_clearing]
  by_cases hi : index = i
  · subst hi
    have hnamed : named (fields ++ [spec.field]) node.kind index = true := by
      simp [named, hspec]
    by_cases hlt : index < node.slots.length
    · simp [hnamed, clearing, hlt]
    · simp [clearing, hlt]
  · have hnamed : named (fields ++ [spec.field]) node.kind i = named fields node.kind i := by
      unfold named
      cases hother : node.kind.schema[i]? with
      | none => rfl
      | some other =>
          have hne : other.field ≠ spec.field := by
            intro heq
            have := NodeKind.fieldIndex?_field hother
            rw [heq, hindex] at this
            exact hi (Option.some.inj this)
          simp [hne]
    simp [hi, hnamed]

/-- One more field adds at most one slot to the count: the fields of a schema are distinct. -/
private theorem countP_one_more (fields : List Field) (field : Field) :
    ∀ (specs : List FieldSpec) (slots : List Slot), (specs.map (·.field)).Nodup →
      (specs.zip slots).countP (fun (spec, slot) =>
          (fields ++ [field]).contains spec.field && slot != .absent) =
        (specs.zip slots).countP (fun (spec, slot) =>
            fields.contains spec.field && slot != .absent) +
          if ((specs.findIdx? (·.field == field)).bind (slots[·]?)).any
              (fun slot => !fields.contains field && slot != .absent) then 1 else 0
  | [], _, _ => by simp
  | _ :: _, [], _ => by simp
  | spec :: specs, slot :: slots, hnodup => by
      rw [List.map_cons, List.nodup_cons] at hnodup
      have ih := countP_one_more fields field specs slots hnodup.2
      rw [List.zip_cons_cons, List.countP_cons, List.countP_cons, List.findIdx?_cons]
      by_cases hfield : spec.field = field
      · have hrest : (specs.zip slots).countP (fun (spec, slot) =>
            (fields ++ [field]).contains spec.field && slot != .absent) =
          (specs.zip slots).countP (fun (spec, slot) =>
            fields.contains spec.field && slot != .absent) := by
          apply List.countP_congr
          rintro ⟨other, value⟩ hmem
          have hne : other.field ≠ field := by
            intro heq
            exact hnodup.1 (List.mem_map.mpr ⟨other, (List.of_mem_zip hmem).1, heq.trans hfield.symm⟩)
          simp [hne]
        rw [hrest]
        by_cases hin : field ∈ fields <;> by_cases habsent : slot = .absent <;>
          simp [hfield, hin, habsent]
      · have hbind : ((specs.findIdx? (·.field == field)).map (· + 1)).bind
            ((slot :: slots)[·]?) = (specs.findIdx? (·.field == field)).bind (slots[·]?) := by
          cases specs.findIdx? (·.field == field) <;> simp
        simp only [beq_iff_eq, hfield, if_false, hbind, ih]
        simp [hfield]
        omega

theorem clearingCount_append_none {fields : List Field} {node : Node} {field : Field}
    (hindex : node.kind.fieldIndex? field = none) :
    clearingCount (fields ++ [field]) node = clearingCount fields node := by
  have h := countP_one_more fields field node.kind.schema node.slots node.kind.nodup_schema
  unfold NodeKind.fieldIndex? at hindex
  rw [hindex] at h
  simpa [clearingCount, Node.fields] using h

theorem clearingCount_append_some {fields : List Field} {node : Node} {field : Field}
    {index : Nat} (hindex : node.kind.fieldIndex? field = some index) :
    clearingCount (fields ++ [field]) node = clearingCount fields node +
      if ((clearing fields node)[index]?).any (· != .absent) then 1 else 0 := by
  obtain ⟨spec, hspec, rfl⟩ := NodeKind.exists_of_fieldIndex? hindex
  have h := countP_one_more fields spec.field node.kind.schema node.slots node.kind.nodup_schema
  unfold NodeKind.fieldIndex? at hindex
  rw [hindex] at h
  unfold clearingCount Node.fields
  rw [h, getElem?_clearing]
  have hnamed : named fields node.kind index = fields.contains spec.field := by
    simp [named, hspec]
  rw [hnamed, Option.bind_some]
  cases node.slots[index]? with
  | none => simp
  | some slot => by_cases hin : spec.field ∈ fields <;> simp [hin]

theorem foldl_clearField {id : NodeId} {node : Node} {p : Progress}
    (hget : p.tree.get? id = some node) (fields : List Field) :
    let q := fields.foldl (Progress.clearField id) p
    Sets id (clearing fields node) p q ∧
      q.stats = { p.stats with cleared := p.stats.cleared + clearingCount fields node } := by
  induction fields using List.reverseRecOn with
  | nil =>
      have hslots : clearing [] node = p.tree.slots id := by
        rw [Tree.slots_of_get? hget]
        apply List.ext_getElem?
        intro i
        rw [getElem?_clearing]
        cases hspec : node.kind.schema[i]? <;> simp [named, hspec]
      have hcount : clearingCount [] node = 0 := by simp [clearingCount]
      rw [hslots, hcount]
      exact ⟨.refl id p, rfl⟩
  | append_singleton fields field ih =>
      obtain ⟨hsets, hstats⟩ := ih
      obtain ⟨node', hget', hkind, hslots⟩ := hsets.get? hget
      rw [List.foldl_append, List.foldl_cons, List.foldl_nil]
      cases hindex : node.kind.fieldIndex? field with
      | none =>
          rw [clearField_none hget' (by rw [hkind, hindex]), clearing_append_none hindex,
            clearingCount_append_none hindex]
          exact ⟨hsets, hstats⟩
      | some index =>
          obtain ⟨hstep, hcount⟩ := clearField_some hget' (by rw [hkind, hindex])
          rw [hslots] at hstep hcount
          rw [clearing_append_some hindex, clearingCount_append_some hindex]
          refine ⟨hsets.trans hstep, ?_⟩
          rw [hcount, hstats]
          simp [Nat.add_assoc]

/-! ## Taking out children -/

/-- Taking a child out of a slot by a path that leads there. -/
theorem deleteAt_eq {id : NodeId} {p : Progress} {node : Node} {index : Nat} {spec : FieldSpec}
    {value : Slot} {path : Path} (hget : p.tree.get? id = some node)
    (hspec : node.kind.schema[index]? = some spec)
    (hpath : path.delete p.tree = .ok (p.tree.replaceSlot id index value))
    (hlt : index < node.slots.length) (hne : node.slots[index]? ≠ some value) :
    Sets id (node.slots.set index value) p (p.deleteAt path) ∧
      (p.deleteAt path).stats = { p.stats with deleted := p.stats.deleted + 1 } := by
  have hsets := sets_of_replaceSlot value
    { p.stats with deleted := p.stats.deleted + 1 } hget hspec
  have hfst := (Tree.replaceSlot_fst hget hspec value).mpr ⟨hlt, hne⟩
  have heq : p.deleteAt path =
      { tree := (p.tree.replaceSlot id index value).2
        stats := { p.stats with deleted := p.stats.deleted + 1 } } := by
    unfold Progress.deleteAt
    rw [hpath]
    revert hfst
    rcases p.tree.replaceSlot id index value with ⟨changed, tree⟩
    rintro rfl
    rfl
  rw [heq]
  simp only [hfst, if_true] at hsets
  exact ⟨hsets, rfl⟩

/-- The paths to the deleted elements of a list, the last first. -/
def elementPaths (id : NodeId) (field : Field) (deleted : Handle → Bool) (nodes : List Handle) :
    List Path :=
  (nodes.zipIdx.reverse.filter fun (child, _) => deleted child).map
    fun (_, index) => .element id field index

theorem elementPaths_append_singleton (id : NodeId) (field : Field) (deleted : Handle → Bool)
    (nodes : List Handle) (last : Handle) :
    elementPaths id field deleted (nodes ++ [last]) =
      (if deleted last then [Path.element id field nodes.length] else []) ++
        elementPaths id field deleted nodes := by
  unfold elementPaths
  rw [List.zipIdx_append, List.reverse_append, List.filter_append, List.map_append]
  by_cases h : deleted last <;> simp [h]

/-- Taking elements out of a list from the back. The places of the elements still to be taken out
are right all the time, whatever stays behind them. -/
private theorem foldl_deleteAt_list {id : NodeId} {kind : NodeKind} {index : Nat}
    {spec : FieldSpec} (hspec : kind.schema[index]? = some spec) (deleted : Handle → Bool)
    (start stop : Nat) (front : List Handle) :
    ∀ (back : List Handle) (p : Progress) (node : Node),
      p.tree.get? id = some node → node.kind = kind →
      node.slots[index]? = some (.list ⟨front ++ back, start, stop⟩) →
      Sets id (node.slots.set index (.list ⟨front.filter (!deleted ·) ++ back, start, stop⟩)) p
          ((elementPaths id spec.field deleted front).foldl Progress.deleteAt p) ∧
        ((elementPaths id spec.field deleted front).foldl Progress.deleteAt p).stats =
          { p.stats with deleted := p.stats.deleted + front.countP deleted } := by
  induction front using List.reverseRecOn with
  | nil =>
      intro back p node hget _ hlist
      have hset : node.slots.set index (.list ⟨back, start, stop⟩) = p.tree.slots id := by
        obtain ⟨hlt, heq⟩ := List.getElem?_eq_some_iff.mp hlist
        rw [Tree.slots_of_get? hget, ← show node.slots[index] = .list ⟨back, start, stop⟩ from heq,
          List.set_getElem_self]
      simpa [elementPaths, hset] using Sets.refl id p
  | append_singleton front last ih =>
      intro back p node hget hkind hlist
      subst hkind
      rw [elementPaths_append_singleton, List.filter_append, List.countP_append, List.foldl_append]
      by_cases hdel : deleted last
      · have hlt := (List.getElem?_eq_some_iff.mp hlist).choose
        have herase : (front ++ [last] ++ back).eraseIdx front.length = front ++ back := by
          simp [List.eraseIdx_append_of_length_le]
        have hpath : (Path.element id spec.field front.length).delete p.tree =
            .ok (p.tree.replaceSlot id index (.list ⟨front ++ back, start, stop⟩)) := by
          rw [Path.delete_element hget (NodeKind.fieldIndex?_field hspec) hlist (by simp), herase]
        obtain ⟨hsets, hstats⟩ := deleteAt_eq hget hspec hpath hlt (by
          rw [hlist]
          intro heq
          have hlength := congrArg (fun s => (s.bind Slot.list?).map (·.nodes.length)) heq
          simp [Slot.list?] at hlength)
        obtain ⟨node', hget', hkind', hslots'⟩ := hsets.get? hget
        obtain ⟨hrest, hcount⟩ := ih back (p.deleteAt (.element id spec.field front.length)) node'
          hget' hkind' (by rw [hslots']; simp [hlt])
        rw [hslots', List.set_set] at hrest
        simp only [hdel, if_true, List.foldl_cons, List.foldl_nil]
        refine ⟨by simpa [hdel] using hsets.trans hrest, ?_⟩
        rw [hcount, hstats]
        simp [hdel]
        omega
      · obtain ⟨hrest, hcount⟩ := ih (last :: back) p node hget rfl (by simpa using hlist)
        simp only [hdel, Bool.false_eq_true, if_false, List.foldl_nil]
        exact ⟨by simpa [hdel] using hrest, by simpa [hdel] using hcount⟩

/-- Taking the children of deleted kinds out of one slot. -/
theorem foldl_deletedIn (rules : Rules) (tree : Tree) {id : NodeId} {p : Progress} {node : Node}
    {index : Nat} {spec : FieldSpec} {slot : Slot} (hget : p.tree.get? id = some node)
    (hspec : node.kind.schema[index]? = some spec) (hslot : node.slots[index]? = some slot) :
    let q := (deletedIn rules tree id spec.field slot).foldl Progress.deleteAt p
    Sets id (node.slots.set index (keptOf rules tree slot)) p q ∧
      q.stats = { p.stats with deleted := p.stats.deleted + deletedCount rules tree slot } := by
  intro q
  obtain ⟨hlt, heq⟩ := List.getElem?_eq_some_iff.mp hslot
  have hsame : Sets id (node.slots.set index slot) p p := by
    rw [← heq, List.set_getElem_self, ← Tree.slots_of_get? hget]
    exact .refl id p
  cases slot with
  | absent => exact ⟨hsame, rfl⟩
  | node child =>
      by_cases hdel : isDeleted rules tree child
      · have hpath := Path.delete_field hget (NodeKind.fieldIndex?_field hspec)
        obtain ⟨hsets, hstats⟩ := deleteAt_eq hget hspec hpath hlt (by simp [hslot])
        simpa [q, deletedIn, keptOf, deletedCount, hdel] using ⟨hsets, hstats⟩
      · simpa [q, deletedIn, keptOf, deletedCount, hdel] using hsame
  | list items =>
      obtain ⟨nodes, start, stop⟩ := items
      have h := foldl_deleteAt_list hspec (isDeleted rules tree) start stop nodes [] p node hget
        rfl (by simpa using hslot)
      rw [List.append_nil] at h
      exact h

def keptFrom (rules : Rules) (tree : Tree) (kind : NodeKind) (first : Nat) (slots : List Slot) :
    List Slot :=
  slots.mapIdx fun index slot =>
    if first ≤ index ∧ index < kind.schema.length then keptOf rules tree slot else slot

theorem keptFrom_of_le {rules : Rules} {tree : Tree} {kind : NodeKind} {first : Nat}
    {slots : List Slot} (h : min kind.schema.length slots.length ≤ first) :
    keptFrom rules tree kind first slots = slots := by
  apply List.ext_getElem?
  intro i
  by_cases hi : i < slots.length
  · have hout : ¬(first ≤ i ∧ i < kind.schema.length) := by omega
    simp [keptFrom, hi, hout]
  · simp [keptFrom, hi]

theorem keptFrom_set {rules : Rules} {tree : Tree} {kind : NodeKind} {first : Nat}
    {slots : List Slot} {slot : Slot} (hslot : slots[first]? = some slot)
    (hlt : first < kind.schema.length) :
    keptFrom rules tree kind (first + 1) (slots.set first (keptOf rules tree slot)) =
      keptFrom rules tree kind first slots := by
  obtain ⟨hlen, heq⟩ := List.getElem?_eq_some_iff.mp hslot
  apply List.ext_getElem?
  intro i
  by_cases hi : i = first
  · subst hi
    simp [keptFrom, hlen, hlt, heq]
  · have hiff : (first + 1 ≤ i ∧ i < kind.schema.length) ↔
        (first ≤ i ∧ i < kind.schema.length) := by omega
    simp only [keptFrom, List.getElem?_mapIdx, List.getElem?_set_ne (Ne.symm hi), hiff]

theorem drop_fields {node : Node} {first : Nat} {spec : FieldSpec} {slot : Slot}
    (hspec : node.kind.schema[first]? = some spec) (hslot : node.slots[first]? = some slot) :
    (node.kind.schema.zip node.slots).drop first =
      (spec, slot) :: (node.kind.schema.zip node.slots).drop (first + 1) := by
  obtain ⟨hlt, rfl⟩ := List.getElem?_eq_some_iff.mp hspec
  obtain ⟨hlt', rfl⟩ := List.getElem?_eq_some_iff.mp hslot
  rw [List.drop_eq_getElem_cons (by simp [hlt, hlt'])]
  simp

/-- Taking the children of deleted kinds out of all slots from `first` on. -/
private theorem foldl_deletedFrom (rules : Rules) (tree : Tree) {id : NodeId} (remaining : Nat) :
    ∀ (first : Nat) (p : Progress) (node : Node), p.tree.get? id = some node →
      min node.kind.schema.length node.slots.length ≤ first + remaining →
      let fields := (node.kind.schema.zip node.slots).drop first
      let paths := fields.flatMap fun (spec, slot) => deletedIn rules tree id spec.field slot
      let q := paths.foldl Progress.deleteAt p
      Sets id (keptFrom rules tree node.kind first node.slots) p q ∧
        q.stats = { p.stats with deleted := p.stats.deleted +
          (fields.map fun (_, slot) => deletedCount rules tree slot).sum } := by
  induction remaining with
  | zero =>
      intro first p node hget hle fields paths q
      have hdrop : fields = [] := by
        apply List.drop_of_length_le
        simpa using hle
      have hq : q = p := by simp [q, paths, hdrop]
      rw [hq, keptFrom_of_le (by simpa using hle), ← Tree.slots_of_get? hget, hdrop]
      exact ⟨.refl id p, rfl⟩
  | succ remaining ih =>
      intro first p node hget hle
      by_cases hend : min node.kind.schema.length node.slots.length ≤ first
      · exact ih first p node hget (by omega)
      · have hlt : first < node.kind.schema.length := by omega
        have hlt' : first < node.slots.length := by omega
        have hspec := List.getElem?_eq_getElem hlt
        have hslot := List.getElem?_eq_getElem hlt'
        obtain ⟨hsets, hstats⟩ := foldl_deletedIn rules tree hget hspec hslot
        obtain ⟨node', hget', hkind, hslots⟩ := hsets.get? hget
        have hrest := ih (first + 1) _ node' hget' (by rw [hkind, hslots]; simp; omega)
        have hdrop : (node'.kind.schema.zip node'.slots).drop (first + 1) =
            (node.kind.schema.zip node.slots).drop (first + 1) := by
          rw [hkind, hslots, List.zip_eq_zipWith, List.zip_eq_zipWith, List.drop_zipWith,
            List.drop_zipWith, List.drop_set]
          simp
        simp only [hdrop] at hrest
        rw [drop_fields hspec hslot]
        simp only [List.flatMap_cons, List.foldl_append, List.map_cons, List.sum_cons]
        obtain ⟨hsets', hstats'⟩ := hrest
        rw [hkind, hslots, keptFrom_set hslot hlt] at hsets'
        refine ⟨hsets.trans hsets', ?_⟩
        rw [hstats', hstats]
        simp [Nat.add_assoc]

/-- Taking the children of deleted kinds out of all slots of a node. -/
theorem foldl_deletedChildren (rules : Rules) (tree : Tree) {id : NodeId} {p : Progress}
    {node : Node} (hget : p.tree.get? id = some node) :
    let q := (deletedChildren rules tree id node).foldl Progress.deleteAt p
    Sets id (keptFrom rules tree node.kind 0 node.slots) p q ∧
      q.stats = { p.stats with deleted := p.stats.deleted +
        (node.fields.map fun (_, slot) => deletedCount rules tree slot).sum } := by
  have h := foldl_deletedFrom rules tree node.slots.length 0 p node hget
    (by omega)
  simpa [deletedChildren, Node.fields] using h

/-! ## One node -/

theorem clearFields_eq (rules : Rules) (id : NodeId) (kind : NodeKind) (p : Progress) :
    p.clearFields rules id kind = (rules.stripped kind).foldl (Progress.clearField id) p := by
  unfold Progress.clearFields Rules.stripped
  cases rules.action kind <;> rfl

theorem keptOf_kin {a b : Tree} (h : a.Kin b) (rules : Rules) (slot : Slot) :
    keptOf rules b slot = keptOf rules a slot := by
  cases slot <;> simp only [keptOf, isDeleted_kin h]

theorem deletedCount_kin {a b : Tree} (h : a.Kin b) (rules : Rules) (slot : Slot) :
    deletedCount rules b slot = deletedCount rules a slot := by
  have hfun : isDeleted rules b = isDeleted rules a := funext (isDeleted_kin h rules)
  cases slot <;> simp only [deletedCount, hfun]

theorem keptFrom_clearing {a b : Tree} (h : a.Kin b) (rules : Rules) (node : Node) :
    keptFrom rules b node.kind 0 (clearing (rules.stripped node.kind) node) =
      erasedSlots rules a node := by
  apply List.ext_getElem?
  intro i
  rw [keptFrom, List.getElem?_mapIdx, getElem?_clearing, erasedSlots, List.getElem?_mapIdx]
  cases node.slots[i]? with
  | none => rfl
  | some slot =>
      by_cases hi : i < node.kind.schema.length
      · have hspec := List.getElem?_eq_getElem hi
        simp only [Option.map_some, named, hspec, Option.any_some, erasedSlot, Rules.strips,
          Nat.zero_le, hi, and_self, if_true, keptOf_kin h]
        by_cases hin : (rules.stripped node.kind).contains node.kind.schema[i].field
        · simp only [hin, if_true, keptOf]
        · simp only [hin, if_false, Bool.false_eq_true]
      · simp [named, erasedSlot, hi]

theorem zip_clearing (rules : Rules) (node : Node) :
    node.kind.schema.zip (clearing (rules.stripped node.kind) node) =
      node.fields.map fun (spec, slot) =>
        (spec, if rules.strips node.kind spec.field then Slot.absent else slot) := by
  apply List.ext_getElem?
  intro i
  rw [List.getElem?_map, Node.fields, List.zip_eq_zipWith, List.zip_eq_zipWith,
    List.getElem?_zipWith, List.getElem?_zipWith, getElem?_clearing]
  cases hspec : node.kind.schema[i]? <;> cases node.slots[i]? <;>
    simp [named, hspec, Rules.strips]

/-- A visit of a node that exists: its slots become the erased slots, no other slots change, and
the counts go up by what has been cleared and taken out there. -/
theorem visit_some (rules : Rules) {id : NodeId} {p : Progress} {node : Node}
    (hget : p.tree.get? id = some node) :
    Sets id (erasedSlots rules p.tree node) p (visit rules id p) ∧
      (visit rules id p).stats =
        { visited := p.stats.visited + 1
          deleted := p.stats.deleted + removedCount rules p.tree node
          cleared := p.stats.cleared + clearedCount rules node } := by
  let counted : Progress :=
    { p with stats := { p.stats with visited := p.stats.visited + 1 } }
  obtain ⟨hclear, hcleared⟩ :=
    foldl_clearField (p := counted) hget (rules.stripped node.kind)
  rw [← clearFields_eq] at hclear hcleared
  obtain ⟨node', hget', hkind, hslots⟩ := hclear.get? hget
  have hvisit : visit rules id p =
      (deletedChildren rules (counted.clearFields rules id node.kind).tree id node').foldl
        Progress.deleteAt (counted.clearFields rules id node.kind) := by
    simp only [visit, hget, counted, hget']
  obtain ⟨hdelete, hdeleted⟩ :=
    foldl_deletedChildren rules (counted.clearFields rules id node.kind).tree hget'
  rw [← hvisit] at hdelete hdeleted
  have hkin : p.tree.Kin (counted.clearFields rules id node.kind).tree := hclear.kin
  refine ⟨⟨hkin.trans hdelete.kin, fun i => ?_⟩, ?_⟩
  · rw [hdelete.slots, hkind, hslots, keptFrom_clearing hkin]
    by_cases hi : i = id
    · simp [hi]
    · simp only [hi, if_false, hclear.slots, counted]
  · have hcount : (node'.fields.map fun (_, slot) =>
        deletedCount rules (counted.clearFields rules id node.kind).tree slot).sum =
          removedCount rules p.tree node := by
      rw [Node.fields, hkind, hslots, zip_clearing, List.map_map, removedCount]
      congr 1
      apply List.map_congr_left
      rintro ⟨spec, slot⟩ -
      simp only [Function.comp, deletedCount_kin hkin]
      split <;> simp [deletedCount]
    rw [hdeleted, hcleared, hcount]
    rfl

theorem visit_none {rules : Rules} {id : NodeId} {p : Progress} (hget : p.tree.get? id = none) :
    visit rules id p = p := by
  simp [visit, hget]

end Erasure

end FlowErasure
