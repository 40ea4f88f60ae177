import FlowErasure.Proofs.Syntax.Spans

/-!
# Growing a sound table

A node is added on top of nodes that lie one after the other and that nobody holds yet. The table
stays sound, and the new node owns all that is below it.
-/

namespace FlowErasure

namespace Tree

variable {text : List Char} {tree tree' : Tree} {a b c lo : NodeId}

theorem fields_of_get? {id : NodeId} {node : Node} (h : tree.get? id = some node) :
    tree.fields id = node.fields := by
  simp [fields, h]

theorem exists_get?_of_holds (h : tree.Holds a b) :
    ∃ node, tree.get? a = some node ∧ b ∈ node.children := by
  obtain ⟨node, hget⟩ := exists_get? (lt_size_of_holds h)
  exact ⟨node, hget, by simpa [Holds, children_of_get? hget] using h⟩

theorem holds_of_mem_fields {spec : FieldSpec} {slot : Slot} (h : (spec, slot) ∈ tree.fields a)
    (hb : b ∈ slot.children) : tree.Holds a b := by
  cases hget : tree.get? a with
  | none => simp [fields, hget] at h
  | some node =>
      rw [fields_of_get? hget] at h
      rw [Holds, children_of_get? hget]
      exact List.mem_flatMap.mpr ⟨slot, (List.of_mem_zip h).2, hb⟩

theorem parentId?_of_parent? {field : Field} (h : tree.parent? a = some (b, field)) :
    tree.parentId? a = some b := by
  obtain ⟨node, hget, hparent⟩ := Option.bind_eq_some_iff.mp h
  simp [parentId?, hget, hparent]

/-- The slots of a node with a slot per field are those of its fields. -/
theorem exists_field {node : Node} (hfits : node.slots.length = node.kind.schema.length)
    {child : NodeId} (h : child ∈ node.children) :
    ∃ spec slot, (spec, slot) ∈ node.fields ∧ child ∈ slot.children := by
  obtain ⟨slot, hslot, hchild⟩ := List.mem_flatMap.mp h
  obtain ⟨index, hindex⟩ := List.mem_iff_getElem?.mp hslot
  have hlt : index < node.kind.schema.length := by
    rw [← hfits]
    exact (List.getElem?_eq_some_iff.mp hindex).choose
  have hfield : node.fields[index]? = some (node.kind.schema[index], slot) :=
    List.getElem?_zip_eq_some.mpr ⟨List.getElem?_eq_getElem hlt, hindex⟩
  exact ⟨_, slot, List.mem_iff_getElem?.mpr ⟨index, hfield⟩, hchild⟩

theorem Owned.parentId? (h : tree.Owned lo a) (hreach : tree.Reaches a b)
    (hfits : ∀ node, tree.get? b = some node → node.slots.length = node.kind.schema.length)
    (hc : tree.Holds b c) : tree.parentId? c = some b := by
  obtain ⟨node, hget, hchild⟩ := exists_get?_of_holds hc
  obtain ⟨spec, slot, hmem, hslot⟩ := exists_field (hfits node hget) hchild
  rw [← fields_of_get? hget] at hmem
  exact parentId?_of_parent? ((h b hreach).2 spec slot hmem c hslot)

/-! ## Below a node -/

namespace Sound

variable (h : tree.Sound text)

include h

theorem lt_of_holds (hab : tree.Holds a b) : b < a := by
  obtain ⟨node, hget, hb⟩ := exists_get?_of_holds hab
  exact (h.node hget).below b hb

theorem le_of_reaches (hab : tree.Reaches a b) : b ≤ a :=
  le_of_reaches_of_lt (fun _ _ hab => h.lt_of_holds hab) hab

theorem inside_of_reaches (hab : tree.Reaches a b) {face : Face}
    (hface : tree.face? a = some face) :
    ∃ face', tree.face? b = some face' ∧ face.start ≤ face'.start ∧ face'.stop ≤ face.stop := by
  induction hab with
  | refl => exact ⟨face, hface, Nat.le_refl _, Nat.le_refl _⟩
  | @tail b c _ hbc ih =>
      obtain ⟨middle, hmiddle, hstart, hstop⟩ := ih
      obtain ⟨node, hget, hc⟩ := exists_get?_of_holds hbc
      obtain rfl : node.face = middle := Option.some.inj ((face?_of_get? hget).symm.trans hmiddle)
      obtain ⟨ids, hperm, hlaid⟩ := (h.node hget).laid
      obtain ⟨face', hface', hge, -, hle⟩ := hlaid.face? (hperm.mem_iff.mpr hc)
      exact ⟨face', hface', Nat.le_trans hstart hge, Nat.le_trans hle hstop⟩

theorem lt_face {face : Face} (hface : tree.face? a = some face) : face.start < face.stop := by
  obtain ⟨node, hget, rfl⟩ := get?_of_face? hface
  exact (h.node hget).lt

theorem not_holds_of_laid {hi lo : Nat} {ids : List NodeId} (hlaid : tree.Laid hi lo ids)
    (ha : a ∈ ids) (hab : tree.Reaches a b) (hbc : tree.Holds b c) : c ∉ ids := by
  intro hc
  have hlt : c < a := Nat.lt_of_lt_of_le (h.lt_of_holds hbc) (h.le_of_reaches hab)
  have hne : a ≠ c := fun heq => Nat.lt_irrefl _ (heq ▸ hlt)
  obtain ⟨face, face', ha', hc', hapart⟩ := hlaid.apart ha hc hne
  obtain ⟨face'', hc'', hstart, hstop⟩ := h.inside_of_reaches (hab.tail hbc) ha'
  obtain rfl : face' = face'' := Option.some.inj (hc'.symm.trans hc'')
  have hlt := h.lt_face hc'
  omega

end Sound

/-! ## Frames -/

theorem Sound.endsUntyped (h : tree.Sound text) {n : NodeId} (hsame : tree.SameUpTo tree' n)
    {along : NodeKind → Prop} {id : NodeId} (hid : id < n) (huntyped : tree.EndsUntyped along id) :
    tree'.EndsUntyped along id :=
  hsame.endsUntyped (fun _ _ hget => (h.node hget).below) hid huntyped

theorem Sound.keepsColon (h : tree.Sound text) {n : NodeId} (hsame : tree.SameUpTo tree' n)
    {along : NodeKind → Prop} {node : Node} (hnode : ∀ c ∈ node.children, c < n)
    (hkeeps : tree.KeepsColon text along node) : tree'.KeepsColon text along node :=
  hsame.keepsColon (fun _ _ hget => (h.node hget).below) hnode hkeeps

theorem SameUpTo.of_get? {n : NodeId} (hget : ∀ i < n, tree'.get? i = tree.get? i) :
    tree.SameUpTo tree' n :=
  fun i hi node hnode => ⟨node, (hget i hi).symm.trans hnode, rfl⟩

theorem Sound.congr (h : tree.Sound text) (hget : ∀ i, tree'.get? i = tree.get? i) :
    tree'.Sound text where
  node {id node} hnode := by
    rw [hget] at hnode
    have hsound := h.node hnode
    exact ⟨hsound.congr fun c _ => by simp [face?, hget], hsound.start, hsound.lt⟩
  parent hp := by
    refine h.parent ?_
    simpa [parentId?, hget] using hp
  colon {id node} hnode := by
    rw [hget] at hnode
    exact h.keepsColon (.of_get? fun i _ => hget i) (h.node hnode).below (h.colon hnode)
  grouped {id node} hnode := by
    rw [hget] at hnode
    have hsame : tree.SameUpTo tree' id := .of_get? fun i _ => hget i
    exact hsame.grouped (h.node hnode).below (h.grouped hnode)

theorem Sound.reaches_of_children {n : Nat} (h : tree.Sound text)
    (hsame : ∀ i < n, tree'.children i = tree.children i) {a b : NodeId} (ha : a < n) :
    tree'.Reaches a b ↔ tree.Reaches a b := by
  constructor
  · intro hab
    induction hab with
    | refl => exact .refl
    | @tail b c _ hbc ih =>
        refine ih.tail ?_
        rwa [Holds, hsame b (Nat.lt_of_le_of_lt (h.le_of_reaches ih) ha)] at hbc
  · intro hab
    induction hab with
    | refl => exact .refl
    | @tail b c hab hbc ih =>
        refine ih.tail ?_
        rwa [Holds, hsame b (Nat.lt_of_le_of_lt (h.le_of_reaches hab) ha)]

/-- What is below a node stays as it is while the table does up to that node. -/
theorem Sound.reaches_frame {n : Nat} (h : tree.Sound text)
    (hsame : ∀ i < n, tree'.get? i = tree.get? i) (ha : a < n) :
    tree'.Reaches a b ↔ tree.Reaches a b :=
  h.reaches_of_children (fun i hi => by simp [children, hsame i hi]) ha

theorem Owned.frame {n : Nat} {id : NodeId} (hown : tree.Owned lo id) (h : tree.Sound text)
    (hsame : ∀ i < n, tree'.get? i = tree.get? i) (hid : id < n) : tree'.Owned lo id := by
  intro p hp
  have hreach := (h.reaches_frame hsame hid).mp hp
  obtain ⟨hle, hchildren⟩ := hown p hreach
  have hpn : p < n := Nat.lt_of_le_of_lt (h.le_of_reaches hreach) hid
  refine ⟨hle, fun spec slot hmem c hc => ?_⟩
  have hmem : (spec, slot) ∈ tree.fields p := by simpa [fields, hsame p hpn] using hmem
  have hcn : c < n := Nat.lt_trans (h.lt_of_holds (holds_of_mem_fields hmem hc)) hpn
  simpa [parent?, hsame c hcn] using hchildren spec slot hmem c hc

theorem Owned.le (h : tree.Owned lo a) : lo ≤ a :=
  (h a .refl).1

theorem Owned.mono {lo' : NodeId} (h : tree.Owned lo a) (hle : lo' ≤ lo) : tree.Owned lo' a :=
  fun p hp => ⟨Nat.le_trans hle (h p hp).1, (h p hp).2⟩

/-! ## Adding a node -/

theorem holder?_eq_none_iff {fields : List (FieldSpec × Slot)} {child : NodeId} :
    holder? fields child = none ↔ ∀ spec slot, (spec, slot) ∈ fields → child ∉ slot.children := by
  simp only [holder?, Option.map_eq_none_iff, List.find?_eq_none, List.mem_reverse,
    List.contains_iff_mem, Prod.forall]

theorem holder?_isSome_iff {node : Node} (hfits : node.slots.length = node.kind.schema.length)
    {child : NodeId} : (holder? node.fields child).isSome ↔ child ∈ node.children := by
  rw [← Option.ne_none_iff_isSome, Ne, holder?_eq_none_iff]
  constructor
  · intro h
    by_contra hmem
    exact h fun spec slot hfield hchild =>
      hmem (List.mem_flatMap.mpr ⟨slot, (List.of_mem_zip hfield).2, hchild⟩)
  · intro hchild h
    obtain ⟨spec, slot, hfield, hmem⟩ := exists_field hfits hchild
    exact h spec slot hfield hmem

/-- A node that is held once is in the field it is held in. -/
theorem holder?_of_mem {node : Node} (hnodup : node.children.Nodup) {spec : FieldSpec} {slot : Slot}
    {child : NodeId} (hmem : (spec, slot) ∈ node.fields) (hchild : child ∈ slot.children) :
    holder? node.fields child = some spec.field := by
  cases hholder : node.fields.reverse.find? (fun field => field.2.children.contains child) with
  | none =>
      rw [List.find?_eq_none] at hholder
      exact absurd (by simpa using hchild) (hholder (spec, slot) (List.mem_reverse.mpr hmem))
  | some field =>
      obtain ⟨i, hi⟩ := List.mem_iff_getElem?.mp hmem
      obtain ⟨j, hj⟩ := List.mem_iff_getElem?.mp (List.mem_reverse.mp (List.mem_of_find?_eq_some hholder))
      have hfield : child ∈ field.2.children := by simpa using List.find?_some hholder
      obtain ⟨hspec, hslot⟩ := List.getElem?_zip_eq_some.mp hi
      obtain ⟨hspec', hslot'⟩ := List.getElem?_zip_eq_some.mp hj
      -- Two slots with the child in them are the same slot, so the fields are the same as well.
      have hapart := List.pairwise_iff_getElem.mp (List.nodup_flatMap.mp hnodup).2
      obtain ⟨hilt, rfl⟩ := List.getElem?_eq_some_iff.mp hslot
      obtain ⟨hjlt, hjslot⟩ := List.getElem?_eq_some_iff.mp hslot'
      rw [← hjslot] at hfield
      obtain rfl : i = j := by
        rcases Nat.lt_trichotomy i j with hij | hij | hij
        · exact absurd hfield (hapart i j hilt hjlt hij hchild)
        · exact hij
        · exact absurd hchild (hapart j i hjlt hilt hij hfield)
      have heq : field.1 = spec := Option.some.inj (hspec'.symm.trans hspec)
      simp only [holder?, hholder, Option.map_some, heq]

section Add

variable {node : Node}

/-- All nodes but the one that was added were there before. -/
theorem lt_size_of_lt_size_add {node : Node} {i : NodeId} (hi : i < (tree.add node).2.size)
    (hne : i ≠ tree.size) : i < tree.size := by
  rw [size_add] at hi
  exact Nat.lt_of_le_of_ne (Nat.le_of_lt_succ hi) hne

theorem face?_add (node : Node) {i : NodeId} (hi : i < tree.size) :
    (tree.add node).2.face? i = tree.face? i := by
  rw [face?, get?_add, if_neg (Nat.ne_of_lt hi), Option.map_map]
  rfl

theorem sameUpTo_add (tree : Tree) (node : Node) : tree.SameUpTo (tree.add node).2 tree.size := by
  intro i hi node' hnode'
  rw [get?_add, if_neg (Nat.ne_of_lt hi)] at hnode'
  obtain ⟨old, hold, rfl⟩ := Option.map_eq_some_iff.mp hnode'
  exact ⟨old, hold, rfl⟩

theorem get?_add_self (tree : Tree) (node : Node) :
    (tree.add node).2.get? tree.size = some (fitted node) := by
  rw [get?_add, if_pos rfl]

theorem get?_add_of_not_mem (node : Node) {i : NodeId} (hi : i < tree.size)
    (hfits : (fitted node).slots.length = (fitted node).kind.schema.length)
    (hmem : i ∉ (fitted node).children) : (tree.add node).2.get? i = tree.get? i := by
  have hnone : holder? (fitted node).fields i = none := by
    rw [← Option.not_isSome_iff_eq_none, holder?_isSome_iff hfits]
    exact hmem
  rw [get?_add, if_neg (Nat.ne_of_lt hi), hnone]
  cases tree.get? i <;> simp

theorem children_add (node : Node) {i : NodeId} (hi : i < tree.size) :
    (tree.add node).2.children i = tree.children i := by
  rw [children, get?_add, if_neg (Nat.ne_of_lt hi), Option.map_map]
  rfl

theorem fields_add (node : Node) {i : NodeId} (hi : i < tree.size) :
    (tree.add node).2.fields i = tree.fields i := by
  rw [fields, get?_add, if_neg (Nat.ne_of_lt hi), Option.map_map]
  rfl

theorem children_add_self (tree : Tree) (node : Node) :
    (tree.add node).2.children tree.size = (fitted node).children :=
  children_of_get? (get?_add_self tree node)

theorem Sound.reaches_add (h : tree.Sound text) (node : Node) (ha : a < tree.size) :
    (tree.add node).2.Reaches a b ↔ tree.Reaches a b :=
  h.reaches_of_children (fun _ hi => children_add node hi) ha

theorem Sound.node_add (h : tree.Sound text) {i : NodeId} {other : Node} (hi : i ≠ tree.size)
    (hget : (tree.add node).2.get? i = some other) : NodeSound text (tree.add node).2 i other := by
  rw [get?_add, if_neg hi] at hget
  obtain ⟨old, hold, rfl⟩ := Option.map_eq_some_iff.mp hget
  have hsound := h.node hold
  refine ⟨(hsound.congr fun c hc => ?_).adopted _, hsound.start, hsound.lt⟩
  exact face?_add node (Nat.lt_trans (hsound.below c hc) (lt_size_of_get? hold))

theorem shape_add_self (hnode : NodeShape text tree tree.size (fitted node)) :
    NodeShape text (tree.add node).2 tree.size (fitted node) :=
  hnode.congr fun c hc => face?_add node (hnode.below c hc)

theorem Sound.parent_add (h : tree.Sound text) (hparent : node.parent = none) {i p : NodeId}
    (hp : (tree.add node).2.parentId? i = some p) : i < p := by
  rw [parentId?, get?_add] at hp
  by_cases hi : i = tree.size
  · rw [if_pos hi] at hp
    simp [fitted, hparent] at hp
  · rw [if_neg hi] at hp
    cases hold : tree.get? i with
    | none => simp [hold] at hp
    | some old =>
        cases hholder : holder? (fitted node).fields i with
        | none =>
            refine h.parent ?_
            simpa [parentId?, hold, hholder] using hp
        | some field =>
            obtain rfl : tree.size = p := by simpa [hold, hholder] using hp
            exact lt_size_of_get? hold

/-- A conditional that is added keeps its colon, and those that were there do. -/
theorem Sound.colon_add (h : tree.Sound text) (hnode : NodeShape text tree tree.size (fitted node))
    (hcolon : tree.KeepsColon text NodeKind.HandsOn (fitted node)) {i : NodeId} {other : Node}
    (hget : (tree.add node).2.get? i = some other) :
    (tree.add node).2.KeepsColon text NodeKind.HandsOn other := by
  rw [get?_add] at hget
  split at hget
  · obtain rfl := Option.some.inj hget
    exact h.keepsColon (sameUpTo_add tree node) hnode.below hcolon
  · obtain ⟨old, hold, rfl⟩ := Option.map_eq_some_iff.mp hget
    have hbelow : ∀ c ∈ old.children, c < tree.size := fun c hc =>
      Nat.lt_trans ((h.node hold).below c hc) (lt_size_of_get? hold)
    have hkeeps := h.keepsColon (sameUpTo_add tree node) hbelow (h.colon hold)
    exact hkeeps

/-- An operation that is added has the operands that belong to it, and those that were there do. -/
theorem Sound.grouped_add (h : tree.Sound text) (hnode : NodeShape text tree tree.size (fitted node))
    (hgrouped : tree.Grouped (fitted node)) {i : NodeId} {other : Node}
    (hget : (tree.add node).2.get? i = some other) : (tree.add node).2.Grouped other := by
  rw [get?_add] at hget
  split at hget
  · obtain rfl := Option.some.inj hget
    exact (sameUpTo_add tree node).grouped hnode.below hgrouped
  · obtain ⟨old, hold, rfl⟩ := Option.map_eq_some_iff.mp hget
    have hbelow : ∀ c ∈ old.children, c < tree.size := fun c hc =>
      Nat.lt_trans ((h.node hold).below c hc) (lt_size_of_get? hold)
    obtain ⟨hoperator, hleft, hright⟩ := (sameUpTo_add tree node).grouped hbelow (h.grouped hold)
    exact ⟨hoperator, hleft, hright⟩

theorem Sound.add (h : tree.Sound text) (hnode : NodeSound text tree tree.size (fitted node))
    (hcolon : tree.KeepsColon text NodeKind.HandsOn (fitted node))
    (hgrouped : tree.Grouped (fitted node)) (hparent : node.parent = none) :
    (tree.add node).2.Sound text where
  node {i other} hget := by
    by_cases hi : i = tree.size
    · subst hi
      rw [get?_add_self] at hget
      obtain rfl := Option.some.inj hget
      exact ⟨shape_add_self hnode.toNodeShape, hnode.start, hnode.lt⟩
    · exact h.node_add hi hget
  parent := h.parent_add hparent
  colon := h.colon_add hnode.toNodeShape hcolon
  grouped := h.grouped_add hnode.toNodeShape hgrouped

theorem owned_add {hi lo' : Nat} {ids : List NodeId} (h : tree.Sound text)
    (hnode : NodeShape text tree tree.size (fitted node)) (hperm : ids.Perm (fitted node).children)
    (hlaid : tree.Laid hi lo' ids) (hown : ∀ c ∈ ids, tree.Owned lo c) (hlo : lo ≤ tree.size) :
    (tree.add node).2.Owned lo tree.size := by
  intro p hp
  rcases Relation.ReflTransGen.cases_head hp with rfl | ⟨c, hc, hcp⟩
  · refine ⟨hlo, fun spec slot hmem c hc => ?_⟩
    rw [fields_of_get? (get?_add_self tree node)] at hmem
    have hlt := hnode.below c (List.mem_flatMap.mpr ⟨slot, (List.of_mem_zip hmem).2, hc⟩)
    have hfield := holder?_of_mem (hperm.nodup_iff.mp hlaid.nodup) hmem hc
    obtain ⟨old, hold⟩ := exists_get? hlt
    simp [parent?, get?_add, Nat.ne_of_lt hlt, hold, hfield]
  · have hmem : c ∈ ids := by
      rw [Holds, children_add_self] at hc
      exact hperm.mem_iff.mpr hc
    have hlt : c < tree.size := hnode.below c (hperm.mem_iff.mp hmem)
    have hreach : tree.Reaches c p := (h.reaches_add node hlt).mp hcp
    have hpn : p < tree.size := Nat.lt_of_le_of_lt (h.le_of_reaches hreach) hlt
    obtain ⟨hle, hchildren⟩ := hown c hmem p hreach
    refine ⟨hle, fun spec slot hfield d hd => ?_⟩
    rw [fields_add node hpn] at hfield
    have hholds := holds_of_mem_fields hfield hd
    have hd' : d ∉ (fitted node).children := fun hin =>
      h.not_holds_of_laid hlaid hmem hreach hholds (hperm.mem_iff.mpr hin)
    have hdn : d < tree.size := Nat.lt_trans (h.lt_of_holds hholds) hpn
    rw [parent?, get?_add_of_not_mem node hdn hnode.fits hd']
    exact hchildren spec slot hfield d hd

end Add

/-! ## Changing the range of the last node -/

section Stretch

variable {id : NodeId} {node : Node} {f : Node → Node} {start stop : Nat}

theorem sameUpTo_modify (tree : Tree) (id : NodeId) (f : Node → Node) :
    tree.SameUpTo (tree.modify id f) id :=
  .of_get? fun i hi => by simp [Nat.ne_of_lt hi]

theorem le_of_get?_modify {i : NodeId} {other : Node} (hlast : tree.size = id + 1)
    (hother : (tree.modify id f).get? i = some other) : i ≤ id := by
  have hlt := lt_size_of_get? hother
  rw [size_modify, hlast] at hlt
  exact Nat.le_of_lt_succ hlt

/-- The last node is nobody's child, so its range may grow. -/
theorem Sound.stretch (h : tree.Sound text) (hget : tree.get? id = some node)
    (hkind : node.kind.isOperation = false) (hlast : tree.size = id + 1)
    (hf : f node = { node with start, stop })
    (hle : start ≤ node.start) (hge : node.stop ≤ stop) (hstart : TokenStart text start)
    (hstop : Text.Seam text stop) : (tree.modify id f).Sound text where
  node {i other} hother := by
    have hface : ∀ c ∈ other.children, c < i → (tree.modify id f).face? c = tree.face? c := by
      intro c _ hc
      have hi := lt_size_of_get? hother
      rw [size_modify, hlast] at hi
      have hne : c ≠ id := Nat.ne_of_lt (Nat.lt_of_lt_of_le hc (Nat.le_of_lt_succ hi))
      simp [face?, hne]
    rw [get?_modify] at hother
    by_cases hi : i = id
    · subst hi
      obtain rfl : f node = other := by simpa [hget] using hother
      have hsound := h.node hget
      have hlt := hsound.lt
      have hshape : NodeShape text tree i { node with start, stop } := by
        refine ⟨hsound.fits, hsound.admitted, hsound.below, hsound.unmarked, hstop,
          hsound.reading.mono hle hge, hsound.turns, ?_, ?_, hsound.needed, hsound.embedded,
          hsound.encloses.mono hle hge hstop.boundary.le⟩
        · exact fun slot hslot => (hsound.lists slot hslot).mono hle hge
        · exact fun hkind => (hsound.ranges hkind).mono hle hge
      rw [hf] at hface ⊢
      refine ⟨hshape.congr fun c hc => hface c hc (hsound.below c hc), hstart, ?_⟩
      simp only
      omega
    · rw [if_neg hi] at hother
      have hsound := h.node hother
      exact ⟨hsound.congr fun c hc => hface c hc (hsound.below c hc), hsound.start, hsound.lt⟩
  parent {i p} hp := by
    refine h.parent ?_
    rw [parentId?, get?_modify] at hp
    by_cases hi : i = id
    · subst hi
      simpa [parentId?, hget, hf] using hp
    · simpa [parentId?, hi] using hp
  colon {i other} hother := by
    have hsame := sameUpTo_modify tree id f
    have hi := le_of_get?_modify hlast hother
    rw [get?_modify] at hother
    by_cases hid : i = id
    · subst hid
      obtain rfl : f node = other := by simpa [hget] using hother
      have hkeeps := h.keepsColon hsame (h.node hget).below (h.colon hget)
      rw [hf]
      exact hkeeps
    · rw [if_neg hid] at hother
      exact h.keepsColon hsame
        (fun c hc => Nat.lt_of_lt_of_le ((h.node hother).below c hc) hi) (h.colon hother)
  grouped {i other} hother := by
    have hsame := sameUpTo_modify tree id f
    have hi := le_of_get?_modify hlast hother
    rw [get?_modify] at hother
    by_cases hid : i = id
    · subst hid
      obtain rfl : f node = other := by simpa [hget] using hother
      rw [hf]
      exact .of_not hkind
    · rw [if_neg hid] at hother
      exact hsame.grouped
        (fun c hc => Nat.lt_of_lt_of_le ((h.node hother).below c hc) hi) (h.grouped hother)

theorem children_stretch (hget : tree.get? id = some node)
    (hf : f node = { node with start, stop }) (i : NodeId) :
    (tree.modify id f).children i = tree.children i := by
  by_cases hi : i = id
  · subst hi
    simp [children, hget, hf, Node.children]
  · simp [children, hi]

theorem fields_stretch (hget : tree.get? id = some node)
    (hf : f node = { node with start, stop }) (i : NodeId) :
    (tree.modify id f).fields i = tree.fields i := by
  by_cases hi : i = id
  · subst hi
    simp [fields, hget, hf, Node.fields]
  · simp [fields, hi]

theorem parent?_stretch (hget : tree.get? id = some node)
    (hf : f node = { node with start, stop }) (i : NodeId) :
    (tree.modify id f).parent? i = tree.parent? i := by
  by_cases hi : i = id
  · subst hi
    simp [parent?, hget, hf]
  · simp [parent?, hi]

theorem Owned.stretch (h : tree.Owned lo a) (hget : tree.get? id = some node)
    (hf : f node = { node with start, stop }) : (tree.modify id f).Owned lo a := by
  intro p hp
  have hreach : tree.Reaches a p := by
    induction hp with
    | refl => exact .refl
    | tail _ hxy ih =>
        refine ih.tail ?_
        rwa [Holds, children_stretch hget hf] at hxy
  refine ⟨(h p hreach).1, fun spec slot hmem c hc => ?_⟩
  rw [fields_stretch hget hf] at hmem
  rw [parent?_stretch hget hf]
  exact (h p hreach).2 spec slot hmem c hc

end Stretch

end Tree

end FlowErasure
