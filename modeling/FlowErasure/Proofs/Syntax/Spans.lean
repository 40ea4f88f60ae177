import FlowErasure.Erasure.Rules
import FlowErasure.Proofs.Syntax.Operations
import FlowErasure.Proofs.Syntax.Reach
import FlowErasure.Proofs.Token.Reading
import Mathlib.Data.List.Perm.Basic

/-!
# Ranges of nodes

In a table that was read from a source the range of a node holds the ranges of its children, one
after the other. `NodeShape` says so of one node, and `Tree.Sound` of all of them. What it says of a
node depends only on the kinds and ranges of its children, so it stays true while nodes are added.
-/

namespace FlowErasure

/-- A token may start here: the offset is between two characters and no white space follows. -/
def TokenStart (text : List Char) (offset : Nat) : Prop :=
  ∃ rest, Text.At text offset rest ∧ Lexer.Clear rest

theorem TokenStart.boundary {text : List Char} {offset : Nat} (h : TokenStart text offset) :
    Text.Boundary text offset := by
  obtain ⟨rest, hat, -⟩ := h
  exact hat.boundary

theorem TokenStart.seam {text : List Char} {offset : Nat} (h : TokenStart text offset) :
    Text.Seam text offset := by
  obtain ⟨rest, hat, hclear⟩ := h
  refine hat.seam fun hhead => ?_
  obtain ⟨cs, hcs⟩ := List.head?_eq_some_iff.mp hhead
  exact absurd (hclear '\n' cs hcs).1 (by decide)

def turns {α : Type} : List α → List α → List α
  | [], bs => bs
  | a :: as, [] => a :: as
  | a :: as, b :: bs => a :: b :: turns as bs

theorem turns_perm {α : Type} (as bs : List α) : (turns as bs).Perm (as ++ bs) := by
  fun_induction turns as bs with
  | case1 bs => exact .refl _
  | case2 a as => rw [List.append_nil]
  | case3 a as b bs ih =>
      refine .cons a (.trans (ih.cons b) ?_)
      exact List.perm_middle.symm

theorem turns_concat {α : Type} (as bs : List α) (a b : α) (h : as.length = bs.length + 1) :
    turns (as ++ [a]) (bs ++ [b]) = turns as bs ++ [b, a] := by
  fun_induction turns as bs with
  | case1 bs => simp at h
  | case2 c as =>
      obtain rfl : as = [] := by simpa using h
      rfl
  | case3 c as d bs ih =>
      simp only [List.cons_append, turns, List.cons.injEq, true_and]
      exact ih (by simpa using h)

namespace FieldSpec

@[simp] theorem shape_one (field : Field) : (one field).shape = .node := rfl
@[simp] theorem shape_maybe (field : Field) : (maybe field).shape = .node := rfl
@[simp] theorem shape_many (field : Field) : (many field).shape = .list := rfl
@[simp] theorem shape_maybeMany (field : Field) : (maybeMany field).shape = .list := rfl
@[simp] theorem shape_block (field : Field) : (block field).shape = .block := rfl

def accepts (spec : FieldSpec) : Slot → Bool
  | .absent => spec.optional
  | .node _ => spec.shape == .node
  | .list _ => spec.shape != .node

@[simp] theorem accepts_ofOption (field : Field) (id : Option NodeId) :
    (maybe field).accepts (.ofOption id) := by
  cases id <;> rfl

@[simp] theorem accepts_node (field : Field) (id : NodeId) : (one field).accepts (.node id) := rfl

@[simp] theorem accepts_maybe_node (field : Field) (id : NodeId) :
    (maybe field).accepts (.node id) := rfl

@[simp] theorem accepts_absent (field : Field) : (maybe field).accepts .absent := rfl

@[simp] theorem accepts_many (field : Field) (items : NodeList) :
    (many field).accepts (.list items) := rfl

@[simp] theorem accepts_maybeMany (field : Field) (items : NodeList) :
    (maybeMany field).accepts (.list items) := rfl

@[simp] theorem accepts_maybeMany_absent (field : Field) :
    (maybeMany field).accepts .absent := rfl

@[simp] theorem accepts_block (field : Field) (items : NodeList) :
    (block field).accepts (.list items) := rfl

/-- What the field holds means something when the program runs: it cannot be left out, or it is an
element of a list with separators. -/
def matters (spec : FieldSpec) : Bool :=
  match spec.shape with
  | .node => !spec.optional
  | .list => spec.field != .implements
  | .block => false

end FieldSpec

namespace NodeKind

def admits (kind : NodeKind) (slots : List Slot) : Bool :=
  slots.length ≤ kind.schema.length &&
    (kind.schema.zip slots).all (fun field => field.1.accepts field.2) &&
    (kind.schema.drop slots.length).all (·.optional)

theorem length_le_of_admits {kind : NodeKind} {slots : List Slot} (h : kind.admits slots) :
    slots.length ≤ kind.schema.length := by
  simp only [admits, Bool.and_eq_true, decide_eq_true_eq] at h
  exact h.1.1

def embeds (kind : NodeKind) (spec : FieldSpec) : Bool :=
  spec.shape == .node &&
    match kind with
    | .ifStatement => spec.field == .consequent
    | .withStatement | .labeledStatement | .whileStatement | .doWhileStatement | .forStatement
    | .forInStatement | .forOfStatement => spec.field == .body
    | _ => false

def childrenWhere (kind : NodeKind) (p : FieldSpec → Bool) (slots : List Slot) : List NodeId :=
  ((kind.schema.zip slots).filter (fun field => p field.1)).flatMap (fun field => field.2.children)

def needed (kind : NodeKind) (slots : List Slot) : List NodeId :=
  if kind.isTypeOnly then []
  else kind.childrenWhere (fun spec => spec.matters && !kind.embeds spec) slots

def embedded (kind : NodeKind) (slots : List Slot) : List NodeId :=
  kind.childrenWhere kind.embeds slots

theorem mem_childrenWhere {kind : NodeKind} {p : FieldSpec → Bool} {slots : List Slot}
    {id : NodeId} : id ∈ kind.childrenWhere p slots ↔
      ∃ spec slot, (spec, slot) ∈ kind.schema.zip slots ∧ p spec ∧ id ∈ slot.children := by
  simp only [childrenWhere, List.mem_flatMap, List.mem_filter, Prod.exists, and_assoc]

theorem mem_of_mem_childrenWhere {kind : NodeKind} {p : FieldSpec → Bool} {slots : List Slot}
    {id : NodeId} (h : id ∈ kind.childrenWhere p slots) : id ∈ slots.flatMap Slot.children := by
  obtain ⟨spec, slot, hmem, -, hid⟩ := mem_childrenWhere.mp h
  exact List.mem_flatMap.mpr ⟨slot, (List.of_mem_zip hmem).2, hid⟩

theorem mem_of_mem_needed {kind : NodeKind} {slots : List Slot} {id : NodeId}
    (h : id ∈ kind.needed slots) : id ∈ slots.flatMap Slot.children := by
  unfold needed at h
  split at h
  · simp at h
  · exact mem_of_mem_childrenWhere h

/-- In a template the pieces of text and the expressions take turns; everywhere else the children
come in the order of the slots. -/
def reading (kind : NodeKind) (slots : List Slot) : List NodeId :=
  if kind = .templateLiteral then
    turns (slots.getD 0 .absent).children (slots.getD 1 .absent).children
  else slots.flatMap Slot.children

theorem reading_of_ne {kind : NodeKind} (h : kind ≠ .templateLiteral) (slots : List Slot) :
    kind.reading slots = slots.flatMap Slot.children :=
  if_neg h

theorem reading_perm {kind : NodeKind} {slots : List Slot}
    (h : slots.length ≤ kind.schema.length) :
    (kind.reading slots).Perm (slots.flatMap Slot.children) := by
  unfold reading
  split
  · rename_i hkind
    rw [hkind] at h
    refine (turns_perm _ _).trans (List.Perm.of_eq ?_)
    rcases slots with _ | ⟨quasis, _ | ⟨expressions, _ | ⟨_, slots⟩⟩⟩
    · rfl
    · simp [Slot.children]
    · simp
    · simp [schema] at h
  · exact .refl _

end NodeKind

/-- A node starts before its statements or class members and ends after them, or else it starts and
ends with the text. Only a case of a switch ends where its last statement does. -/
def NodeKind.Encloses (text : List Char) (kind : NodeKind) (start stop : Nat) (slots : List Slot) :
    Prop :=
  ∀ spec items, (spec, Slot.list items) ∈ kind.schema.zip slots → spec.shape = .block →
    (start = 0 ∨ start < items.start) ∧
      (stop = Text.byteLength text ∨ kind = .switchCase ∨ items.stop < stop)

theorem NodeKind.Encloses.mono {text : List Char} {kind : NodeKind} {lo lo' hi hi' : Nat}
    {slots : List Slot} (h : kind.Encloses text lo hi slots) (hlo : lo' ≤ lo) (hhi : hi ≤ hi')
    (hle : hi' ≤ Text.byteLength text) : kind.Encloses text lo' hi' slots := by
  intro spec items hmem hshape
  obtain ⟨hstart, hstop⟩ := h spec items hmem hshape
  refine ⟨?_, ?_⟩
  · rcases hstart with rfl | hlt
    · exact .inl (Nat.le_zero.mp hlo)
    · exact .inr (Nat.lt_of_le_of_lt hlo hlt)
  · rcases hstop with rfl | hcase | hlt
    · exact .inl (Nat.le_antisymm hle hhi)
    · exact .inr (.inl hcase)
    · exact .inr (.inr (Nat.lt_of_lt_of_le hlt hhi))

/-- What a parent needs to know of a node. -/
structure Face where
  kind : NodeKind
  start : Nat
  stop : Nat
  exported : Bool
  deriving DecidableEq

def Node.face (node : Node) : Face :=
  ⟨node.kind, node.start, node.stop, node.flags.exported⟩

def Node.reading (node : Node) : List NodeId :=
  node.kind.reading node.slots

def Chain (text : List Char) (hi : Nat) : Nat → List (Nat × Nat) → Prop
  | _, [] => True
  | lo, (start, stop) :: ranges =>
    lo ≤ start ∧ start < stop ∧ stop ≤ hi ∧ TokenStart text start ∧ Text.Seam text stop ∧
      Chain text hi stop ranges

theorem Chain.mono {text : List Char} {hi hi' lo lo' : Nat} {ranges : List (Nat × Nat)}
    (h : Chain text hi lo ranges) (hlo : lo' ≤ lo) (hhi : hi ≤ hi') : Chain text hi' lo' ranges := by
  induction ranges generalizing lo lo' with
  | nil => trivial
  | cons range ranges ih =>
      obtain ⟨hle, hlt, hstop, htoken, hend, hrest⟩ := h
      exact ⟨by omega, hlt, by omega, htoken, hend, ih hrest (Nat.le_refl _)⟩

theorem Chain.append {text : List Char} {hi hi' lo lo' : Nat} {ranges ranges' : List (Nat × Nat)}
    (h : Chain text hi lo ranges) (h' : Chain text hi' lo' ranges') (hle : hi ≤ lo')
    (hlo : lo ≤ lo') (hhi : hi ≤ hi') : Chain text hi' lo (ranges ++ ranges') := by
  induction ranges generalizing lo with
  | nil => exact h'.mono hlo (Nat.le_refl _)
  | cons range ranges ih =>
      obtain ⟨hge, hlt, hstop, htoken, hend, hrest⟩ := h
      exact ⟨hge, hlt, by omega, htoken, hend, ih hrest (by omega)⟩

theorem Chain.of_mem {text : List Char} {hi lo : Nat} {ranges : List (Nat × Nat)}
    {range : Nat × Nat} (h : Chain text hi lo ranges) (hmem : range ∈ ranges) :
    Chain text hi lo [range] := by
  induction ranges generalizing lo with
  | nil => simp at hmem
  | cons first ranges ih =>
      obtain ⟨hge, hlt, hstop, htoken, hend, hrest⟩ := h
      rcases List.mem_cons.mp hmem with rfl | hmem
      · exact ⟨hge, hlt, hstop, htoken, hend, trivial⟩
      · exact (ih hrest hmem).mono (hge.trans hlt.le) (Nat.le_refl _)

/-- What ends later starts later, and not before the other ends. -/
theorem Chain.apart {text : List Char} {hi lo : Nat} {ranges : List (Nat × Nat)}
    {first second : Nat × Nat} (h : Chain text hi lo ranges) (hfirst : first ∈ ranges)
    (hsecond : second ∈ ranges) (hlt : first.2 < second.2) : first.2 ≤ second.1 := by
  induction ranges generalizing lo with
  | nil => exact absurd hfirst List.not_mem_nil
  | cons range ranges ih =>
      obtain ⟨-, -, -, -, -, hrest⟩ := h
      rcases List.mem_cons.mp hfirst with rfl | hin
      · rcases List.mem_cons.mp hsecond with rfl | hin
        · exact absurd hlt (Nat.lt_irrefl _)
        · exact (hrest.of_mem hin).1
      · rcases List.mem_cons.mp hsecond with rfl | hin'
        · obtain ⟨hge, hlt', -⟩ := hrest.of_mem hin
          omega
        · exact ih hrest hin hin'

namespace Tree

def face? (tree : Tree) (id : NodeId) : Option Face :=
  (tree.get? id).map Node.face

def IsValue (tree : Tree) (id : NodeId) : Prop :=
  ∃ face, tree.face? id = some face ∧ face.kind.isTypeOnly = false

def IsExportedType (tree : Tree) (id : NodeId) : Prop :=
  ∃ face, tree.face? id = some face ∧ face.exported ∧
    (face.kind = .typeAlias ∨ face.kind = .interfaceDeclaration)

def Laid (tree : Tree) (hi : Nat) : Nat → List NodeId → Prop
  | _, [] => True
  | lo, id :: ids =>
    ∃ face, tree.face? id = some face ∧ lo ≤ face.start ∧ face.start < face.stop ∧
      face.stop ≤ hi ∧ Laid tree hi face.stop ids

def range? (tree : Tree) (id : NodeId) : Option (Nat × Nat) :=
  (tree.face? id).map fun face => (face.start, face.stop)

/-- The ranges that belong to a field: those of its nodes, but a clause of interfaces is one
range. -/
def rangesIn (tree : Tree) (spec : FieldSpec) (slot : Slot) : List (Nat × Nat) :=
  match slot with
  | .list items =>
    if spec.field = .implements then [(items.start, items.stop)]
    else slot.children.filterMap tree.range?
  | _ => slot.children.filterMap tree.range?

def ranges (tree : Tree) (node : Node) : List (Nat × Nat) :=
  node.fields.flatMap fun (spec, slot) => tree.rangesIn spec slot

def Within (tree : Tree) (lo hi : Nat) : Slot → Prop
  | .list items => lo ≤ items.start ∧ items.start ≤ items.stop ∧ items.stop ≤ hi ∧
      ∀ c ∈ items.nodes.filterMap id, ∃ face, tree.face? c = some face ∧
        items.start ≤ face.start ∧ face.stop ≤ items.stop
  | .node _ => True
  | .absent => True

@[simp] theorem within_absent (tree : Tree) (lo hi : Nat) : tree.Within lo hi .absent := trivial

@[simp] theorem within_node (tree : Tree) (lo hi : Nat) (id : NodeId) :
    tree.Within lo hi (.node id) := trivial

@[simp] theorem within_ofOption (tree : Tree) (lo hi : Nat) (id : Option NodeId) :
    tree.Within lo hi (.ofOption id) := by
  cases id <;> trivial

def fields (tree : Tree) (id : NodeId) : List (FieldSpec × Slot) :=
  ((tree.get? id).map Node.fields).getD []

def parent? (tree : Tree) (id : NodeId) : Option (NodeId × Field) :=
  (tree.get? id).bind Node.parent

def parentId? (tree : Tree) (id : NodeId) : Option NodeId :=
  (tree.get? id).bind fun node => node.parent.map (·.1)

def Owned (tree : Tree) (lo id : NodeId) : Prop :=
  ∀ p, tree.Reaches id p → lo ≤ p ∧ ∀ spec slot, (spec, slot) ∈ tree.fields p →
    ∀ c ∈ slot.children, tree.parent? c = some (p, spec.field)

end Tree

structure NodeShape (text : List Char) (tree : Tree) (id : NodeId) (node : Node) : Prop where
  fits : node.slots.length = node.kind.schema.length
  admitted : node.kind.admits node.slots
  below : ∀ c ∈ node.children, c < id
  unmarked : node.marks = {} ∧ node.before = none
  stop : Text.Seam text node.stop
  reading : tree.Laid node.stop node.start node.reading
  turns : node.kind = .templateLiteral → (node.slots.getD 0 .absent).children.length =
    (node.slots.getD 1 .absent).children.length + 1
  lists : ∀ slot ∈ node.slots, tree.Within node.start node.stop slot
  ranges : node.kind ≠ .templateLiteral → Chain text node.stop node.start (tree.ranges node)
  needed : ∀ c ∈ node.kind.needed node.slots, tree.IsValue c
  embedded : ∀ c ∈ node.kind.embedded node.slots, tree.IsValue c ∨ tree.IsExportedType c
  encloses : node.kind.Encloses text node.start node.stop node.slots

structure NodeSound (text : List Char) (tree : Tree) (id : NodeId) (node : Node) : Prop extends
    NodeShape text tree id node where
  start : TokenStart text node.start
  lt : node.start < node.stop

/-- All nodes are sound, all parents come after their children, the colons of conditionals are
their own, and operators have the operands that belong to them. -/
structure Tree.Sound (text : List Char) (tree : Tree) : Prop where
  node : ∀ {id node}, tree.get? id = some node → NodeSound text tree id node
  parent : ∀ {id p}, tree.parentId? id = some p → id < p
  colon : ∀ {id node}, tree.get? id = some node → tree.KeepsColon text NodeKind.HandsOn node
  grouped : ∀ {id node}, tree.get? id = some node → tree.Grouped node

namespace Tree

variable {text : List Char} {tree tree' : Tree}

theorem face?_of_get? {id : NodeId} {node : Node} (h : tree.get? id = some node) :
    tree.face? id = some node.face := by
  simp [face?, h]

theorem get?_of_face? {id : NodeId} {face : Face} (h : tree.face? id = some face) :
    ∃ node, tree.get? id = some node ∧ node.face = face :=
  Option.map_eq_some_iff.mp h

theorem lt_size_of_face? {id : NodeId} {face : Face} (h : tree.face? id = some face) :
    id < tree.size := by
  obtain ⟨node, hget, -⟩ := get?_of_face? h
  exact lt_size_of_get? hget

/-! ## Nodes in a row -/

namespace Laid

variable {lo lo' hi hi' : Nat} {ids ids' : List NodeId}

theorem mono (h : tree.Laid hi lo ids) (hlo : lo' ≤ lo) (hhi : hi ≤ hi') :
    tree.Laid hi' lo' ids := by
  induction ids generalizing lo lo' with
  | nil => trivial
  | cons id ids ih =>
      obtain ⟨face, hface, hle, hlt, hstop, hrest⟩ := h
      exact ⟨face, hface, by omega, hlt, by omega, ih hrest (Nat.le_refl _)⟩

theorem append (h : tree.Laid hi lo ids) (h' : tree.Laid hi' lo' ids') (hle : hi ≤ lo')
    (hlo : lo ≤ lo') (hhi : hi ≤ hi') : tree.Laid hi' lo (ids ++ ids') := by
  induction ids generalizing lo with
  | nil => exact h'.mono hlo (Nat.le_refl _)
  | cons id ids ih =>
      obtain ⟨face, hface, hge, hlt, hstop, hrest⟩ := h
      exact ⟨face, hface, hge, hlt, by omega, ih hrest (by omega)⟩

theorem sublist (h : tree.Laid hi lo ids) (hsub : ids'.Sublist ids) : tree.Laid hi lo ids' := by
  induction hsub generalizing lo with
  | slnil => trivial
  | cons id _ ih =>
      obtain ⟨face, -, hle, hlt, -, hrest⟩ := h
      exact ih (hrest.mono (by omega) (Nat.le_refl _))
  | cons_cons id _ ih =>
      obtain ⟨face, hface, hle, hlt, hstop, hrest⟩ := h
      exact ⟨face, hface, hle, hlt, hstop, ih hrest⟩

theorem congr (h : tree.Laid hi lo ids) (hface : ∀ id ∈ ids, tree'.face? id = tree.face? id) :
    tree'.Laid hi lo ids := by
  induction ids generalizing lo with
  | nil => trivial
  | cons id ids ih =>
      obtain ⟨face, hid, hle, hlt, hstop, hrest⟩ := h
      refine ⟨face, (hface id (by simp)).trans hid, hle, hlt, hstop, ih hrest fun id hid => ?_⟩
      exact hface id (List.mem_cons_of_mem _ hid)

theorem face? (h : tree.Laid hi lo ids) {id : NodeId} (hid : id ∈ ids) :
    ∃ face, tree.face? id = some face ∧ lo ≤ face.start ∧ face.start < face.stop ∧
      face.stop ≤ hi := by
  induction ids generalizing lo with
  | nil => simp at hid
  | cons first ids ih =>
      obtain ⟨face, hfirst, hle, hlt, hstop, hrest⟩ := h
      rcases List.mem_cons.mp hid with rfl | hid
      · exact ⟨face, hfirst, hle, hlt, hstop⟩
      · obtain ⟨other, hother, hge, hrest⟩ := ih hrest hid
        exact ⟨other, hother, by omega, hrest⟩

theorem apart (h : tree.Laid hi lo ids) {a b : NodeId} (ha : a ∈ ids) (hb : b ∈ ids)
    (hne : a ≠ b) :
    ∃ face face', tree.face? a = some face ∧ tree.face? b = some face' ∧
      (face.stop ≤ face'.start ∨ face'.stop ≤ face.start) := by
  induction ids generalizing lo with
  | nil => simp at ha
  | cons first ids ih =>
      obtain ⟨face, hfirst, -, -, -, hrest⟩ := h
      rcases List.mem_cons.mp ha with rfl | ha' <;> rcases List.mem_cons.mp hb with rfl | hb'
      · exact absurd rfl hne
      · obtain ⟨face', hface, hge, -⟩ := hrest.face? hb'
        exact ⟨face, face', hfirst, hface, .inl hge⟩
      · obtain ⟨face', hface, hge, -⟩ := hrest.face? ha'
        exact ⟨face', face, hface, hfirst, .inr hge⟩
      · exact ih hrest ha' hb'

theorem nodup (h : tree.Laid hi lo ids) : ids.Nodup := by
  induction ids generalizing lo with
  | nil => exact List.nodup_nil
  | cons first ids ih =>
      obtain ⟨face, hfirst, -, hlt, -, hrest⟩ := h
      refine List.nodup_cons.mpr ⟨fun hmem => ?_, ih hrest⟩
      obtain ⟨face', hface', hge, -⟩ := hrest.face? hmem
      obtain rfl : face = face' := Option.some.inj (hfirst.symm.trans hface')
      omega

end Laid

/-! ## Tables that agree on faces -/

theorem IsValue.congr {id : NodeId} (h : tree.IsValue id)
    (hface : tree'.face? id = tree.face? id) : tree'.IsValue id := by
  obtain ⟨face, hid, hkind⟩ := h
  exact ⟨face, hface.trans hid, hkind⟩

theorem IsExportedType.congr {id : NodeId} (h : tree.IsExportedType id)
    (hface : tree'.face? id = tree.face? id) : tree'.IsExportedType id := by
  obtain ⟨face, hid, hexported⟩ := h
  exact ⟨face, hface.trans hid, hexported⟩

theorem Within.congr {lo hi : Nat} {slot : Slot} (h : tree.Within lo hi slot)
    (hface : ∀ id ∈ slot.children, tree'.face? id = tree.face? id) : tree'.Within lo hi slot := by
  cases slot with
  | absent => trivial
  | node id => trivial
  | list items =>
      obtain ⟨hlo, hle, hhi, hitems⟩ := h
      refine ⟨hlo, hle, hhi, fun id hid => ?_⟩
      rw [hface id hid]
      exact hitems id hid

theorem Within.mono {lo lo' hi hi' : Nat} {slot : Slot} (h : tree.Within lo hi slot)
    (hlo : lo' ≤ lo) (hhi : hi ≤ hi') : tree.Within lo' hi' slot := by
  cases slot with
  | absent => trivial
  | node id => trivial
  | list items =>
      obtain ⟨hstart, hle, hstop, hitems⟩ := h
      exact ⟨Nat.le_trans hlo hstart, hle, Nat.le_trans hstop hhi, hitems⟩

theorem ranges_congr {node : Node} (hface : ∀ c ∈ node.children, tree'.face? c = tree.face? c) :
    tree'.ranges node = tree.ranges node := by
  unfold ranges
  apply List.flatMap_congr
  rintro ⟨spec, slot⟩ hmem
  have hslot : ∀ c ∈ slot.children, tree'.range? c = tree.range? c := by
    intro c hc
    have hchild : c ∈ node.children :=
      List.mem_flatMap.mpr ⟨slot, (List.of_mem_zip hmem).2, hc⟩
    simp [range?, hface c hchild]
  have hmap : slot.children.filterMap tree'.range? = slot.children.filterMap tree.range? :=
    List.filterMap_congr hslot
  cases slot <;> simp only [rangesIn, hmap]

end Tree

namespace NodeShape

variable {text : List Char} {tree tree' : Tree} {id : NodeId} {node : Node}

theorem laid (h : NodeShape text tree id node) :
    ∃ ids, ids.Perm node.children ∧ tree.Laid node.stop node.start ids :=
  ⟨node.reading, NodeKind.reading_perm (Nat.le_of_eq h.fits), h.reading⟩

theorem accepts (h : NodeShape text tree id node) {spec : FieldSpec} {slot : Slot}
    (hmem : (spec, slot) ∈ node.fields) : spec.accepts slot := by
  have hadmitted := h.admitted
  simp only [NodeKind.admits, Bool.and_eq_true] at hadmitted
  exact List.all_eq_true.mp hadmitted.1.2 (spec, slot) hmem

/-- The elements of a list with separators mean something when the program runs. -/
theorem values (h : NodeShape text tree id node) (hkind : node.kind.isTypeOnly = false)
    {spec : FieldSpec} {slot : Slot} (hmem : (spec, slot) ∈ node.fields)
    (hshape : spec.shape = .list) (hfield : spec.field ≠ .implements) {c : NodeId}
    (hc : c ∈ slot.children) : tree.IsValue c := by
  refine h.needed c ?_
  rw [NodeKind.needed, hkind, if_neg Bool.false_ne_true]
  refine NodeKind.mem_childrenWhere.mpr ⟨spec, slot, hmem, ?_, hc⟩
  simp [FieldSpec.matters, NodeKind.embeds, hshape, hfield]

theorem congr (h : NodeShape text tree id node)
    (hface : ∀ c ∈ node.children, tree'.face? c = tree.face? c) :
    NodeShape text tree' id node where
  fits := h.fits
  admitted := h.admitted
  below := h.below
  unmarked := h.unmarked
  stop := h.stop
  reading := h.reading.congr fun c hc =>
    hface c ((NodeKind.reading_perm (Nat.le_of_eq h.fits)).mem_iff.mp hc)
  turns := h.turns
  lists slot hslot := (h.lists slot hslot).congr fun c hc =>
    hface c (List.mem_flatMap.mpr ⟨slot, hslot, hc⟩)
  ranges hkind := by
    rw [Tree.ranges_congr hface]
    exact h.ranges hkind
  needed c hc := (h.needed c hc).congr (hface c (NodeKind.mem_of_mem_needed hc))
  embedded c hc := by
    have hsame := hface c (NodeKind.mem_of_mem_childrenWhere hc)
    exact (h.embedded c hc).imp (·.congr hsame) (·.congr hsame)
  encloses := h.encloses

theorem adopted (h : NodeShape text tree id node) (parent : Option (NodeId × Field)) :
    NodeShape text tree id { node with parent } :=
  ⟨h.fits, h.admitted, h.below, h.unmarked, h.stop, h.reading, h.turns, h.lists, h.ranges, h.needed,
    h.embedded, h.encloses⟩

end NodeShape

end FlowErasure
