import FlowErasure.Proofs.Frame.Answering
import FlowErasure.Proofs.Nesting.Ranks

/-!
# What parsers answer

A node that has been read is still there when the whole source has been read, with its kind and its
slots, which is all that its rank depends on. So the rank of an answer is shown with `AnswersIn`, and
the rules that are added here are those for nodes and lists of nodes.
-/

namespace FlowErasure

def Node.shape (node : Node) : NodeKind × List Slot :=
  (node.kind, node.slots)

instance : Intrinsic Node.shape :=
  ⟨fun _ _ => rfl⟩

namespace Tree

variable {tree final : Tree} {n m rank : Nat} {id : NodeId} {ids ids' : List NodeId}

def Grows (tree final : Tree) : Prop :=
  ∀ id shape, tree.shape? id = some shape → final.shape? id = some shape

theorem shape?_add_self (tree : Tree) (node : Node) :
    (tree.add node).2.shape? tree.size = some (node.kind, fitSlots node.kind node.slots) := by
  simp [shape?, get?_add_self, fitted]

theorem grows_iff : tree.Grows final ↔ GrowsIn Node.shape tree final :=
  Iff.rfl

theorem grows_add (tree : Tree) (node : Node) : tree.Grows (tree.add node).2 :=
  grows_iff.mpr (GrowsIn.of_add (.refl Node.shape _))

theorem grows_names (tree : Tree) (names : Names) : tree.Grows { tree with names } :=
  fun _ _ h => h

theorem Grows.trans {tree' : Tree} (h : tree.Grows tree') (h' : tree'.Grows final) :
    tree.Grows final :=
  fun id shape hid => h' id shape (h id shape hid)

def AllBelow (tree : Tree) (n : Nat) (ids : List NodeId) : Prop :=
  ∀ id ∈ ids, tree.Below n id

@[simp] theorem allBelow_nil : tree.AllBelow n [] := by
  simp [AllBelow]

@[simp] theorem allBelow_cons : tree.AllBelow n (id :: ids) ↔ tree.Below n id ∧ tree.AllBelow n ids := by
  simp [AllBelow]

@[simp] theorem allBelow_append :
    tree.AllBelow n (ids ++ ids') ↔ tree.AllBelow n ids ∧ tree.AllBelow n ids' := by
  simp [AllBelow, or_imp, forall_and]

@[simp] theorem allBelow_reverse : tree.AllBelow n ids.reverse ↔ tree.AllBelow n ids := by
  simp [AllBelow]

theorem AllBelow.mono (h : tree.AllBelow n ids) (hle : n ≤ m) : tree.AllBelow m ids :=
  fun id hid => (h id hid).mono hle

/-- Fitting slots to a schema brings no children into them. -/
theorem mem_zip_of_mem_zip_fitSlots {kind : NodeKind} {slots : List Slot} {spec : FieldSpec}
    {slot : Slot} {child : NodeId} (hmem : (spec, slot) ∈ kind.schema.zip (fitSlots kind slots))
    (hchild : child ∈ slot.children) : (spec, slot) ∈ kind.schema.zip slots := by
  obtain ⟨i, hi, heq⟩ := List.mem_iff_getElem.mp hmem
  have hlt : i < kind.schema.length := by
    rw [List.length_zip] at hi
    omega
  have hfit : i < (fitSlots kind slots).length := by simp [fitSlots, hlt]
  obtain ⟨rfl, rfl⟩ : kind.schema[i] = spec ∧ (fitSlots kind slots)[i] = slot := by
    simpa using heq
  have hslot : i < slots.length := by
    refine Nat.lt_of_not_le fun hle => ?_
    have habsent : (fitSlots kind slots)[i] = .absent := by
      simp [fitSlots, List.getElem_append_right hle]
    rw [habsent] at hchild
    cases hchild
  refine List.mem_iff_getElem.mpr ⟨i, by simp [hlt, hslot], ?_⟩
  simp [fitSlots, List.getElem_append_left hslot]

variable {kind : NodeKind} {slots : List Slot}

/-- A node of a rank, with each child below what its field allows. -/
theorem Below.of_fields (hlt : rank < n) (hfits : kind.fitsAt rank)
    (hshape : tree.shape? id = some (kind, fitSlots kind slots))
    (hfields : ∀ spec slot, (spec, slot) ∈ kind.schema.zip slots →
      tree.AllBelow (kind.limit spec.field rank) slot.children) : tree.Below n id :=
  .intro hlt hshape hfits fun spec slot hmem child hchild =>
    hfields spec slot (mem_zip_of_mem_zip_fitSlots hmem hchild) child hchild

theorem Below.of_children (hlt : rank < n) (hfits : kind.fitsAt rank)
    (hshape : tree.shape? id = some (kind, fitSlots kind slots))
    (hchildren : tree.AllBelow rank (slots.flatMap Slot.children)) : tree.Below n id := by
  refine .of_fields hlt hfits hshape fun spec slot hmem child hchild => ?_
  have hslot : slot ∈ slots := (List.of_mem_zip hmem).2
  exact (hchildren child (List.mem_flatMap.mpr ⟨slot, hslot, hchild⟩)).mono (NodeKind.le_limit ..)

/-- A node of a rank that goes on a chain: what stands to the left of it may be of the same rank. -/
theorem Below.of_left {left : NodeId} (hlt : rank < n) (hfits : kind.fitsAt rank)
    (hshape : tree.shape? id = some (kind, fitSlots kind (.node left :: slots)))
    (hspine : ∃ spec specs, kind.schema = spec :: specs ∧ kind.isLeftSpine spec.field)
    (hleft : tree.Below (rank + 1) left)
    (hchildren : tree.AllBelow rank (slots.flatMap Slot.children)) : tree.Below n id := by
  obtain ⟨first, specs, hschema, hfirst⟩ := hspine
  refine .of_fields hlt hfits hshape fun spec slot hmem child hchild => ?_
  rw [hschema, List.zip_cons_cons] at hmem
  rcases List.mem_cons.mp hmem with heq | hmem
  · cases heq
    obtain rfl : child = left := List.mem_singleton.mp hchild
    simpa [NodeKind.limit, hfirst] using hleft
  · have hslot : slot ∈ slots := (List.of_mem_zip hmem).2
    exact (hchildren child (List.mem_flatMap.mpr ⟨slot, hslot, hchild⟩)).mono (NodeKind.le_limit ..)

/-- A rest element, whose target may be of any stage of the level. -/
theorem Below.of_rest {argument : NodeId} (hlt : rank < n) (hfits : NodeKind.restElement.fitsAt rank)
    (hshape : tree.shape? id = some (.restElement, fitSlots .restElement [.node argument]))
    (hargument : tree.Below (rank / 16 * 16 + 16) argument) : tree.Below n id := by
  refine .of_fields hlt hfits hshape fun spec slot hmem => ?_
  obtain ⟨rfl, rfl⟩ : spec = .one .argument ∧ slot = .node argument := by
    simpa [NodeKind.schema] using hmem
  simpa [NodeKind.limit, NodeKind.isLeftSpine, NodeKind.isUnguarded, FieldSpec.one] using hargument

/-- A node below a rank has a rank that is less, and if none of its fields is an exception, what it
holds is below that. -/
theorem Below.exists_fields {node : Node} (h : tree.Below n id)
    (hshape : tree.shape? id = some (node.kind, node.slots))
    (hplain : ∀ spec ∈ node.kind.schema,
      (node.kind.isLeftSpine spec.field || node.kind.isUnguarded spec.field) = false) :
    ∃ rank < n, node.kind.fitsAt rank ∧ ∀ spec slot, (spec, slot) ∈ node.fields →
      tree.AllBelow rank slot.children := by
  cases h with
  | @intro _ rank _ kind slots lt shape fits children =>
      cases hshape.symm.trans shape
      refine ⟨rank, lt, fits, fun spec slot hmem => ?_⟩
      have hplain := hplain spec (List.of_mem_zip hmem).1
      rw [Bool.or_eq_false_iff] at hplain
      have hlimit : node.kind.limit spec.field rank = rank := by
        simp [NodeKind.limit, hplain.1, hplain.2]
      exact hlimit ▸ children spec slot hmem

end Tree

namespace Grammar

variable {α : Type} {final : Tree} {n m rank : Nat} {c : Context}

abbrev RanksBelow (final : Tree) (c : Context) (n : Nat) (p : Parser NodeId) : Prop :=
  AnswersIn Node.shape final c p (final.Below n)

abbrev AllRankBelow (final : Tree) (c : Context) (n : Nat) (p : Parser α)
    (nodes : α → List NodeId) : Prop :=
  AnswersIn Node.shape final c p fun a => final.AllBelow n (nodes a)

theorem RanksBelow.le {p : Parser NodeId} (h : RanksBelow final c m p) (hle : m ≤ n) :
    RanksBelow final c n p :=
  h.mono fun _ hid => hid.mono hle

theorem AllRankBelow.le {p : Parser α} {nodes : α → List NodeId}
    (h : AllRankBelow final c m p nodes) (hle : m ≤ n) : AllRankBelow final c n p nodes :=
  h.mono fun _ hids => hids.mono hle

/-! ## Nodes -/

namespace AnswersIn

variable {kind : NodeKind} {start : Nat} {slots : List Slot} {details : Details} {R : NodeId → Prop}

theorem shaped :
    AnswersIn Node.shape final c (finishWith kind start slots details) fun id =>
      final.shape? id = some (kind, Tree.fitSlots kind slots) :=
  .quiet fun _ => addNode _

theorem rankedWith (hfits : kind.fitsAt rank)
    (himp : ∀ id, (final.AllBelow rank (slots.flatMap Slot.children) → final.Below (rank + 1) id) →
      R id) : AnswersIn Node.shape final c (finishWith kind start slots details) R :=
  shaped.mono fun id hshape => himp id (.of_children (Nat.lt_succ_self rank) hfits hshape)

theorem ranked (hfits : kind.fitsAt rank)
    (himp : ∀ id, (final.AllBelow rank (slots.flatMap Slot.children) → final.Below (rank + 1) id) →
      R id) : AnswersIn Node.shape final c (finish kind start slots) R :=
  rankedWith hfits himp

theorem rankedLeft {left : NodeId} (hfits : kind.fitsAt rank)
    (hspine : ∃ spec specs, kind.schema = spec :: specs ∧ kind.isLeftSpine spec.field)
    (himp : ∀ id, (final.Below (rank + 1) left → final.AllBelow rank (slots.flatMap Slot.children) →
      final.Below (rank + 1) id) → R id) :
    AnswersIn Node.shape final c (finishWith kind start (.node left :: slots) details) R :=
  shaped.mono fun id hshape =>
    himp id (.of_left (Nat.lt_succ_self rank) hfits hshape hspine)

end AnswersIn

theorem RanksBelow.identifierName : RanksBelow final c 18 identifierName := by
  refine .quiet fun t => .when ?_
  refine .quiet fun start => AnswersIn.tokenAtom.bind fun name => .quiet fun _ => ?_
  exact .rankedWith (by decide : NodeKind.identifier.fitsAt 17) (by simp_all)

theorem RanksBelow.identifier : RanksBelow final c 18 identifier :=
  .quiet fun _ => .ite RanksBelow.identifierName .fail

theorem RanksBelow.literal : RanksBelow final c 17 literal := by
  refine .quiet fun start => .quiet fun t => .quiet fun _ => ?_
  exact .rankedWith (by decide : NodeKind.literal.fitsAt 16) (by simp_all)

/-! ## Lists -/

section

variable {one : Parser NodeId}

theorem AllRankBelow.collect {item : Parser (Option NodeId)}
    (h : AllRankBelow final c n item Option.toList) :
    AllRankBelow final c n (collect item) fun ids => ids :=
  AnswersIn.collect (h.mono fun a ha => by simpa [Tree.AllBelow] using ha)

theorem RanksBelow.commaTerminated {close : Token} (h : RanksBelow final c n one) :
    AllRankBelow final c n (commaTerminated close one) fun ids => ids :=
  AnswersIn.commaTerminated h

theorem RanksBelow.afterComma (h : RanksBelow final c n one) :
    AllRankBelow final c n
      (Grammar.collect do if ← accept .comma then some <$> one else return none) fun ids => ids :=
  AnswersIn.afterComma h

theorem RanksBelow.commaSeparated (h : RanksBelow final c n one) :
    AllRankBelow final c n (commaSeparated one) fun ids => ids :=
  AnswersIn.commaSeparated h

theorem RanksBelow.commaDelimited {close : Token} (h : RanksBelow final c n one) :
    AllRankBelow final c n (commaDelimited close one) fun ids => ids :=
  AnswersIn.commaDelimited h

end

end Grammar

end FlowErasure
