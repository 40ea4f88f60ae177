import FlowErasure.Proofs.Syntax.Growth

/-!
# Nodes left behind

A literal that turns out to be the target of an assignment is read as a pattern. The pattern is a
new node with the range of the literal, and the literal stays in the table. So what has been added
to a table is below the nodes that have been read, or something below them stands in its place.
-/

namespace FlowErasure

def NodeKind.pattern? : NodeKind → Option NodeKind
  | .objectExpression => some .objectPattern
  | .arrayExpression => some .arrayPattern
  | .spreadElement => some .restElement
  | .property => some .property
  | .assignmentExpression => some .assignmentPattern
  | _ => none

/-- Kinds that stand for others. -/
def NodeKind.isPattern : NodeKind → Bool
  | .objectPattern | .arrayPattern | .restElement | .property | .assignmentPattern => true
  | _ => false

theorem NodeKind.isPattern_of_pattern? {a b : NodeKind} (h : a.pattern? = some b) : b.isPattern := by
  cases a <;> cases h <;> rfl

/-- Patterns do not change any more, but for their properties. -/
theorem NodeKind.pattern?_trans {a b c : NodeKind} (h : a.pattern? = some b)
    (h' : b.pattern? = some c) : a.pattern? = some c := by
  cases a <;> cases h <;> cases h'
  rfl

namespace Tree

variable {text : List Char} {tree tree' : Tree} {a b c : NodeId} {ids ids' : List NodeId}

def StandsFor (tree : Tree) (a b : NodeId) : Prop :=
  ∃ face face', tree.face? a = some face ∧ tree.face? b = some face' ∧
    face'.kind.pattern? = some face.kind ∧ face.start = face'.start ∧ face.stop = face'.stop

def Covers (tree : Tree) (ids : List NodeId) (a : NodeId) : Prop :=
  ∃ id ∈ ids, ∃ b, tree.Reaches id b ∧ (b = a ∨ tree.StandsFor b a)

theorem StandsFor.trans (h : tree.StandsFor a b) (h' : tree.StandsFor b c) : tree.StandsFor a c := by
  obtain ⟨face, middle, ha, hb, hkind, hstart, hstop⟩ := h
  obtain ⟨middle', face', hb', hc, hkind', hstart', hstop'⟩ := h'
  obtain rfl := Option.some.inj (hb.symm.trans hb')
  exact ⟨face, face', ha, hc, NodeKind.pattern?_trans hkind' hkind, hstart.trans hstart',
    hstop.trans hstop'⟩

theorem StandsFor.congr (h : tree.StandsFor a b) (ha : tree'.face? a = tree.face? a)
    (hb : tree'.face? b = tree.face? b) : tree'.StandsFor a b := by
  obtain ⟨face, face', hface, hface', hrest⟩ := h
  exact ⟨face, face', ha.trans hface, hb.trans hface', hrest⟩

namespace Covers

theorem of_mem (h : a ∈ ids) : tree.Covers ids a :=
  ⟨a, h, a, .refl, .inl rfl⟩

theorem of_reaches {id : NodeId} (hid : id ∈ ids) (h : tree.Reaches id a) : tree.Covers ids a :=
  ⟨id, hid, a, h, .inl rfl⟩

theorem mono (h : tree.Covers ids a) (hsub : ids ⊆ ids') : tree.Covers ids' a := by
  obtain ⟨id, hid, hrest⟩ := h
  exact ⟨id, hsub hid, hrest⟩

/-- What is covered by nodes that are covered is covered. -/
theorem trans (h : tree.Covers ids a) (hids : ∀ id ∈ ids, ∀ b, tree.Reaches id b → tree.Covers ids' b) :
    tree.Covers ids' a := by
  obtain ⟨id, hid, b, hreach, hb⟩ := h
  obtain ⟨id', hid', b', hreach', hb'⟩ := hids id hid b hreach
  refine ⟨id', hid', b', hreach', ?_⟩
  rcases hb with rfl | hb
  · exact hb'
  · rcases hb' with rfl | hb'
    · exact .inr hb
    · exact .inr (hb'.trans hb)

/-- Faces and children of nodes in front of `n` are enough. -/
theorem congr {n : Nat} (h : tree.Covers ids a) (hs : tree.Sound text)
    (hfaces : ∀ i < n, tree'.face? i = tree.face? i)
    (hchildren : ∀ i < n, tree'.children i = tree.children i) (hids : ∀ id ∈ ids, id < n)
    (ha : a < n) : tree'.Covers ids a := by
  obtain ⟨id, hid, b, hreach, hb⟩ := h
  have hbn : b < n := Nat.lt_of_le_of_lt (hs.le_of_reaches hreach) (hids id hid)
  refine ⟨id, hid, b, (hs.reaches_of_children hchildren (hids id hid)).mpr hreach, ?_⟩
  exact hb.imp_right (·.congr (hfaces b hbn) (hfaces a ha))

end Covers

/-- A new node covers itself and what its children cover. -/
theorem covers_add {node : Node} (hs : tree.Sound text) (hids : ∀ id ∈ ids, id ∈ (fitted node).children)
    (hlt : ∀ id ∈ ids, id < tree.size) (ha : a < tree.size) (h : tree.Covers ids a) :
    (tree.add node).2.Covers [tree.size] a := by
  obtain ⟨id, hid, b, hreach, hb⟩ := h
  have hbn : b < tree.size := Nat.lt_of_le_of_lt (hs.le_of_reaches hreach) (hlt id hid)
  have hhead : (tree.add node).2.Holds tree.size id := by
    rw [Holds, children_add_self]
    exact hids id hid
  refine ⟨tree.size, by simp, b, .head hhead ((hs.reaches_add node (hlt id hid)).mpr hreach), ?_⟩
  exact hb.imp_right (·.congr (face?_add node hbn) (face?_add node ha))

end Tree

end FlowErasure
