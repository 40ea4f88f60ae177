import FlowErasure.Proofs.Grammar.WellFormed

/-!
# Chains of operators

Operands with operators between them can be put together in many ways. The precedence of the
operators, with `**` associating to the right and all others to the left, prescribes one of them, and
that is how they are put together in a source that can be read.
-/

namespace FlowErasure

inductive Grouping where
  | operand (id : NodeId)
  | join (operator : Token) (left right : Grouping)

namespace Grouping

variable {g g' l r : Grouping} {t u : Token}

def chain : Grouping → List (NodeId ⊕ Token)
  | .operand id => [.inl id]
  | .join operator left right => left.chain ++ .inr operator :: right.chain

def top? : Grouping → Option Token
  | .operand _ => none
  | .join operator _ _ => some operator

/-- No operator has an operand that belongs to another one. -/
def Prescribed : Grouping → Prop
  | .operand _ => True
  | .join operator left right =>
    ((∀ u, left.top? = some u → operator.AllowsLeft u) ∧ left.Prescribed) ∧
      (∀ u, right.top? = some u → operator.AllowsRight u) ∧ right.Prescribed

theorem length_chain_pos (g : Grouping) : 0 < g.chain.length := by
  cases g with
  | operand id => exact Nat.one_pos
  | join operator left right => exact List.length_pos_of_mem (List.mem_append_right _ List.mem_cons_self)

theorem Prescribed.allows (h : g.Prescribed) (hu : .inr u ∈ g.chain) :
    ∃ top, g.top? = some top ∧ (u = top ∨ top.AllowsLeft u ∨ top.AllowsRight u) := by
  induction g with
  | operand id => simp [chain] at hu
  | join operator left right ihleft ihright =>
      obtain ⟨⟨hleft, hl⟩, hright, hr⟩ := h
      refine ⟨operator, rfl, ?_⟩
      simp only [chain, List.mem_append, List.mem_cons, Sum.inr.injEq] at hu
      rcases hu with hu | hu | hu
      · obtain ⟨top, htop, rfl | hbelow⟩ := ihleft hl hu
        · exact .inr (.inl (hleft u htop))
        · exact .inr (.inl ((hleft top htop).trans hbelow))
      · exact .inl hu
      · obtain ⟨top, htop, rfl | hbelow⟩ := ihright hr hu
        · exact .inr (.inr (hright u htop))
        · exact .inr (.inr ((hright top htop).trans hbelow))

theorem Prescribed.allowsLeft (h : (join t l r).Prescribed) (hu : .inr u ∈ l.chain) :
    t.AllowsLeft u := by
  obtain ⟨top, htop, rfl | hbelow⟩ := h.1.2.allows hu
  · exact h.1.1 u htop
  · exact (h.1.1 top htop).trans hbelow

theorem Prescribed.allowsRight (h : (join t l r).Prescribed) (hu : .inr u ∈ r.chain) :
    t.AllowsRight u := by
  obtain ⟨top, htop, rfl | hbelow⟩ := h.2.2.allows hu
  · exact h.2.1 u htop
  · exact (h.2.1 top htop).trans hbelow

/-- Two operators of one chain are not both applied last. -/
theorem Prescribed.not_between {l' r' : Grouping} {mid : List (NodeId ⊕ Token)}
    (h : (join t l r).Prescribed) (h' : (join u l' r').Prescribed)
    (hleft : l'.chain = l.chain ++ .inr t :: mid) (hright : r.chain = mid ++ .inr u :: r'.chain) :
    False := by
  have hallows : u.AllowsLeft t := h'.allowsLeft (by simp [hleft])
  exact hallows.not_allowsRight (h.allowsRight (by simp [hright]))

/-- There is one prescribed way to put a chain together. -/
theorem Prescribed.eq_of_chain (h : g.Prescribed) (h' : g'.Prescribed)
    (hchain : g.chain = g'.chain) : g = g' := by
  induction g generalizing g' with
  | operand id =>
      cases g' with
      | operand id' => simpa [chain] using hchain
      | join u l' r' =>
          have hpos := l'.length_chain_pos
          have hlength := congrArg List.length hchain
          simp [chain] at hlength
          omega
  | join t l r ihl ihr =>
      cases g' with
      | operand id' =>
          have hpos := l.length_chain_pos
          have hlength := congrArg List.length hchain
          simp [chain] at hlength
          omega
      | join u l' r' =>
          rcases List.append_eq_append_iff.mp hchain with ⟨mid, hleft, hright⟩ | ⟨mid, hleft, hright⟩
          · cases mid with
            | nil =>
                obtain ⟨ht, hr⟩ := List.cons.inj hright
                rw [ihl h.1.2 h'.1.2 (by simpa using hleft.symm), ihr h.2.2 h'.2.2 hr,
                  Sum.inr.inj ht]
            | cons x mid =>
                obtain ⟨rfl, hr⟩ := List.cons.inj hright
                exact (h.not_between h' hleft hr).elim
          · cases mid with
            | nil =>
                obtain ⟨ht, hr⟩ := List.cons.inj hright
                rw [ihl h.1.2 h'.1.2 (by simpa using hleft), ihr h.2.2 h'.2.2 hr.symm,
                  Sum.inr.inj ht]
            | cons x mid =>
                obtain ⟨rfl, hr⟩ := List.cons.inj hright
                exact (h'.not_between h hleft hr).elim

end Grouping

namespace Tree

variable {tree : Tree} {joined : Bool} {id : NodeId} {g : Grouping}

def joinsLeft (tree : Tree) (node : Node) (operand : NodeId) : Bool :=
  (tree.get? operand).any fun left => left.kind.isOperation && left.start == node.start

def joinsRight (tree : Tree) (node : Node) (operand : NodeId) : Bool :=
  (tree.get? operand).any fun right => right.kind.isOperation && right.stop == node.stop

/-- How operands are put together in a table: a node that is `joined` stands for an operator and its
operands, any other one for itself. -/
inductive Groups (tree : Tree) : (joined : Bool) → NodeId → Grouping → Prop
  | operand (id : NodeId) : Groups tree false id (.operand id)
  | join {id l r : NodeId} {node : Node} {left right : Grouping} : tree.get? id = some node →
      node.kind.isOperation → node.child? .left = some l → node.child? .right = some r →
      Groups tree (tree.joinsLeft node l) l left → Groups tree (tree.joinsRight node r) r right →
      Groups tree true id (.join node.token left right)

theorem Groups.of_top? (h : tree.Groups joined id g) {t : Token} (ht : g.top? = some t) :
    joined = true ∧ ∃ node, tree.get? id = some node ∧ node.token = t := by
  cases h with
  | operand => simp [Grouping.top?] at ht
  | join hget => exact ⟨rfl, _, hget, Option.some.inj ht⟩

theorem Groups.prescribed (h : tree.Groups joined id g)
    (hgrouped : ∀ {id node}, tree.get? id = some node → tree.Grouped node) : g.Prescribed := by
  induction h with
  | operand => trivial
  | @join id l r node left right hget hkind hl hr hleft hright ihleft ihright =>
      refine ⟨⟨fun u hu => ?_, ihleft⟩, fun u hu => ?_, ihright⟩
      · obtain ⟨hjoined, operand, hget', rfl⟩ := hleft.of_top? hu
        simp only [joinsLeft, hget', Option.any_some, Bool.and_eq_true, beq_iff_eq] at hjoined
        exact (hgrouped hget).left hkind l operand hl hget' hjoined.1 hjoined.2
      · obtain ⟨hjoined, operand, hget', rfl⟩ := hright.of_top? hu
        simp only [joinsRight, hget', Option.any_some, Bool.and_eq_true, beq_iff_eq] at hjoined
        exact (hgrouped hget).right hkind r operand hr hget' hjoined.1 hjoined.2

/-- One node is put together in one way. -/
theorem Groups.unique (h : tree.Groups joined id g) {g' : Grouping}
    (h' : tree.Groups joined id g') : g = g' := by
  induction h generalizing g' with
  | operand => cases h'; rfl
  | join hget _ hl hr _ _ ihleft ihright =>
      cases h' with
      | join hget' _ hl' hr' hleft hright =>
          obtain rfl := Option.some.inj (hget.symm.trans hget')
          obtain rfl := Option.some.inj (hl.symm.trans hl')
          obtain rfl := Option.some.inj (hr.symm.trans hr')
          rw [ihleft hleft, ihright hright]

end Tree

theorem FieldSpec.exists_node_of_accepts {field : Field} {slot : Slot}
    (h : (FieldSpec.one field).accepts slot) : ∃ id, slot = .node id := by
  cases slot with
  | node id => exact ⟨id, rfl⟩
  | absent => exact absurd h Bool.false_ne_true
  | list items => exact absurd h Bool.false_ne_true

theorem NodeShape.exists_operands {text : List Char} {tree : Tree} {id : NodeId} {node : Node}
    (h : NodeShape text tree id node) (hkind : node.kind.isOperation) :
    ∃ l r, node.child? .left = some l ∧ node.child? .right = some r := by
  have hschema : node.kind.schema = [.one .left, .one .right] := by
    simp only [NodeKind.isOperation, Bool.or_eq_true, beq_iff_eq] at hkind
    rcases hkind with hkind | hkind <;> rw [hkind] <;> rfl
  obtain ⟨left, right, hslots⟩ : ∃ left right, node.slots = [left, right] :=
    List.length_eq_two.mp (h.fits.trans (congrArg List.length hschema))
  have hfields : node.fields = [(.one .left, left), (.one .right, right)] := by
    rw [Node.fields, hschema, hslots]
    rfl
  obtain ⟨l, rfl⟩ := FieldSpec.exists_node_of_accepts (h.accepts (hfields ▸ List.mem_cons_self))
  obtain ⟨r, rfl⟩ := FieldSpec.exists_node_of_accepts
    (h.accepts (hfields ▸ List.mem_cons_of_mem _ List.mem_cons_self))
  refine ⟨l, r, ?_, ?_⟩
  all_goals
    rw [Node.child?, Node.slot?, NodeKind.fieldIndex?, hschema, hslots]
    rfl

/-- Every operation has its operands put together in some way. -/
theorem Tree.ReadFrom.exists_groups {text : List Char} {tree : Tree} {root : NodeId}
    (h : tree.ReadFrom text root) (joined : Bool) (id : NodeId)
    (hid : joined = true → ∃ node, tree.get? id = some node ∧ node.kind.isOperation) :
    ∃ g, tree.Groups joined id g := by
  induction id using Nat.strongRecOn generalizing joined with
  | ind id ih =>
    cases joined with
    | false => exact ⟨_, .operand id⟩
    | true =>
        obtain ⟨node, hget, hkind⟩ := hid rfl
        obtain ⟨l, r, hl, hr⟩ := (h.shape hget).exists_operands hkind
        have hbelow := (h.shape hget).below
        have hjoined : ∀ (child : NodeId) (p : Node → Bool),
            (tree.get? child).any (fun operand => operand.kind.isOperation && p operand) = true →
              ∃ operand, tree.get? child = some operand ∧ operand.kind.isOperation := by
          intro child p hany
          cases hget : tree.get? child with
          | none => simp [hget] at hany
          | some operand =>
              rw [hget, Option.any_some, Bool.and_eq_true] at hany
              exact ⟨operand, rfl, hany.1⟩
        obtain ⟨left, hleft⟩ := ih l (hbelow l (Node.mem_children_of_child? hl))
          (tree.joinsLeft node l) (hjoined l (·.start == node.start))
        obtain ⟨right, hright⟩ := ih r (hbelow r (Node.mem_children_of_child? hr))
          (tree.joinsRight node r) (hjoined r (·.stop == node.stop))
        exact ⟨_, .join hget hkind hl hr hleft hright⟩

/-- In a source that can be read every operation has operands that belong to its operator. What it is
put together from is put together in one way, and of all ways to put the same chain together this is
the only prescribed one. -/
theorem grouped_of_parse {text : List Char} {fileName : Option String} {parsed : Parsed}
    (h : parse text fileName = .ok parsed) {id : NodeId} {node : Node}
    (hget : parsed.tree.get? id = some node) (hkind : node.kind.isOperation) :
    parsed.tree.Grouped node ∧ ∃ g, (∀ g', parsed.tree.Groups true id g' ↔ g' = g) ∧
      ∀ g' : Grouping, g'.chain = g.chain → (g'.Prescribed ↔ g' = g) := by
  obtain ⟨-, -, hread⟩ := readFrom_of_parse h
  obtain ⟨g, hg⟩ := hread.exists_groups true id fun _ => ⟨node, hget, hkind⟩
  have hprescribed := hg.prescribed hread.grouped
  refine ⟨hread.grouped hget, g, fun g' => ⟨fun hg' => hg'.unique hg, ?_⟩, fun g' hchain =>
    ⟨fun hg' => hg'.eq_of_chain hprescribed hchain, ?_⟩⟩
  · rintro rfl
    exact hg
  · rintro rfl
    exact hprescribed

/-- The operands of the last operator to be applied here are two more chains and one in
parentheses. -/
theorem grouped_of_parse_chain : ∃ parsed node,
    parse "a - b - (c + d) ** e ** f".toList none = .ok parsed ∧
      parsed.tree.get? 10 = some node ∧ node.kind.isOperation ∧ parsed.tree.Grouped node ∧
      ∃ g, (∀ g', parsed.tree.Groups true 10 g' ↔ g' = g) ∧
        ∀ g' : Grouping, g'.chain = g.chain → (g'.Prescribed ↔ g' = g) := by
  have hany : (parse "a - b - (c + d) ** e ** f".toList none).toOption.any fun parsed =>
      (parsed.tree.get? 10).any (·.kind.isOperation) := by
    decide +kernel
  obtain ⟨parsed, hparse, hnode⟩ := exists_parsed_of_any hany
  obtain ⟨node, hget, hkind⟩ := (Option.any_eq_true _ _).mp hnode
  exact ⟨parsed, node, hparse, hget, hkind, grouped_of_parse hparse hget hkind⟩

end FlowErasure
