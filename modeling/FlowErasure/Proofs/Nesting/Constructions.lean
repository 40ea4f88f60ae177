import FlowErasure.Proofs.Grammar.Giving
import FlowErasure.Proofs.Nesting.Statements
import FlowErasure.Proofs.Token.Ready

/-!
# Constructions inside each other

What `new` constructs and what comes after the construction are read at one level, and each may end
with a member access. So a source that goes on down in the first of the two has two member
expressions for each level it uses.
-/

namespace FlowErasure

namespace Tree

variable {tree final : Tree} {a b c : NodeId} {steps : List Step}

theorem Leads.of_shape {kind kind' : NodeKind} {slots slots' : List Slot} {spec : FieldSpec}
    {slot : Slot} (ha : tree.shape? a = some (kind, slots)) (hmem : (spec, slot) ∈ kind.schema.zip slots)
    (hb : b ∈ slot.children) (hb' : tree.shape? b = some (kind', slots'))
    (rest : tree.Leads b steps c) : tree.Leads a (⟨kind, spec.field, kind'⟩ :: steps) c := by
  obtain ⟨holder, hholder, heq⟩ := Option.map_eq_some_iff.mp ha
  obtain ⟨entered, hentered, heq'⟩ := Option.map_eq_some_iff.mp hb'
  cases heq
  cases heq'
  exact .cons hholder hmem hb hentered rest

theorem Leads.grows (h : tree.Leads a steps c) (hgrows : tree.Grows final) :
    final.Leads a steps c := by
  induction h with
  | nil id => exact .nil id
  | cons hget hmem hchild hentered _ ih =>
      exact .of_shape (hgrows _ _ (shape?_of_get? hget)) hmem hchild
        (hgrows _ _ (shape?_of_get? hentered)) ih

def NestsMembers (tree : Tree) (n : Nat) (id : NodeId) : Prop :=
  ∃ kind slots steps leaf, tree.shape? id = some (kind, slots) ∧ tree.Leads id steps leaf ∧
    2 * n ≤ (if kind = .memberExpression then 1 else 0) +
      steps.countP (Step.counts .memberExpression)

theorem NestsMembers.grows {n : Nat} {id : NodeId} (h : tree.NestsMembers n id)
    (hgrows : tree.Grows final) : final.NestsMembers n id := by
  obtain ⟨kind, slots, steps, leaf, hshape, hleads, hle⟩ := h
  exact ⟨kind, slots, steps, leaf, hgrows _ _ hshape, hleads.grows hgrows, hle⟩

/-- The first step of the way down, if it is not along a left spine. -/
theorem NestsMembers.enter {n : Nat} {kind : NodeKind} {slots : List Slot} {spec : FieldSpec}
    {slot : Slot} (h : tree.NestsMembers n b) (ha : tree.shape? a = some (kind, slots))
    (hmem : (spec, slot) ∈ kind.schema.zip slots) (hb : b ∈ slot.children)
    (hspine : kind.isLeftSpine spec.field = false) :
    ∃ steps leaf, tree.Leads a steps leaf ∧
      2 * n ≤ steps.countP (Step.counts .memberExpression) := by
  obtain ⟨kind', slots', steps, leaf, hshape, hleads, hle⟩ := h
  refine ⟨_, leaf, .of_shape ha hmem hb hshape hleads, ?_⟩
  rw [List.countP_cons]
  by_cases hkind : kind' = .memberExpression
  · simp [hkind, Step.counts, hspine] at hle ⊢
    omega
  · simp [hkind, Step.counts] at hle ⊢
    omega

/-- One construction more: a way down in brackets in what is constructed, and a member access after
the construction. -/
theorem NestsMembers.succ {n : Nat} {outer built inner object name property : NodeId}
    {arguments : Slot}
    (houter : tree.shape? outer = some (.memberExpression, [.node built, .node name]))
    (hbuilt : tree.shape? built = some (.newExpression, [.node inner, arguments]))
    (hinner : tree.shape? inner = some (.memberExpression, [.node object, .node property]))
    (h : tree.NestsMembers n property) : tree.NestsMembers (n + 1) outer := by
  have hproperty : (FieldSpec.one .property, Slot.node property) ∈
      NodeKind.memberExpression.schema.zip [.node object, .node property] := by
    simp [NodeKind.schema]
  have hcallee : (FieldSpec.one .callee, Slot.node inner) ∈
      NodeKind.newExpression.schema.zip [.node inner, arguments] := by
    simp [NodeKind.schema]
  have hobject : (FieldSpec.one .object, Slot.node built) ∈
      NodeKind.memberExpression.schema.zip [.node built, .node name] := by
    simp [NodeKind.schema]
  obtain ⟨steps, leaf, hleads, hle⟩ := h.enter hinner hproperty (List.mem_singleton_self _) rfl
  have hway := Leads.of_shape houter hobject (List.mem_singleton_self _) hbuilt
    (.of_shape hbuilt hcallee (List.mem_singleton_self _) hinner hleads)
  refine ⟨_, _, _, _, houter, hway, ?_⟩
  simp [Step.counts, NodeKind.isLeftSpine, FieldSpec.one]
  omega

end Tree

namespace Grammar

variable {c : Context} {s : State} {cs : List Char}

def State.Before (s : State) (cs : List Char) : Prop :=
  ∃ l : Lexer, l.Ready cs ∧ s.lexer = l.next

def Stops (cs : List Char) : Prop :=
  cs = [] ∨ ∃ rest, cs = ']' :: rest

def Lexes (cs : List Char) : Prop :=
  ∀ l : Lexer, l.Ready cs → l.next.fault = none

theorem lexes_bracket {b : Char} (hb : b ∈ ['[', ']', '(', ')']) : Lexes (b :: cs) := by
  intro l hready
  simp only [List.mem_cons, List.not_mem_nil, or_false] at hb
  obtain rfl | rfl | rfl | rfl := hb
  · exact (hready.bracket .openBracket (by simp)).2.fault
  · exact (hready.bracket .closeBracket (by simp)).2.fault
  · exact (hready.bracket .openParen (by simp)).2.fault
  · exact (hready.bracket .closeParen (by simp)).2.fault

theorem Stops.lexes (h : Stops cs) : Lexes cs := by
  obtain rfl | ⟨rest, rfl⟩ := h
  · exact fun l hready => hready.endOfFile.2.fault
  · exact lexes_bracket (by simp)

theorem Stops.token_of_ready {l : Lexer} (h : Stops cs) (hready : l.Ready cs) :
    l.next.token = .endOfFile ∨ l.next.token = .closeBracket := by
  obtain rfl | ⟨rest, rfl⟩ := h
  · exact .inl hready.endOfFile.1
  · exact .inr (hready.bracket .closeBracket (by simp)).1

theorem Stops.token (h : Stops cs) (hs : s.Before cs) :
    s.lexer.token = .endOfFile ∨ s.lexer.token = .closeBracket := by
  obtain ⟨l, hready, hl⟩ := hs
  rw [hl]
  exact h.token_of_ready hready

variable {inner : Nested} {n : Nat}

theorem gives_string {heritage : Parser NodeId} (ht : s.lexer.token = .string)
    (hready : s.lexer.Ready cs) (hcs : Lexes cs) :
    Gives (primary inner heritage) c s fun id s' => s'.Before cs ∧
      s'.tree.shape? id = some (.literal, []) := by
  simp only [primary, gives_bind, gives_steps]
  simp only [ht, literal, finishWith, gives_bind, gives_steps, gives_advance (hcs _ hready)]
  exact ⟨⟨s.lexer, hready, rfl⟩, Tree.shape?_add_self _ _⟩

theorem gives_arguments (hs : s.Before ('(' :: ')' :: cs)) (hcs : Lexes cs) :
    Gives (arguments inner) c s fun _ s' => s'.Before cs ∧ s'.tree = s.tree := by
  obtain ⟨l, hready, hl⟩ := hs
  obtain ⟨hopen, hready⟩ := hready.bracket .openParen (by simp)
  rw [← hl] at hopen hready
  obtain ⟨hclose, hready⟩ := hready.bracket .closeParen (by simp)
  simp only [arguments, gives_bind, gives_steps]
  refine (gives_expect hopen hready.fault).mpr ?_
  simp only [commaTerminated, collect, gives_map]
  refine gives_iterate_one ?_
  simp only [gives_bind, gives_steps, gives_ite, hclose, beq_self_eq_true, if_true, gives_pure,
    Option.map_none, true_and]
  refine (gives_expect hclose (hcs _ hready)).mpr ?_
  simp only [listFrom, gives_bind, gives_steps, gives_pure]
  exact ⟨⟨_, hready, rfl⟩, trivial⟩

/-- The text `new''[X]().new`, again with such a text for `X`, and with an empty string in the end. -/
def constructions : Nat → List Char
  | 0 => ['\x27', '\x27']
  | n + 1 => ['n', 'e', 'w', '\x27', '\x27', '['] ++ (constructions n ++
      [']', '(', ')', '.', 'n', 'e', 'w'])

def ReadsConstructions (n : Nat) (p : Parser NodeId) : Prop :=
  ∀ c s rest, Stops rest → s.Before (constructions n ++ rest) →
    Gives p c s fun id s' => s'.Before rest ∧ s'.tree.NestsMembers n id

theorem lexes_constructions (n : Nat) (cs : List Char) : Lexes (constructions n ++ cs) := by
  intro l hready
  cases n with
  | zero => exact hready.string.2.fault
  | succ n =>
    simp only [constructions, List.append_assoc, List.cons_append, List.nil_append] at hready
    exact (hready.new (.inr ⟨_, .inl rfl⟩)).2.fault

theorem token_of_constructions {tail : List Char} (hs : s.Before (constructions n ++ tail)) :
    s.lexer.token = .newKeyword ∨ s.lexer.token = .string := by
  obtain ⟨l, hready, hl⟩ := hs
  rw [hl]
  cases n with
  | zero => exact .inr hready.string.1
  | succ n =>
      simp only [constructions, List.append_assoc, List.cons_append, List.nil_append] at hready
      exact .inl (hready.new (.inr ⟨_, .inl rfl⟩)).1

theorem gives_expression (h : ReadsConstructions n inner.assignment) {tail : List Char} (htail : Stops tail)
    (hs : s.Before (constructions n ++ tail)) :
    Gives (expression inner) c s fun id s' => s'.Before tail ∧ s'.tree.NestsMembers n id := by
  simp only [expression, gives_bind, gives_steps]
  refine (h c s tail htail hs).mono fun id s' ⟨hs', hnests⟩ => ?_
  have hcomma : (s'.lexer.token == .comma) = false := by
    obtain hstop | hstop := htail.token hs'
    · exact hstop ▸ rfl
    · exact hstop ▸ rfl
  simp only [collect, gives_map]
  refine gives_iterate_one ?_
  simp only [accept, gives_bind, gives_steps, gives_ite, hcomma, if_false, gives_pure,
    Option.map_none, true_and, List.reverse_nil, List.isEmpty_nil, if_true, Bool.false_eq_true]
  exact ⟨hs', hnests⟩

/-- In what is constructed: a way down in brackets. A parenthesis ends it, for there are no calls. -/
theorem gives_bracketed (h : ReadsConstructions n inner.assignment) (start : Nat) (object : NodeId)
    (hs : s.Before ('[' :: (constructions n ++ ']' :: '(' :: cs))) :
    Gives (accessesAndCalls inner start false object) c s fun id s' => s'.Before ('(' :: cs) ∧
      ∃ property, s'.tree.shape? id = some (.memberExpression, [.node object, .node property]) ∧
        s'.tree.NestsMembers n property := by
  obtain ⟨l, hready, hl⟩ := hs
  obtain ⟨hopen, hready⟩ := hready.bracket .openBracket (by simp)
  rw [← hl] at hopen hready
  refine gives_iterate_two ?_
  simp only [gives_bind, gives_steps, hopen]
  refine (gives_advance (lexes_constructions _ _ _ hready)).mpr ?_
  simp only [allowingIn, gives_steps]
  refine (gives_expression h (.inr ⟨_, rfl⟩) ⟨_, hready, rfl⟩).mono ?_
  rintro property s₁ ⟨⟨l, hready, hl⟩, hnests⟩
  obtain ⟨hclose, hready⟩ := hready.bracket .closeBracket (by simp)
  rw [← hl] at hclose hready
  refine (gives_expect hclose (lexes_bracket (by simp) _ hready)).mpr ?_
  simp only [finishWith, gives_bind, gives_steps, gives_pure, Option.some.injEq,
    exists_eq_left']
  obtain ⟨hparen, -⟩ := hready.bracket .openParen (by simp)
  simp only [hparen, Bool.false_eq_true, if_false, gives_pure, true_and]
  refine ⟨⟨_, hready, rfl⟩, property, ?_, hnests.grows (Tree.grows_add _ _)⟩
  exact Tree.shape?_add_self _ _

/-- After a construction: a member access, which is the last. -/
theorem gives_dotted (start : Nat) (object : NodeId) (hcs : Stops cs)
    (hs : s.Before ('.' :: 'n' :: 'e' :: 'w' :: cs)) :
    Gives (accessesAndCalls inner start true object) c s fun id s' => s'.Before cs ∧
      s.tree.Grows s'.tree ∧
      ∃ name, s'.tree.shape? id = some (.memberExpression, [.node object, .node name]) := by
  obtain ⟨l, hready, hl⟩ := hs
  obtain ⟨hdot, hready⟩ := hready.dot
  rw [← hl] at hdot hready
  obtain ⟨hnew, hready⟩ := hready.new (by
    obtain rfl | ⟨rest, rfl⟩ := hcs
    · exact .inl rfl
    · exact .inr ⟨rest, .inr rfl⟩)
  refine gives_iterate_two ?_
  simp only [gives_bind, gives_steps, hdot]
  refine (gives_advance hready.fault).mpr ?_
  have hword : (!Token.newKeyword.isWord) = false := rfl
  simp only [identifierName, gives_bind, gives_steps, gives_ite, hnew, hword, Bool.false_eq_true,
    if_false]
  refine (gives_advance (hcs.lexes _ hready)).mpr ?_
  simp only [finish, finishWith, gives_bind, gives_steps, gives_pure, Option.some.injEq,
    exists_eq_left']
  have hstop : s.lexer.next.next.token = .endOfFile ∨ s.lexer.next.next.token = .closeBracket :=
    hcs.token_of_ready hready
  have hbefore : ∀ lastEnd tree, State.Before ⟨s.lexer.next.next, lastEnd, tree⟩ cs := fun _ _ =>
    ⟨_, hready, rfl⟩
  have hgrows : ∀ names node node',
      s.tree.Grows ((({ s.tree with names } : Tree).add node).2.add node').2 := fun names _ _ =>
    (s.tree.grows_names names).trans ((Tree.grows_add _ _).trans (Tree.grows_add _ _))
  obtain hstop | hstop := hstop
  · simp only [hstop, gives_pure, true_and]
    exact ⟨hbefore _ _, hgrows _ _ _, _, Tree.shape?_add_self _ _⟩
  · simp only [hstop, gives_pure, true_and]
    exact ⟨hbefore _ _, hgrows _ _ _, _, Tree.shape?_add_self _ _⟩

theorem readsConstructions_zero : ReadsConstructions 0 (leftHandSide inner) := by
  intro c s tail htail ⟨l, hready, hl⟩
  obtain ⟨hstring, hready⟩ := hready.string
  rw [← hl] at hstring hready
  simp only [leftHandSide, gives_bind, gives_steps]
  rw [leftHandSideWithin]
  simp only [gives_bind, gives_steps, hstring]
  refine (gives_string hstring hready htail.lexes).mono fun id s' ⟨hs', hshape⟩ => ?_
  have hnests : s'.tree.NestsMembers 0 id :=
    ⟨_, _, [], id, hshape, .nil id, Nat.zero_le _⟩
  refine gives_iterate_one ?_
  simp only [gives_bind, gives_steps]
  obtain hstop | hstop := htail.token hs'
  · simp only [hstop, gives_pure, true_and]
    exact ⟨hs', hnests⟩
  · simp only [hstop, gives_pure, true_and]
    exact ⟨hs', hnests⟩

theorem readsConstructions_succ (h : ReadsConstructions n inner.assignment) :
    ReadsConstructions (n + 1) (leftHandSide inner) := by
  intro c s tail htail ⟨l, hready, hl⟩
  simp only [constructions, List.append_assoc, List.cons_append, List.nil_append] at hready
  obtain ⟨hnew, hready⟩ := hready.new (.inr ⟨_, .inl rfl⟩)
  rw [← hl] at hnew hready
  obtain ⟨hstring, hready⟩ := hready.string
  simp only [leftHandSide, gives_bind, gives_steps]
  rw [leftHandSideWithin]
  simp only [gives_bind, gives_steps, hnew]
  simp only [newExpression, gives_bind, gives_steps]
  refine (gives_advance hready.fault).mpr ?_
  have hother : (Token.string == Token.newKeyword) = false := rfl
  simp only [gives_bind, gives_steps, gives_ite, hstring, hother, Bool.false_eq_true, if_false]
  refine (gives_string hstring hready (lexes_bracket (by simp))).mono ?_
  rintro object s₁ ⟨hs₁, -⟩
  refine (gives_bracketed h _ _ hs₁).mono ?_
  rintro callee s₂ ⟨hs₂, property, hcallee, hnests⟩
  have hparen : s₂.lexer.token = .openParen := by
    obtain ⟨l, hready, hl⟩ := hs₂
    exact hl ▸ (hready.bracket .openParen (by simp)).1
  simp only [hparen, beq_self_eq_true, if_true]
  have hdot : Lexes ('.' :: 'n' :: 'e' :: 'w' :: tail) := fun l hready => hready.dot.2.fault
  refine (gives_arguments hs₂ hdot).mono ?_
  rintro arguments s₃ ⟨hs₃, htree⟩
  simp only [finish, finishWith, gives_bind, gives_steps]
  refine (gives_dotted _ _ htail ?_).mono ?_
  · exact hs₃
  · rintro outer s₄ ⟨hs₄, hgrows, name, houter⟩
    have hbuilt := hgrows _ _ (Tree.shape?_add_self _ _)
    have hgrows : s₂.tree.Grows s₄.tree := by
      rw [← htree]
      exact (Tree.grows_add _ _).trans hgrows
    exact ⟨hs₄, .succ houter hbuilt (hgrows _ _ hcallee) (hnests.grows hgrows)⟩

theorem ReadsConstructions.binary (h : ReadsConstructions n (leftHandSide inner)) (precedence : Nat) :
    ReadsConstructions n (binary inner precedence) := by
  intro c s tail htail hs
  have hend : ∀ t : Token, t = .endOfFile ∨ t = .closeBracket →
      (t == .plusPlus || t == .minusMinus) = false ∧ t.precedence = 0 ∧
        (t == .inKeyword) = false ∧ (t == .greaterThan) = false := by
    rintro t (rfl | rfl)
    · decide
    · decide
  have hpostfix : Gives (postfixExpression inner) c s
      fun id s' => s'.Before tail ∧ s'.tree.NestsMembers n id := by
    simp only [postfixExpression, gives_bind, gives_steps]
    refine (h c s tail htail hs).mono fun id s' ⟨hs', hnests⟩ => ?_
    simp only [hend _ (htail.token hs'), Bool.false_and, Bool.false_eq_true, if_false, gives_pure]
    exact ⟨hs', hnests⟩
  have hunary : Gives (unary inner) c s
      fun id s' => s'.Before tail ∧ s'.tree.NestsMembers n id := by
    simp only [unary, gives_bind, gives_steps]
    obtain hfirst | hfirst := token_of_constructions hs
    · simp only [hfirst]
      exact hpostfix
    · simp only [hfirst]
      exact hpostfix
  simp only [Grammar.binary, gives_bind, gives_steps]
  refine hunary.mono fun id s' ⟨hs', hnests⟩ => ?_
  obtain ⟨-, hprecedence, hin, hgreater⟩ := hend _ (htail.token hs')
  refine gives_iterate_one ?_
  have hreread : s'.lexer.rereadGreater = s'.lexer := by
    simp [Lexer.rereadGreater, hgreater]
  simp only [rereadGreater, precedenceHere, gives_bind, gives_steps, hreread, hin, Bool.false_and,
    Bool.false_eq_true, if_false, gives_pure, hprecedence, decide_true, Bool.true_or, if_true,
    true_and]
  exact ⟨hs', hnests⟩

theorem gives_isIdentifier {tail : List Char} {Q : Bool → State → Prop}
    (hs : s.Before (constructions n ++ tail)) (h : Q false s) : Gives isIdentifier c s Q := by
  simp only [isIdentifier, gives_bind, gives_steps]
  obtain hfirst | hfirst := token_of_constructions hs
  · simp only [hfirst]
    exact gives_pure.mpr h
  · simp only [hfirst]
    exact gives_pure.mpr h

theorem gives_startsArrowFunction {tail : List Char} {inTail : Bool} {Q : Bool → State → Prop}
    (hs : s.Before (constructions n ++ tail)) (h : Q false s) :
    Gives (startsArrowFunction inTail) c s Q := by
  have hparameter : Gives isArrowParameter c s Q := by
    simp only [isArrowParameter, gives_bind]
    refine gives_isIdentifier hs ?_
    simpa only [Bool.false_eq_true, if_false, gives_pure] using h
  simp only [startsArrowFunction, gives_bind, gives_steps]
  obtain hfirst | hfirst := token_of_constructions hs
  · simp only [hfirst]
    exact hparameter
  · simp only [hfirst]
    exact hparameter

theorem ReadsConstructions.assignment (h : ReadsConstructions n (leftHandSide inner)) :
    ReadsConstructions n (assignment inner) := by
  intro c s tail htail hs
  have hend : ∀ t : Token, t = .endOfFile ∨ t = .closeBracket →
      (t == .question) = false ∧ t.isAssignment = false := by
    rintro t (rfl | rfl)
    · decide
    · decide
  have hyield : (s.lexer.token == .yieldKeyword) = false := by
    obtain hfirst | hfirst := token_of_constructions hs
    · exact hfirst ▸ rfl
    · exact hfirst ▸ rfl
  simp only [Grammar.assignment, arrowFunction?, gives_bind, gives_steps, hyield, Bool.false_and,
    Bool.false_eq_true, if_false]
  refine gives_startsArrowFunction hs ?_
  simp only [Bool.not_false, if_true, gives_pure]
  simp only [operation, conditional, gives_bind, gives_steps]
  refine (h.binary 0 _ s tail htail hs).mono fun id s' hread => ?_
  obtain ⟨hs', hnests⟩ := hread
  obtain ⟨hquestion, hassignment⟩ := hend _ (htail.token hs')
  simp only [hquestion, hassignment, Bool.not_false, if_true, gives_pure]
  exact ⟨hs', hnests⟩

theorem readsConstructions_within (n depth : Nat) :
    ReadsConstructions n (Nested.within (n + depth + 1)).assignment := by
  induction n with
  | zero => exact readsConstructions_zero.assignment
  | succ n ih =>
      have heq : n + 1 + depth = n + depth + 1 := by omega
      rw [heq]
      exact (readsConstructions_succ ih).assignment

theorem gives_endStatement {Q : Unit → State → Prop} (ht : s.lexer.token = .endOfFile) (h : Q () s) :
    Gives endStatement c s Q := by
  have hend : ([.semicolon, .closeBrace, .endOfFile] : List Token).contains .endOfFile = true := rfl
  have hsemicolon : (Token.endOfFile == Token.semicolon) = false := rfl
  simpa only [endStatement, canEndStatement, gives_bind, gives_steps, gives_ite, ht, hend,
    hsemicolon, Bool.false_eq_true, if_false, if_true, gives_pure] using h

theorem gives_statement (h : ReadsConstructions n inner.assignment) (hs : s.Before (constructions n)) :
    Gives (statement inner) c s fun id s' => s'.Before [] ∧
      ∃ expression, s'.tree.shape? id = some (.expressionStatement, [.node expression]) ∧
        s'.tree.NestsMembers n expression := by
  have hs : s.Before (constructions n ++ []) := by simpa using hs
  have hlabeled : Gives (expressionOrLabeled inner) c s fun id s' => s'.Before [] ∧
      ∃ expression, s'.tree.shape? id = some (.expressionStatement, [.node expression]) ∧
        s'.tree.NestsMembers n expression := by
    simp only [expressionOrLabeled, gives_bind, gives_steps]
    refine gives_isIdentifier hs ?_
    simp only [Bool.false_eq_true, if_false, gives_bind, gives_pure]
    refine (gives_expression h (.inl rfl) hs).mono fun expression s' ⟨hs', hnests⟩ => ?_
    obtain ⟨l, hready, hl⟩ := hs'
    refine gives_endStatement (hl ▸ hready.endOfFile.1) ?_
    simp only [finish, finishWith, gives_bind, gives_steps]
    exact ⟨⟨l, hready, hl⟩, expression, Tree.shape?_add_self _ _,
      hnests.grows (Tree.grows_add _ _)⟩
  simp only [statement, otherStatement, startsVariables, startsFunction, startsErasedDeclaration,
    gives_bind, gives_steps]
  obtain hfirst | hfirst := token_of_constructions hs
  · simp only [hfirst, gives_bind, gives_steps, gives_pure, Bool.false_eq_true, if_false]
    exact hlabeled
  · simp only [hfirst, gives_bind, gives_steps, gives_pure, Bool.false_eq_true, if_false]
    exact hlabeled

theorem gives_program (hn : n + 2 ≤ nestingLimit) :
    Gives program c (.ofText (constructions n)) fun root s => ∃ steps leaf, s.tree.Leads root steps leaf ∧
      2 * n ≤ steps.countP (Step.counts .memberExpression) := by
  have hready := Lexer.ready_ofText (constructions n)
  obtain ⟨depth, hdepth⟩ := Nat.exists_eq_add_of_le hn
  have hstatement : rules.statement = statement (.within (n + depth + 1)) := by
    have hlimit : nestingLimit = (n + depth + 1) + 1 := by omega
    unfold rules
    rw [hlimit]
    rfl
  have hshebang : (Lexer.ofText (constructions n)).skipShebang = .ofText (constructions n) := by
    cases n with
    | zero => rfl
    | succ n => rfl
  have hlexes : (Lexer.ofText (constructions n)).next.fault = none := by
    have h := lexes_constructions n [] (Lexer.ofText (constructions n))
    rw [List.append_nil] at h
    exact h hready
  simp only [program, gives_bind, gives_steps, State.ofText, hshebang]
  refine (gives_advance hlexes).mpr ?_
  simp only [collect, gives_map]
  refine gives_iterate_two ?_
  have hbefore : State.Before ⟨(Lexer.ofText (constructions n)).next, 0, .empty⟩ (constructions n ++ []) :=
    ⟨_, by simpa using hready, rfl⟩
  have hfirst : ((Lexer.ofText (constructions n)).next.token == .endOfFile) = false := by
    obtain hfirst | hfirst := token_of_constructions hbefore
    · exact hfirst ▸ rfl
    · exact hfirst ▸ rfl
  simp only [gives_bind, gives_steps, gives_ite, hfirst, Bool.false_eq_true, if_false, gives_map,
    hstatement]
  refine (gives_statement (readsConstructions_within n depth) ⟨_, hready, rfl⟩).mono ?_
  rintro id s₁ ⟨⟨l, hready, hl⟩, expression, hshape, hnests⟩
  simp only [gives_pure, Option.map_some, Option.some.injEq, exists_eq_left']
  have hend : s₁.lexer.token = .endOfFile := hl ▸ hready.endOfFile.1
  simp only [hend, beq_self_eq_true, if_true, Option.map_none, true_and]
  have hexpression : (FieldSpec.one .expression, Slot.node expression) ∈
      NodeKind.expressionStatement.schema.zip [.node expression] := by
    simp [NodeKind.schema]
  have hbody : (FieldSpec.block .body, Slot.list ⟨[some id], 0, s₁.lexer.size⟩) ∈
      NodeKind.program.schema.zip [.list ⟨[some id], 0, s₁.lexer.size⟩] := by
    simp [NodeKind.schema]
  have hgrows := s₁.tree.grows_add
    { kind := .program, start := 0, stop := s₁.lexer.size
      slots := [.list ⟨[some id], 0, s₁.lexer.size⟩] }
  obtain ⟨steps, leaf, hleads, hle⟩ :=
    hnests.enter hshape hexpression (List.mem_singleton_self _) rfl
  refine ⟨_, leaf, .of_shape (Tree.shape?_add_self s₁.tree _) hbody (by simp) (hgrows _ _ hshape)
    (hleads.grows hgrows), ?_⟩
  rw [List.countP_cons]
  omega

/-- A source with two member expressions for each level it uses. -/
theorem exists_constructions (hn : n + 2 ≤ nestingLimit) :
    ∃ parsed, parse (constructions n) none = .ok parsed ∧
    ∃ steps leaf, parsed.tree.Leads parsed.root steps leaf ∧
      2 * n ≤ steps.countP (Step.counts .memberExpression) := by
  obtain ⟨root, s, hrun, steps, leaf, hleads, hle⟩ := gives_program (c := {}) hn
  refine ⟨⟨constructions n, none, s.tree, root⟩, ?_, steps, leaf, hleads, hle⟩
  simp only [parse, State.readProgram, hrun]

end Grammar

end FlowErasure
