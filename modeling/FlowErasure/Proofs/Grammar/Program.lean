import FlowErasure.Proofs.Frame.Statements
import FlowErasure.Proofs.Grammar.Statements

/-!
# Programs

All rules of the grammar together, and what is known of the table they leave: every node is as it
should be, and what the program holds is a tree.
-/

namespace FlowErasure

open Grammar

/-- A table that was read from a text: all nodes but the program reach from token to token, the
program is the last node and reaches over the whole text, each node in it knows its parent, what
is not in it has become something else, the colons of conditionals are their own, and operators have
the operands that belong to them. -/
structure Tree.ReadFrom (text : List Char) (tree : Tree) (root : NodeId) : Prop where
  size : tree.size = root + 1
  shape : ∀ {id node}, tree.get? id = some node → NodeShape text tree id node
  sound : ∀ {id node}, tree.get? id = some node → id ≠ root → NodeSound text tree id node
  program : ∃ node, tree.get? root = some node ∧ node.kind = .program ∧ node.start = 0 ∧
    node.stop = Text.byteLength text
  parent : ∀ {id p}, tree.parentId? id = some p → id < p
  owned : tree.Owned 0 root
  tokens : ∃ tokens, Lexer.Tokenizes text tokens ∧ ∀ id face, id ≠ root →
    tree.face? id = some face → face.start ∈ tokens.map Prod.fst ∧ face.stop ∈ tokens.map Prod.snd
  covered : ∀ id < tree.size, tree.Covers [root] id
  colon : ∀ {id node}, tree.get? id = some node → tree.KeepsColon text NodeKind.HandsOn node
  grouped : ∀ {id node}, tree.get? id = some node → tree.Grouped node

namespace Grammar

variable {text : List Char} {c : Context} {s : State}

theorem run_failTooDeep {Q : NodeId → State → Prop} : Run failTooDeep c s Q ↔ True := by
  simp only [failTooDeep, run_steps]

theorem failTooDeep_rule {v : Bool} : Rule text v failTooDeep :=
  fun _ _ _ => run_failTooDeep.mpr trivial

/-- The rules are right at every depth. -/
theorem within_sound (text : List Char) (depth : Nat) : (Nested.within depth).Sound text := by
  induction depth with
  | zero =>
      exact ⟨fun _ _ _ => run_failTooDeep.mpr trivial, failTooDeep_rule, fun _ => failTooDeep_rule,
        failTooDeep_rule, fun _ _ _ _ => run_failTooDeep.mpr trivial, fun _ => failTooDeep_rule,
        failTooDeep_rule, failTooDeep_rule, failTooDeep_rule, failTooDeep_rule,
        fun _ => failTooDeep_rule, fun _ _ _ => run_failTooDeep.mpr trivial,
        fun _ _ _ _ => run_failTooDeep.mpr trivial, fun base => keeps_within base 0⟩
  | succ depth ih =>
      exact ⟨statement_rule ih, assignment_rule ih, binary_rule ih, unary_rule ih,
        construction_rule ih, bindingTarget_rule ih, classMember_rule ih, unionType_rule ih,
        prefixType_rule ih, primaryType_rule ih, typeMember_rule ih, fun _ _ => assignment_ends ih,
        fun _ _ _ => binary_operation ih, fun base => keeps_within base (depth + 1)⟩

theorem sound_empty (text : List Char) : Tree.empty.Sound text where
  node h := by simp [Tree.get?, Tree.empty] at h
  parent h := by simp [Tree.parentId?, Tree.get?, Tree.empty] at h
  colon h := by simp [Tree.get?, Tree.empty] at h
  grouped h := by simp [Tree.get?, Tree.empty] at h

theorem run_firstToken (text : List Char) :
    Run (do modify (fun s => { s with lexer := s.lexer.skipShebang }); advance) c (.ofText text)
      fun _ s => Good text s ∧ s.tree = .empty ∧ s.lexer = (Lexer.ofText text).skipShebang.next := by
  rw [run_bind]
  rintro _ _ ⟨⟩
  unfold advance
  rw [run_bind]
  rintro _ _ ⟨⟩
  rw [run_raiseFault]
  intro _
  have hplaced := (Lexer.placed_ofText text).skipShebang
  exact ⟨good_next hplaced (sound_empty text), rfl, rfl⟩

def programNode (stop : Nat) (statements : List NodeId) : Node where
  kind := .program
  start := 0
  stop := stop
  slots := [.list ⟨statements.map some, 0, stop⟩]

theorem programNode_fills {statements : List NodeId} {tree : Tree} {stop : Nat}
    (hs : tree.Sound text) (hlaid : tree.Laid stop 0 statements)
    (hstop : stop = Text.byteLength text) :
    tree.Fills text .program 0 stop (programNode stop statements).slots := by
  refine .ofOrdinary hs rfl rfl (by simpa [programNode] using hlaid) ?_ (List.forall_mem_nil _)
    (List.forall_mem_nil _) fun _ _ _ _ => ⟨.inl rfl, .inl hstop⟩
  have hwithin : tree.Within 0 stop (.list ⟨statements.map some, 0, stop⟩) := by
    refine ⟨Nat.le_refl _, Nat.zero_le _, Nat.le_refl _, fun id hid => ?_⟩
    obtain ⟨face, hface, hge, -, hle⟩ := hlaid.face? (by simpa using hid)
    exact ⟨face, hface, hge, hle⟩
  simpa [programNode] using hwithin

/-- The statements of a text go under the node of the program. -/
theorem readFrom_add {s₁ s₂ : State} {statements : List NodeId} (h : Builds text s₁ statements s₂)
    (htree : s₁.tree = .empty) (hlexer : s₁.lexer = (Lexer.ofText text).skipShebang.next)
    (hstop : s₂.lexer.token = .endOfFile) :
    (s₂.tree.add (programNode (Text.byteLength text) statements)).2.ReadFrom text
      s₂.tree.size := by
  set node := programNode (Text.byteLength text) statements
  have hsize : s₁.tree.size = 0 := by rw [htree]; rfl
  have hchildren : (Tree.fitted node).children = statements :=
    (Tree.children_fitted (Nat.le_refl _)).trans (by simp [node, programNode])
  have hlaid : s₂.tree.Laid (Text.byteLength text) 0 statements :=
    h.laid.mono (Nat.zero_le _) h.good.stop.boundary.le
  have hfills := programNode_fills h.good.tree hlaid rfl
  have hshape : NodeShape text s₂.tree s₂.tree.size (Tree.fitted node) :=
    hfills.nodeShape node ⟨rfl, rfl⟩ ⟨text, [], by simp, rfl, Text.not_divides_nil_right text⟩
  exact {
    size := Tree.size_add _ _
    shape := fun {id other} hget => by
      by_cases hid : id = s₂.tree.size
      · subst hid
        rw [Tree.get?_add_self] at hget
        obtain rfl := Option.some.inj hget
        exact Tree.shape_add_self hshape
      · exact (h.good.tree.node_add hid hget).toNodeShape
    sound := fun hget hid => h.good.tree.node_add hid hget
    program := ⟨_, Tree.get?_add_self _ _, rfl, rfl, rfl⟩
    parent := h.good.tree.parent_add rfl
    owned := Tree.owned_add h.good.tree hshape (by rw [hchildren]) hlaid
      (fun id hid => (h.owned id hid).mono (Nat.zero_le _)) (Nat.zero_le _)
    tokens := by
      obtain ⟨tokens, htokens⟩ := h.tokens
      refine ⟨tokens, ⟨s₂.lexer, hlexer ▸ htokens.lexer, hstop⟩, fun id face hid hface => ?_⟩
      have hlt := Tree.lt_size_of_lt_size_add (Tree.lt_size_of_face? hface) hid
      rw [Tree.face?_add node hlt] at hface
      exact htokens.nodes id face (hsize ▸ Nat.zero_le id) hface
    covered := fun id hlt => by
      by_cases hid : id = s₂.tree.size
      · exact .of_mem (by simp [hid])
      · have hlt := Tree.lt_size_of_lt_size_add hlt hid
        exact Tree.covers_add h.good.tree (fun _ h => hchildren.symm ▸ h) (fun _ => h.lt_size) hlt
          (h.covered id (hsize ▸ Nat.zero_le id) hlt)
    colon := fun hget =>
      h.good.tree.colon_add hshape (hfills.colon (Tree.fitted node) rfl rfl) hget
    grouped := fun hget => h.good.tree.grouped_add hshape (.of_not rfl) hget }

/-- The whole text is read into a table. -/
theorem run_program : Run program c (.ofText text) fun root s => s.tree.ReadFrom text root := by
  have hfirst := run_firstToken (c := c) text
  simp only [run_bind] at hfirst
  simp only [program, run_bind, run_steps, run_addNode]
  refine hfirst.mono fun _ s₀ h₀ => h₀.mono ?_
  rintro _ s₁ ⟨hgood, htree, hlexer⟩
  refine (run_collectUntil (v := false) (fun id => [id]) (fun s => s.lexer.token = .endOfFile)
    hgood fun s hs => ?_).mono fun statements s₂ h => ?_
  · simp only [run_bind, run_steps, run_ite, run_map, run_pure]
    split
    · rename_i hend
      exact ⟨.refl hs, by simpa using hend⟩
    · exact ((within_sound text nestingLimit).statement c s hs).mono fun _ _ h => h.1
  · rw [List.flatMap_singleton'] at h
    rw [h.1.good.lexer.size]
    exact readFrom_add h.1.toBuilds htree hlexer h.2

end Grammar

namespace Tree.ReadFrom

variable {text : List Char} {tree : Tree} {root : NodeId}

theorem lt_of_holds (h : tree.ReadFrom text root) {a b : NodeId} (hab : tree.Holds a b) : b < a := by
  obtain ⟨node, hget, hb⟩ := exists_get?_of_holds hab
  exact (h.shape hget).below b hb

theorem ne_root_of_holds (h : tree.ReadFrom text root) {a b : NodeId} (hab : tree.Holds a b) :
    b ≠ root := by
  have hb := h.lt_of_holds hab
  have ha : a < root + 1 := h.size ▸ lt_size_of_holds hab
  exact Nat.ne_of_lt (Nat.lt_of_lt_of_le hb (Nat.le_of_lt_succ ha))

theorem start_le (h : tree.ReadFrom text root) {id : NodeId} {node : Node}
    (hget : tree.get? id = some node) : node.start ≤ node.stop := by
  by_cases hid : id = root
  · subst hid
    obtain ⟨program, hprogram, -, hstart, -⟩ := h.program
    rw [Option.some.inj (hget.symm.trans hprogram), hstart]
    exact Nat.zero_le _
  · exact Nat.le_of_lt (h.sound hget hid).lt

theorem fits (h : tree.ReadFrom text root) : tree.Fits := fun _ _ hget => (h.shape hget).fits

theorem parentId? (h : tree.ReadFrom text root) {a b : NodeId} (ha : tree.Reaches root a)
    (hab : tree.Holds a b) : tree.parentId? b = some a :=
  h.owned.parentId? ha (fun _ hget => (h.shape hget).fits) hab

theorem isTreeBelow (h : tree.ReadFrom text root) : tree.IsTreeBelow root where
  acyclic := isAcyclicBelow_of_lt root fun _ _ hab => h.lt_of_holds hab
  nodup a _ := by
    cases hget : tree.get? a with
    | none => simp [children, hget]
    | some node =>
        rw [children_of_get? hget]
        obtain ⟨ids, hperm, hlaid⟩ := (h.shape hget).laid
        exact hperm.nodup_iff.mp hlaid.nodup
  parent a b c ha hb hac hbc := by
    exact Option.some.inj ((h.parentId? ha hac).symm.trans (h.parentId? hb hbc))

end Tree.ReadFrom

/-- What the parser answers is a table that was read from the text. -/
theorem readFrom_of_parse {text : List Char} {fileName : Option String} {parsed : Parsed}
    (h : parse text fileName = .ok parsed) :
    parsed.text = text ∧ parsed.fileName = fileName ∧ parsed.tree.ReadFrom text parsed.root := by
  simp only [parse, State.readProgram] at h
  cases hrun : program {} (.ofText text) with
  | ok root s =>
      simp only [hrun] at h
      obtain rfl := Except.ok.inj h
      exact ⟨rfl, rfl, run_program root s hrun⟩
  | error failure s =>
      simp [hrun] at h

/-- If the answer of the parser has been computed, it can be named. -/
theorem exists_parsed_of_any {text : List Char} {fileName : Option String} {p : Parsed → Bool}
    (h : (parse text fileName).toOption.any p = true) :
    ∃ parsed, parse text fileName = .ok parsed ∧ p parsed = true := by
  cases hparse : parse text fileName with
  | error e =>
      rw [hparse] at h
      exact absurd h Bool.false_ne_true
  | ok parsed =>
      rw [hparse] at h
      exact ⟨parsed, rfl, h⟩

end FlowErasure
