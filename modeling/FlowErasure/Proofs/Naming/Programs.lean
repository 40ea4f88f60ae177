import FlowErasure.Compile
import FlowErasure.Proofs.Erasure.Removals
import FlowErasure.Proofs.Grammar.TokenRanges
import FlowErasure.Proofs.Grammar.WellFormed
import FlowErasure.Proofs.Naming.Statements
import FlowErasure.Proofs.Syntax.Descendants
import FlowErasure.Proofs.Syntax.Rising

/-!
# Names in programs

In the tree of a source every identifier has the name of the word it starts with, and erasing types
leaves both. All names are in one pool, so identifiers with the same name have the same place in it,
whether they were read before or after an attempt that failed, and whether they are written alike or
not.
-/

namespace FlowErasure

open Text (Between)

variable {text : List Char} {tokens : List (Nat × Nat)}

/-! ## Tokens -/

def Lexer.TokenSpells (text : List Char) (tokens : List (Nat × Nat)) (start : Nat)
    (value : String) : Prop :=
  ∃ stop cs, (start, stop) ∈ tokens ∧ Between text start cs stop ∧ startsWord cs ∧
    Spells cs value.toList

theorem Lexer.Tokenizes.tokenSpells (h : Tokenizes text tokens) {start : Nat} {value : String}
    (hmem : start ∈ tokens.map Prod.fst) (hword : WordAt text start value) :
    TokenSpells text tokens start value := by
  obtain ⟨⟨_, stop⟩, htoken, rfl⟩ := List.mem_map.mp hmem
  have hlt := (h.chain.of_mem htoken).2.1
  obtain ⟨l, hconsumes, -⟩ := h
  have hplaced := (placed_ofText text).skipShebang
  obtain ⟨l, hl, hwords, rfl, rfl⟩ := hconsumes.exists_of_mem hplaced.next.1
    (readsWords_next hplaced.size) htoken
  obtain ⟨cs, hbetween, hspells⟩ := hwords.spells hl hword
  exact ⟨_, cs, htoken, hbetween, hword.startsWord hbetween hlt, hspells⟩

/-- There is one token at an offset, and it spells one value. -/
theorem Lexer.TokenSpells.unique {start : Nat} {value value' : String}
    (htokens : Tokenizes text tokens) (h : TokenSpells text tokens start value)
    (h' : TokenSpells text tokens start value') : value = value' := by
  obtain ⟨stop, cs, hmem, hbetween, -, hspells⟩ := h
  obtain ⟨stop', cs', hmem', hbetween', -, hspells'⟩ := h'
  have hchain := htokens.chain
  have hlt : ∀ {stop}, (start, stop) ∈ tokens → start < stop := by
    intro stop hmem
    exact (hchain.of_mem hmem).2.1
  have hnot : ∀ {stop stop'}, (start, stop) ∈ tokens → (start, stop') ∈ tokens → ¬stop < stop' := by
    intro stop stop' hmem hmem' hless
    exact absurd (hchain.apart hmem hmem' hless) (Nat.not_le_of_lt (hlt hmem))
  obtain rfl : stop = stop' :=
    Nat.le_antisymm (Nat.le_of_not_lt (hnot hmem' hmem)) (Nat.le_of_not_lt (hnot hmem hmem'))
  obtain rfl := hbetween.unique hbetween'
  exact String.toList_inj.mp (hspells.unique hspells')

/-! ## Reading -/

namespace Grammar

theorem endsNamed_program (text : List Char) :
    EndsNamed text [] (program {} (.ofText text)) := by
  have hrules : rules.Naming text := naming_within nestingLimit
  have hplaced := (Lexer.placed_ofText text).skipShebang
  have hstatements : NamesWith text [] (do
      let statements ← collect do
        if ← isAt .endOfFile then return none
        some <$> rules.statement
      let stop := (← get).lexer.size
      addNode
        { kind := .program, start := 0, stop, slots := [.list ⟨statements.map some, 0, stop⟩] }) :=
    Naming.names []
  have hfirst : EndsNamed text [] (advance {}
      { State.ofText text with lexer := (Lexer.ofText text).skipShebang }) :=
    endsNamed_advance hplaced (.empty text)
  exact hfirst.bind fun _ => hstatements

end Grammar

theorem named_of_parse {fileName : Option String} {parsed : Parsed}
    (h : parse text fileName = .ok parsed) : parsed.tree.Named text [] := by
  have hends := Grammar.endsNamed_program text
  simp only [parse, Grammar.State.readProgram] at h
  cases hrun : Grammar.program {} (.ofText text) with
  | ok root s =>
      simp only [hrun] at h hends
      obtain rfl := Except.ok.inj h
      exact hends.2
  | error failure s => simp [hrun] at h

/-! ## Erasing -/

theorem names_erase (tree : Tree) (rules : Rules) (root : NodeId) :
    (tree.erase rules root).1.names = tree.names := by
  refine Erasure.kept_erase (motive := fun out => out.names = tree.names) (fun _ => True) ?_
    (fun _ _ _ => trivial) rules trivial rfl
  intro id _ out path result hout _ hok
  rcases Path.delete_cases out path with hfails | ⟨id, index, node, spec, value, -, -, -, -, heq⟩
  · exact absurd hok (hfails result)
  · obtain rfl := Except.ok.inj (heq.symm.trans hok)
    exact (Tree.names_replaceSlot ..).trans hout

/-! ## Identifiers -/

structure Tree.HasIdentifier (tree : Tree) (root id : NodeId) (node : Node) : Prop where
  reaches : tree.Reaches root id
  get : tree.get? id = some node
  kind : node.kind = .identifier

namespace Tree.HasIdentifier

variable {parsed : Parsed} {tree : Tree} {id : NodeId} {node : Node}

/-- An identifier that is left was there before, and is called the same. -/
theorem exists_before (h : tree.HasIdentifier parsed.root id node)
    (htree : tree ∈ [parsed.tree, parsed.erase.1.tree]) :
    tree.names = parsed.tree.names ∧ ∃ old, parsed.tree.get? id = some old ∧ old.Kin node := by
  rcases List.mem_pair.mp htree with rfl | rfl
  · exact ⟨rfl, node, h.get, .refl node⟩
  · obtain ⟨old, hold, hkin⟩ := (Erasure.trims_erase _ _ _).kin.symm.get? h.get
    exact ⟨names_erase _ _ _, old, hold, hkin.symm⟩

theorem holds (h : tree.HasIdentifier parsed.root id node)
    (htree : tree ∈ [parsed.tree, parsed.erase.1.tree]) (hnamed : parsed.tree.Named text []) :
    tree.names.Holds text node.start node.name := by
  obtain ⟨hnames, old, hold, hkin⟩ := h.exists_before htree
  rw [hnames, ← hkin.start, ← hkin.name]
  exact hnamed.node id old hold (hkin.kind.trans h.kind)

end Tree.HasIdentifier

/-- In the tree of a source, before and after erasing, each identifier has the name that the token
it starts with spells. Two identifiers have one place in the pool exactly if their tokens spell the
same. -/
theorem identifiers_named_of_parse {fileName : Option String} {parsed : Parsed}
    (h : parse text fileName = .ok parsed) :
    ∃ tokens, Lexer.Tokenizes text tokens ∧
      ∀ tree ∈ [parsed.tree, parsed.erase.1.tree], ∀ id node,
        tree.HasIdentifier parsed.root id node →
          (∀ value, Lexer.TokenSpells text tokens node.start value ↔ value = tree.name id) ∧
          ∀ tree' ∈ [parsed.tree, parsed.erase.1.tree], ∀ id' node',
            tree'.HasIdentifier parsed.root id' node' →
              ∀ value value', Lexer.TokenSpells text tokens node.start value →
                Lexer.TokenSpells text tokens node'.start value' →
                  (node.name = node'.name ↔ value = value') := by
  obtain ⟨-, -, hread⟩ := readFrom_of_parse h
  obtain ⟨tokens, htokens, hfaces⟩ := hread.tokens
  have hnamed := named_of_parse h
  have hspells : ∀ tree ∈ [parsed.tree, parsed.erase.1.tree], ∀ id node,
      tree.HasIdentifier parsed.root id node →
        Lexer.TokenSpells text tokens node.start (tree.names.resolve node.name) := by
    intro tree htree id node hnode
    obtain ⟨-, old, hold, hkin⟩ := hnode.exists_before htree
    have hid : id ≠ parsed.root := by
      rintro rfl
      obtain ⟨program, hprogram, hkind, -⟩ := hread.program
      obtain rfl := Option.some.inj (hprogram.symm.trans hold)
      exact absurd (hkind.symm.trans (hkin.kind.trans hnode.kind)) (by decide)
    have hstart := (hfaces id _ hid (Tree.face?_of_get? hold)).1
    exact htokens.tokenSpells (hkin.start ▸ hstart) (hnode.holds htree hnamed).word
  refine ⟨tokens, htokens, fun tree htree id node hnode => ⟨fun value => ?_, ?_⟩⟩
  · have hname : tree.name id = tree.names.resolve node.name := by simp [Tree.name, hnode.get]
    rw [hname]
    constructor
    · intro hvalue
      exact hvalue.unique htokens (hspells tree htree id node hnode)
    · rintro rfl
      exact hspells tree htree id node hnode
  · intro tree' htree' id' node' hnode' value value' hvalue hvalue'
    have hholds := hnode.holds htree hnamed
    have hholds' := hnode'.holds htree' hnamed
    have hnames := (hnode.exists_before htree).1
    have hnames' := (hnode'.exists_before htree').1
    rw [hvalue.unique htokens (hspells tree htree id node hnode),
      hvalue'.unique htokens (hspells tree' htree' id' node' hnode'), hnames, hnames']
    exact (hnamed.distinct.resolve_eq_iff (hnames ▸ hholds.lt) (hnames' ▸ hholds'.lt)).symm

/-- A variable whose name is written with an escape, and the same name without one, which is left
when the type between them is erased. -/
theorem identifiers_named_of_parse_escape : ∃ parsed tokens id id' node node',
    parse "var \\u0061b: T = ab".toList none = .ok parsed ∧
      Lexer.Tokenizes "var \\u0061b: T = ab".toList tokens ∧
      parsed.tree.HasIdentifier parsed.root id node ∧
      parsed.erase.1.tree.HasIdentifier parsed.root id' node' ∧ node.start ≠ node'.start ∧
      Lexer.TokenSpells "var \\u0061b: T = ab".toList tokens node.start "ab" ∧
      Lexer.TokenSpells "var \\u0061b: T = ab".toList tokens node'.start "ab" ∧
      node.name = node'.name := by
  have hany : (parse "var \\u0061b: T = ab".toList none).toOption.any fun parsed =>
      (parsed.tree.descendants parsed.root).any fun id =>
        (parsed.erase.1.tree.descendants parsed.root).any fun id' =>
          (parsed.tree.get? id).any fun node => (parsed.erase.1.tree.get? id').any fun node' =>
            node.kind == .identifier && node'.kind == .identifier && node.start != node'.start &&
              parsed.tree.name id == "ab" && parsed.erase.1.tree.name id' == "ab" := by
    decide +kernel
  obtain ⟨parsed, hparse, hany⟩ := exists_parsed_of_any hany
  have hacyclic : parsed.tree.IsAcyclicBelow parsed.root :=
    (wellFormed_of_parse hparse).isTree.acyclic
  have hrest := hacyclic.of_subset
    (Erasure.trims_erase parsed.tree .standard parsed.root).children_subset
  obtain ⟨id, hid, hany⟩ := List.any_eq_true.mp hany
  obtain ⟨id', hid', hany⟩ := List.any_eq_true.mp hany
  obtain ⟨node, hget, hany⟩ := (Option.any_eq_true _ _).mp hany
  obtain ⟨node', hget', hany⟩ := (Option.any_eq_true _ _).mp hany
  simp only [Bool.and_eq_true, beq_iff_eq, bne_iff_ne] at hany
  obtain ⟨⟨⟨⟨hkind, hkind'⟩, hne⟩, hname⟩, hname'⟩ := hany
  have hnode : parsed.tree.HasIdentifier parsed.root id node :=
    ⟨((Tree.mem_descendants hacyclic .refl).mp hid).1, hget, hkind⟩
  have hnode' : parsed.erase.1.tree.HasIdentifier parsed.root id' node' :=
    ⟨((Tree.mem_descendants hrest .refl).mp hid').1, hget', hkind'⟩
  obtain ⟨tokens, htokens, hall⟩ := identifiers_named_of_parse hparse
  obtain ⟨hspells, hsame⟩ := hall _ (List.mem_pair.mpr (.inl rfl)) id node hnode
  obtain ⟨hspelled, -⟩ := hall _ (List.mem_pair.mpr (.inr rfl)) id' node' hnode'
  have hvalue := (hspells "ab").mpr hname.symm
  have hvalue' := (hspelled "ab").mpr hname'.symm
  exact ⟨parsed, tokens, id, id', node, node', hparse, htokens, hnode, hnode', hne, hvalue, hvalue',
    (hsame _ (List.mem_pair.mpr (.inr rfl)) id' node' hnode' _ _ hvalue hvalue').mpr rfl⟩

end FlowErasure
