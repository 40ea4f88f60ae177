import FlowErasure.Proofs.Grammar.Program

/-!
# Ranges and tokens

Every node reaches from the start of a token to the end of one, over the nodes below it, and these
come one after the other. The program alone reaches over the whole source, with what comes before the
first token and after the last.
-/

namespace FlowErasure

namespace Lexer

variable {text : List Char} {tokens : List (Nat × Nat)} {first l : Lexer}

theorem Consumes.chain (h : first.Consumes tokens l) (hfirst : first.Settled text) :
    Chain text l.start first.start tokens ∧ first.start ≤ l.start := by
  induction h with
  | refl => exact ⟨trivial, Nat.le_refl _⟩
  | rereadSlash h ih =>
      rw [(h.settled hfirst).rereadSlash.2]
      exact ih
  | rereadBrace h ih =>
      rw [(h.settled hfirst).rereadBrace.2]
      exact ih
  | rereadGreater h ih =>
      rw [(h.settled hfirst).rereadGreater.2]
      exact ih
  | @next tokens l h ht ih =>
      have hl := h.settled hfirst
      have hnext := hl.placed.next.2
      have hlt := hl.lt ht
      have htoken : Chain text l.next.start l.start [(l.start, l.pos)] :=
        ⟨Nat.le_refl _, hlt, hnext, ⟨_, hl.start, hl.clear⟩, hl.placed.seam, trivial⟩
      exact ⟨ih.1.append htoken (Nat.le_refl _) ih.2 (by omega), by omega⟩

theorem Tokenizes.chain (h : Tokenizes text tokens) : Chain text (Text.byteLength text) 0 tokens := by
  obtain ⟨l, hconsumes, -⟩ := h
  have hfirst := (placed_ofText text).skipShebang.next.1
  have hl := hconsumes.settled hfirst
  exact (hconsumes.chain hfirst).1.mono (Nat.zero_le _) hl.start.boundary.le

end Lexer

theorem NodeKind.exists_lists_of_admits {slots : List Slot}
    (hlength : slots.length = 2) (h : NodeKind.templateLiteral.admits slots) :
    ∃ quasis expressions, slots = [.list quasis, .list expressions] := by
  obtain ⟨a, b, rfl⟩ := List.length_eq_two.mp hlength
  cases a <;> cases b <;> first | exact ⟨_, _, rfl⟩ | cases h

structure Node.FromTokens (text : List Char) (tokens : List (Nat × Nat)) (node : Node) : Prop where
  lt : node.start < node.stop
  start : node.start ∈ tokens.map Prod.fst
  stop : node.stop ∈ tokens.map Prod.snd
  boundaries : Text.Boundary text node.start ∧ Text.Boundary text node.stop

namespace Tree

def LiesIn (tree : Tree) (lo hi : Nat) (id : NodeId) : Prop :=
  ∃ node, tree.get? id = some node ∧ lo ≤ node.start ∧ node.stop ≤ hi

def Before (tree : Tree) (a b : NodeId) : Prop :=
  ∃ first second, tree.get? a = some first ∧ tree.get? b = some second ∧ first.stop ≤ second.start

/-- What is in a node lies in its range, in the order of the fields. Only in a template the pieces of
text and the expressions take turns, from a piece of text to a piece of text. -/
structure Nests (tree : Tree) (node : Node) : Prop where
  inside : ∀ c ∈ node.children, tree.LiesIn node.start node.stop c
  inOrder : node.kind ≠ .templateLiteral → node.children.Pairwise tree.Before
  inTurns : node.kind = .templateLiteral → ∃ quasis expressions,
    node.slots = [.list quasis, .list expressions] ∧
      (Slot.list quasis).children.length = (Slot.list expressions).children.length + 1 ∧
        (turns (Slot.list quasis).children (Slot.list expressions).children).Pairwise tree.Before
  lists : ∀ items, .list items ∈ node.slots → node.start ≤ items.start ∧ items.stop ≤ node.stop ∧
    ∀ c ∈ (Slot.list items).children, tree.LiesIn items.start items.stop c

structure Ranged (text : List Char) (tokens : List (Nat × Nat)) (tree : Tree) (root : NodeId) : Prop
    where
  tokenizes : Lexer.Tokenizes text tokens
  program : ∃ program, tree.get? root = some program ∧ program.start = 0 ∧
    program.stop = Text.byteLength text
  node : ∀ id node, tree.Reaches root id → tree.get? id = some node →
    (id ≠ root → node.FromTokens text tokens) ∧ tree.Nests node

variable {text : List Char} {tree : Tree} {root id : NodeId} {node : Node}

theorem Laid.liesIn {lo hi : Nat} {ids : List NodeId} (h : tree.Laid hi lo ids) (hid : id ∈ ids) :
    tree.LiesIn lo hi id := by
  obtain ⟨face, hface, hge, -, hle⟩ := h.face? hid
  obtain ⟨node, hget, rfl⟩ := get?_of_face? hface
  exact ⟨node, hget, hge, hle⟩

theorem Laid.pairwise {lo hi : Nat} {ids : List NodeId} (h : tree.Laid hi lo ids) :
    ids.Pairwise tree.Before := by
  induction ids generalizing lo with
  | nil => exact .nil
  | cons first ids ih =>
      obtain ⟨face, hface, -, -, -, hrest⟩ := h
      obtain ⟨node, hget, rfl⟩ := get?_of_face? hface
      refine List.pairwise_cons.mpr ⟨fun other hother => ?_, ih hrest⟩
      obtain ⟨second, hsecond, hge, -⟩ := hrest.liesIn hother
      exact ⟨node, second, hget, hsecond, hge⟩

theorem nests_of_shape (h : NodeShape text tree id node) : tree.Nests node where
  inside c hc :=
    h.reading.liesIn ((NodeKind.reading_perm (Nat.le_of_eq h.fits)).mem_iff.mpr hc)
  inOrder hkind := by
    have hreading := h.reading.pairwise
    rwa [Node.reading, NodeKind.reading_of_ne hkind] at hreading
  inTurns hkind := by
    obtain ⟨quasis, expressions, hslots⟩ := NodeKind.exists_lists_of_admits
      (hkind ▸ h.fits) (hkind ▸ h.admitted)
    have hreading := h.reading.pairwise
    have hturns := h.turns hkind
    rw [hslots] at hturns
    rw [Node.reading, NodeKind.reading, if_pos hkind, hslots] at hreading
    exact ⟨quasis, expressions, hslots, hturns, hreading⟩
  lists items hitems := by
    obtain ⟨hlo, -, hhi, hwithin⟩ := h.lists _ hitems
    refine ⟨hlo, hhi, fun c hc => ?_⟩
    obtain ⟨face, hface, hge, hle⟩ := hwithin c hc
    obtain ⟨child, hget, rfl⟩ := get?_of_face? hface
    exact ⟨child, hget, hge, hle⟩

end Tree

/-- The ranges of every source that can be read fit together and end where tokens do. -/
theorem exists_ranged_of_parse {text : List Char} {fileName : Option String} {parsed : Parsed}
    (h : parse text fileName = .ok parsed) :
    ∃ tokens, parsed.tree.Ranged text tokens parsed.root := by
  obtain ⟨-, -, hread⟩ := readFrom_of_parse h
  obtain ⟨tokens, htokens, hfaces⟩ := hread.tokens
  obtain ⟨program, hget, -, hstart, hstop⟩ := hread.program
  refine ⟨tokens, htokens, ⟨program, hget, hstart, hstop⟩, fun id node _ hnode => ⟨fun hid => ?_, ?_⟩⟩
  · have hsound := hread.sound hnode hid
    obtain ⟨hfirst, hlast⟩ := hfaces id _ hid (Tree.face?_of_get? hnode)
    exact ⟨hsound.lt, hfirst, hlast, hsound.start.boundary, hsound.stop.boundary⟩
  · exact Tree.nests_of_shape (hread.shape hnode)

theorem exists_ranged_template : ∃ parsed tokens,
    parse "var a: T = `b${c}d`".toList none = .ok parsed ∧
      parsed.tree.Ranged "var a: T = `b${c}d`".toList tokens parsed.root := by
  have hsome : (parse "var a: T = `b${c}d`".toList none).toOption.isSome := by decide +kernel
  cases hparse : parse "var a: T = `b${c}d`".toList none with
  | error e =>
      rw [hparse] at hsome
      exact absurd hsome Bool.false_ne_true
  | ok parsed =>
      obtain ⟨tokens, hranged⟩ := exists_ranged_of_parse hparse
      exact ⟨parsed, tokens, rfl, hranged⟩

end FlowErasure
