import FlowErasure.Grammar.Functions
import FlowErasure.Proofs.Frame.Parsers
import FlowErasure.Proofs.Syntax.Pool
import FlowErasure.Proofs.Token.Words

/-!
# Names that parsers take

A parser takes the name of an identifier from the current token before it consumes it, and finishes
the node later, when other names have been added to the pool. `Tree.Named` says that every
identifier in a table has the name of the word it starts with, and so have some names that are noted
for nodes to come. `Naming text p` says that `p` keeps to this, whether it answers or fails: an
attempt that fails leaves its names in the pool.
-/

namespace FlowErasure

variable {text : List Char}

/-! ## Tables -/

structure Names.Holds (text : List Char) (names : Names) (start : Nat) (atom : Atom) : Prop where
  lt : atom < names.size
  word : Lexer.WordAt text start (names.resolve atom)

theorem Names.Holds.grow {names names' : Names} {start : Nat} {atom : Atom}
    (h : names.Holds text start atom) (hgrows : names.Grows names') :
    names'.Holds text start atom where
  lt := Nat.lt_of_lt_of_le h.lt hgrows.size
  word := by
    rw [hgrows.resolve atom h.lt]
    exact h.word

/-- The identifiers of the table have the names of the words they start with, and so will those that
are noted. -/
structure Tree.Named (text : List Char) (noted : List (Nat × Atom)) (tree : Tree) : Prop where
  distinct : tree.names.Distinct
  noted : ∀ start atom, (start, atom) ∈ noted → tree.names.Holds text start atom
  node : ∀ id node, tree.get? id = some node → node.kind = .identifier →
    tree.names.Holds text node.start node.name

namespace Tree.Named

variable {noted : List (Nat × Atom)} {tree : Tree} {start : Nat} {atom : Atom}

theorem empty (text : List Char) : Tree.empty.Named text [] where
  distinct := Names.distinct_common
  noted := by simp
  node id node hget := by simp [Tree.get?, Tree.empty] at hget

theorem add (h : tree.Named text noted) {node : Node}
    (hnode : node.kind = .identifier → tree.names.Holds text node.start node.name) :
    (tree.add node).2.Named text noted := by
  have hnames := names_add tree node
  refine ⟨hnames ▸ h.distinct, hnames ▸ h.noted, fun id other hget hkind => ?_⟩
  rw [hnames]
  rw [get?_add] at hget
  split at hget
  · obtain rfl := Option.some.inj hget
    exact hnode hkind
  · obtain ⟨old, hold, rfl⟩ := Option.map_eq_some_iff.mp hget
    exact h.node id old hold hkind

theorem modify (h : tree.Named text noted) {id : NodeId} {f : Node → Node}
    (hf : ∀ node, tree.get? id = some node → (f node).kind = .identifier →
      tree.names.Holds text (f node).start (f node).name) :
    (tree.modify id f).Named text noted := by
  refine ⟨h.distinct, h.noted, fun i other hget hkind => ?_⟩
  rw [get?_modify] at hget
  split at hget
  · rename_i hi
    obtain ⟨old, hold, rfl⟩ := Option.map_eq_some_iff.mp hget
    exact hf old (hi ▸ hold) hkind
  · exact h.node i other hget hkind

theorem truncate (h : tree.Named text noted) (size : Nat) :
    (tree.truncate size).Named text noted := by
  refine ⟨h.distinct, h.noted, fun id node hget hkind => ?_⟩
  rw [get?_truncate] at hget
  split at hget
  · exact h.node id node hget hkind
  · cases hget

theorem intern (h : tree.Named text noted) (s : String) :
    { tree with names := (tree.names.intern s).2 }.Named text noted where
  distinct := h.distinct.intern s
  noted start atom hmem := (h.noted start atom hmem).grow (.intern tree.names s)
  node id node hget hkind := (h.node id node hget hkind).grow (.intern tree.names s)

theorem note (h : tree.Named text noted) (hholds : tree.names.Holds text start atom) :
    tree.Named text ((start, atom) :: noted) where
  distinct := h.distinct
  noted other name hmem := by
    rcases List.mem_cons.mp hmem with heq | hmem
    · cases heq
      exact hholds
    · exact h.noted other name hmem
  node := h.node

theorem forget (h : tree.Named text ((start, atom) :: noted)) : tree.Named text noted :=
  ⟨h.distinct, fun start atom hmem => h.noted start atom (List.mem_cons_of_mem _ hmem), h.node⟩

end Tree.Named

/-! ## Kinds -/

@[reducible] def NodeKind.isIdentifier : NodeKind → Bool
  | .identifier => true
  | _ => false

/-- The answer is no, as far as can be told from how it is written. -/
class Denied (b : Bool) : Prop where
  eq : b = false

instance : Denied false := ⟨rfl⟩

instance (b : Prop) [Decidable b] (kind kind' : NodeKind) [Denied kind.isIdentifier]
    [Denied kind'.isIdentifier] : Denied (NodeKind.isIdentifier (if b then kind else kind')) := by
  split <;> infer_instance

namespace Grammar

variable {α β γ : Type} {noted : List (Nat × Atom)} {c : Context} {s s' : State}

/-! ## Runs -/

structure Attentive (text : List Char) (l : Lexer) : Prop where
  settled : l.Settled text
  words : l.ReadsWords text
  fault : l.fault = none

/-- How a run may end. After an error only the table is used on. -/
def EndsNamed (text : List Char) (noted : List (Nat × Atom)) :
    EStateM.Result Failure State α → Prop
  | .ok _ s => Attentive text s.lexer ∧ s.tree.Named text noted
  | .error _ s => s.tree.Named text noted

theorem EndsNamed.forget {r : EStateM.Result Failure State α} {start : Nat} {atom : Atom}
    (h : EndsNamed text ((start, atom) :: noted) r) : EndsNamed text noted r := by
  cases r with
  | ok a s => exact ⟨h.1, h.2.forget⟩
  | error e s => exact Tree.Named.forget h

def NamesWith (text : List Char) (noted : List (Nat × Atom)) (p : Parser α) : Prop :=
  ∀ c s, Attentive text s.lexer → s.tree.Named text noted → EndsNamed text noted (p c s)

class Naming (text : List Char) (p : Parser α) : Prop where
  names : ∀ noted, NamesWith text noted p

theorem EndsNamed.bind {p : Parser α} {f : α → Parser β} (h : EndsNamed text noted (p c s))
    (hf : ∀ a, NamesWith text noted (f a)) : EndsNamed text noted ((p >>= f) c s) := by
  cases hrun : p c s with
  | ok a s' =>
      rw [hrun] at h
      rw [bind_ok hrun]
      exact hf a c s' h.1 h.2
  | error e s' =>
      rw [hrun] at h
      rw [bind_error hrun]
      exact h

theorem NamesWith.bind {p : Parser α} {f : α → Parser β} (hp : NamesWith text noted p)
    (hf : ∀ a, NamesWith text noted (f a)) : NamesWith text noted (p >>= f) :=
  fun c s hs hnamed => (hp c s hs hnamed).bind hf

theorem NamesWith.step {p : Parser α} {f : α → Parser β} [hp : Naming text p]
    (hf : ∀ a, NamesWith text noted (f a)) : NamesWith text noted (p >>= f) :=
  (hp.names noted).bind hf

namespace Naming

theorem bind {p : Parser α} {f : α → Parser β} (hp : Naming text p)
    (hf : ∀ a, Naming text (f a)) : Naming text (p >>= f) :=
  ⟨fun noted => (hp.names noted).bind fun a => (hf a).names noted⟩

theorem step {p : Parser α} {f : α → Parser β} [hp : Naming text p]
    (hf : ∀ a, Naming text (f a)) : Naming text (p >>= f) :=
  hp.bind hf

theorem ite {b : Prop} [Decidable b] {p p' : Parser α} (hp : Naming text p)
    (hp' : Naming text p') : Naming text (if b then p else p') :=
  iteInduction (fun _ => hp) fun _ => hp'

/-- A step that is taken on one of two ways to what comes next. -/
theorem when {b : Prop} [Decidable b] {p : Parser Unit} {f : Unit → Parser β} [Naming text p]
    (hf : ∀ a, Naming text (f a)) : Naming text (if b then p >>= f else f ()) :=
  .ite (.step hf) (hf ())

theorem either {b : Prop} [Decidable b] {p p' : Parser α} {f : α → Parser β} [Naming text p]
    [Naming text p'] (hf : ∀ a, Naming text (f a)) :
    Naming text (if b then p >>= f else p' >>= f) :=
  .ite (.step hf) (.step hf)

end Naming

instance naming_bind (p : Parser α) (f : α → Parser β) [hp : Naming text p]
    [hf : ∀ a, Naming text (f a)] : Naming text (p >>= f) :=
  hp.bind hf

instance (priority := low) naming_of_looks (p : Parser α) [hp : Looks p] : Naming text p where
  names noted c s hs hnamed := by
    obtain ⟨a, h⟩ := hp.ok c s
    rw [h]
    exact ⟨hs, hnamed⟩

instance naming_map (p : Parser α) (g : α → β) [hp : Naming text p] : Naming text (g <$> p) :=
  hp.bind fun a => naming_of_looks (pure (g a))

instance naming_ite (b : Prop) [Decidable b] (p p' : Parser α) [Naming text p]
    [Naming text p'] : Naming text (if b then p else p') :=
  .ite inferInstance inferInstance

/-! ### Failing -/

instance naming_failAt (start length : Nat) (message : Message) :
    Naming text (failAt start length message : Parser α) :=
  ⟨fun _ _ _ _ hnamed => hnamed⟩

instance naming_failAtTokenWith (message : Message) (arguments : List String) :
    Naming text (failAtTokenWith message arguments : Parser α) :=
  ⟨fun _ _ _ _ hnamed => hnamed⟩

instance naming_failAtToken (message : Message) :
    Naming text (failAtToken message : Parser α) :=
  naming_failAtTokenWith message []

instance naming_failExpecting (t : Token) : Naming text (failExpecting t : Parser α) :=
  naming_failAtTokenWith .tokenExpected [t.description]

instance naming_failUnexpected : Naming text (failUnexpected : Parser α) := by
  unfold failUnexpected; infer_instance

/-! ### Steps over tokens -/

/-- An error of the lexer ends the run, so it is only without one that the token is used. -/
theorem endsNamed_raiseFault (hsettled : s.lexer.Settled text) (hwords : s.lexer.ReadsWords text)
    (hnamed : s.tree.Named text noted) : EndsNamed text noted (raiseFault c s) := by
  rcases raiseFault_cases c s with ⟨hnone, hrun⟩ | ⟨fault, -, hrun⟩
  · rw [hrun]
    exact ⟨⟨hsettled, hwords, hnone⟩, hnamed⟩
  · rw [hrun]
    exact hnamed

theorem endsNamed_advance (hplaced : s.lexer.Placed text) (hnamed : s.tree.Named text noted) :
    EndsNamed text noted (advance c s) :=
  endsNamed_raiseFault (s := { s with lastEnd := s.lexer.pos, lexer := s.lexer.next })
    hplaced.next.1 (Lexer.readsWords_next hplaced.size) hnamed

instance naming_advance : Naming text advance :=
  ⟨fun _ _ _ hs hnamed => endsNamed_advance hs.settled.placed hnamed⟩

instance naming_rereadSlash : Naming text rereadSlash :=
  ⟨fun _ _ s hs hnamed => endsNamed_raiseFault (s := { s with lexer := s.lexer.rereadSlash })
    hs.settled.rereadSlash.1 hs.words.rereadSlash hnamed⟩

instance naming_rereadBrace : Naming text rereadBrace :=
  ⟨fun _ _ s hs hnamed => endsNamed_raiseFault (s := { s with lexer := s.lexer.rereadBrace })
    hs.settled.rereadBrace.1 hs.words.rereadBrace hnamed⟩

instance naming_rereadGreater : Naming text rereadGreater where
  names noted c s hs hnamed := by
    have hfault : s.lexer.rereadGreater.fault = none := by
      rw [← hs.fault]
      unfold Lexer.rereadGreater
      split <;> rfl
    exact ⟨⟨hs.settled.rereadGreater.1, hs.words.rereadGreater, hfault⟩, hnamed⟩

instance naming_expect (t : Token) : Naming text (expect t) := by
  unfold expect; infer_instance

instance naming_accept (t : Token) : Naming text (accept t) := by
  unfold accept; infer_instance

instance naming_endStatement : Naming text endStatement := by
  unfold endStatement; infer_instance

/-! ### Nodes -/

instance naming_addNode (node : Node) [hkind : Denied node.kind.isIdentifier] :
    Naming text (addNode node) where
  names noted c s hs hnamed := by
    refine ⟨hs, hnamed.add fun hnode => ?_⟩
    have hdenied := hkind.eq
    rw [hnode] at hdenied
    cases hdenied

instance naming_finishWith (kind : NodeKind) (start : Nat) (slots : List Slot)
    (details : Details) [Denied kind.isIdentifier] :
    Naming text (finishWith kind start slots details) := by
  unfold finishWith; infer_instance

instance naming_finish (kind : NodeKind) (start : Nat) (slots : List Slot)
    [Denied kind.isIdentifier] : Naming text (finish kind start slots) := by
  unfold finish; infer_instance

theorem naming_updateNode {id : NodeId} {f : Node → Node}
    (hf : ∀ node, (f node).kind = node.kind ∧ (f node).start = node.start ∧
      (f node).name = node.name) : Naming text (updateNode id f) := by
  refine ⟨fun _ _ s hs hnamed => ⟨hs, hnamed.modify fun node hget hkind => ?_⟩⟩
  obtain ⟨hsame, hstart, hname⟩ := hf node
  rw [hstart, hname]
  exact hnamed.node id node hget (hsame ▸ hkind)

instance naming_tokenAtom : Naming text tokenAtom :=
  ⟨fun _ _ _ hs hnamed => ⟨hs, hnamed.intern _⟩⟩

/-! ### Words -/

/-- A word is noted, and the node that is finished has its name. -/
theorem namesWith_finishWith {start : Nat} {slots : List Slot} {name : Atom}
    (hmem : (start, name) ∈ noted) :
    NamesWith text noted (finishWith .identifier start slots { name }) :=
  .step fun _ _ _ hs hnamed => ⟨hs, hnamed.add fun _ => hnamed.noted start name hmem⟩

/-- The current token is a word, whose name is noted from here on. -/
theorem endsNamed_tokenAtom_bind {rest : Atom → Parser α} (hs : Attentive text s.lexer)
    (hnamed : s.tree.Named text noted) (hword : s.lexer.token.isWord)
    (hrest : ∀ name, NamesWith text ((s.lexer.start, name) :: noted) (rest name)) :
    EndsNamed text noted ((tokenAtom >>= rest) c s) := by
  have hholds : (s.tree.names.intern s.lexer.value).2.Holds text s.lexer.start
      (s.tree.names.intern s.lexer.value).1 := by
    refine ⟨Names.lt_size_intern _ _, ?_⟩
    rw [Names.resolve_intern]
    exact hs.words.wordAt hs.settled hword hs.fault
  have hafter := (hnamed.intern s.lexer.value).note hholds
  have hrun := hrest _ c
    { s with tree := { s.tree with names := (s.tree.names.intern s.lexer.value).2 } } hs hafter
  exact hrun.forget

instance naming_identifierName : Naming text identifierName where
  names noted c s hs hnamed := by
    have htoken : token c s = .ok s.lexer.token s := rfl
    rw [identifierName, bind_ok htoken]
    cases hword : s.lexer.token.isWord with
    | true =>
        have hrest : ∀ name, NamesWith text ((s.lexer.start, name) :: noted) (do
            advance
            finishWith .identifier s.lexer.start [] { name }) :=
          fun name => .step fun _ => namesWith_finishWith (List.mem_cons_self ..)
        exact endsNamed_tokenAtom_bind hs hnamed hword hrest
    | false => exact hnamed

/-- What can be a name is a word. -/
theorem isIdentifier_answers (c : Context) (s : State) :
    ∃ b, isIdentifier c s = .ok b s ∧ (b = true → s.lexer.token.isWord) := by
  obtain ⟨b, hrun⟩ := Looks.ok (p := isIdentifier) c s
  refine ⟨b, hrun, fun htrue => ?_⟩
  have hcontext : (read : Parser Context) c s = .ok c s := rfl
  have htoken : token c s = .ok s.lexer.token s := rfl
  rw [isIdentifier, bind_ok hcontext, bind_ok htoken] at hrun
  generalize s.lexer.token = t at hrun ⊢
  split at hrun
  · rfl
  · rfl
  · have hname : Token.isName _ = true := (EStateM.Result.ok.inj hrun).1.trans htrue
    simp only [Token.isName, Token.isWord, Bool.or_eq_true] at hname ⊢
    tauto

theorem naming_introduced {message : Message} {rest : Nat → Atom → Parser α}
    (hrest : ∀ noted start name, NamesWith text ((start, name) :: noted) (rest start name)) :
    Naming text (do
      let start ← tokenStart
      if !(← isIdentifier) then failAtToken message
      let name ← tokenAtom
      rest start name) := by
  refine ⟨fun noted c s hs hnamed => ?_⟩
  have hstart : tokenStart c s = .ok s.lexer.start s := rfl
  obtain ⟨b, hrun, hword⟩ := isIdentifier_answers c s
  rw [bind_ok hstart, bind_ok hrun]
  cases b with
  | true => exact endsNamed_tokenAtom_bind hs hnamed (hword rfl) fun name => hrest _ _ name
  | false => exact hnamed

instance naming_identifier : Naming text identifier := by
  unfold identifier; infer_instance

instance naming_literal : Naming text literal := by
  unfold literal; infer_instance

instance naming_stringLiteral : Naming text stringLiteral := by
  unfold stringLiteral; infer_instance

/-! ## Surroundings, attempts and loops -/

theorem Naming.withReader {p : Parser α} {change : Context → Context} (hp : Naming text p) :
    Naming text (withReader change p) :=
  ⟨fun noted c s => hp.names noted (change c) s⟩

instance naming_withReader (change : Context → Context) (p : Parser α) [hp : Naming text p] :
    Naming text (withReader change p) :=
  hp.withReader

/-- The names that a failed attempt has met stay, and no node has changed. -/
instance naming_attempt (p : Parser α) [hp : Naming text p] : Naming text (attempt p) where
  names noted c s hs hnamed := by
    have hpart := hp.names noted c s hs hnamed
    cases hrun : p c s with
    | ok a s' =>
        rw [hrun] at hpart
        rw [attempt_ok hrun]
        exact hpart
    | error e s' =>
        rw [hrun] at hpart
        rw [attempt_error hrun]
        exact ⟨hs, Tree.Named.truncate hpart s.tree.size⟩

/-- The names that are noted are the same all along. -/
def naming (text : List Char) (noted : List (Nat × Atom)) : Logic Prop where
  Holds _ p _ := NamesWith text noted p
  pure _ _ := Naming.names noted
  bind hp hf := hp.bind hf
  mono hp _ _ := hp
  get _ := Naming.names noted
  stuck _ _ := Naming.names noted

theorem Naming.iterate {step : α → Parser (Option α)} (h : ∀ a, Naming text (step a)) (a : α) :
    Naming text (iterate step a) where
  names noted := (naming text noted).iterate (I := fun _ => True) (E := fun _ => True)
    (fun a => (h a).names noted) a

theorem Naming.collect {item : Parser (Option α)} (h : Naming text item) :
    Naming text (collect item) where
  names noted := (naming text noted).collect (I := fun _ => True) (E := fun _ => True)
    fun _ => h.names noted

instance naming_iterate (step : α → Parser (Option α)) (a : α) [h : ∀ a, Naming text (step a)] :
    Naming text (iterate step a) :=
  .iterate h a

instance naming_collect (item : Parser (Option α)) [h : Naming text item] :
    Naming text (collect item) :=
  .collect h

instance naming_commaTerminated (close : Token) (item : Parser α) [h : Naming text item] :
    Naming text (commaTerminated close item) where
  names noted := (naming text noted).commaTerminated (I := fun _ => True) (J := fun _ => True)
    (fun _ => h.names noted) (fun _ => Naming.names noted) fun _ => Naming.names noted

instance naming_commaSeparated (item : Parser α) [h : Naming text item] :
    Naming text (commaSeparated item) where
  names noted := (naming text noted).commaSeparated (I := fun _ => True) (J := fun _ => True)
    (fun _ => h.names noted) fun _ => Naming.names noted

instance naming_commaDelimited (close : Token) (item : Parser α) [h : Naming text item] :
    Naming text (commaDelimited close item) where
  names noted := (naming text noted).commaDelimited (I := fun _ => True) (J := fun _ => True)
    (fun _ => h.names noted) fun _ => Naming.names noted

theorem Naming.mapM {g : γ → Parser α} (h : ∀ item, Naming text (g item)) (items : List γ) :
    Naming text (items.mapM g) where
  names noted := (naming text noted).mapM (I := fun _ _ => True)
    (fun item _ _ _ => (h item).names noted) [] []

end Grammar

end FlowErasure
