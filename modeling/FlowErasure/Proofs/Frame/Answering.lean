import FlowErasure.Proofs.Frame.Expressions

/-!
# What parsers answer, seen in the end

Nodes that have been read stay in the table, and a failed attempt drops what it has appended itself
only. So what an answer is can be said of the table in the end. `AnswersIn view final c p P` says that
whatever `p` answers in the context `c`, on a way that ends with `final`, has the property `P`; a
`view` picks what must not change of a node on the way. It is proved from the end of a parser to its
start, which is why what the parts answer stands as a premise in `P`.
-/

namespace FlowErasure

variable {γ : Type}

/-- What is seen of a node does not depend on which node holds it. -/
class Intrinsic (view : Node → γ) : Prop where
  held : ∀ (node : Node) parent, view { node with parent } = view node

namespace Tree

variable {view : Node → γ} {tree tree' final : Tree} {id : NodeId} {x : γ}

def Shows (tree : Tree) (view : Node → γ) (id : NodeId) (x : γ) : Prop :=
  (tree.get? id).map view = some x

def GrowsIn (view : Node → γ) (tree final : Tree) : Prop :=
  ∀ id x, tree.Shows view id x → final.Shows view id x

theorem shows_of_get? {node : Node} (h : tree.get? id = some node) : tree.Shows view id (view node) := by
  rw [Shows, h]
  rfl

namespace GrowsIn

theorem refl (view : Node → γ) (tree : Tree) : GrowsIn view tree tree :=
  fun _ _ h => h

theorem of_shows (h : GrowsIn view tree' final)
    (hshows : ∀ id x, tree.Shows view id x → tree'.Shows view id x) : GrowsIn view tree final :=
  fun id x hid => h id x (hshows id x hid)

theorem of_get? (h : GrowsIn view tree' final)
    (hget : ∀ id < tree.size, tree'.get? id = tree.get? id) : GrowsIn view tree final := by
  apply h.of_shows
  intro id x hid
  obtain ⟨node, hnode, -⟩ := Option.map_eq_some_iff.mp hid
  rw [Shows, hget id (lt_size_of_get? hnode)]
  exact hid

theorem of_add [hview : Intrinsic view] {node : Node} (h : GrowsIn view (tree.add node).2 final) :
    GrowsIn view tree final := by
  apply h.of_shows
  intro id x hid
  obtain ⟨old, hold, hx⟩ := Option.map_eq_some_iff.mp hid
  have hne : id ≠ tree.size := Nat.ne_of_lt (lt_size_of_get? hold)
  rw [Shows, get?_add, if_neg hne, hold, ← hx]
  exact congrArg some (hview.held old _)

theorem of_modify {f : Node → Node} {i : NodeId} (hf : ∀ node, view (f node) = view node)
    (h : GrowsIn view (tree.modify i f) final) : GrowsIn view tree final := by
  apply h.of_shows
  intro id x hid
  obtain ⟨old, hold, hx⟩ := Option.map_eq_some_iff.mp hid
  rw [Shows, get?_modify, hold, ← hx]
  split
  · exact congrArg some (hf old)
  · rfl

end GrowsIn

theorem shows_add_self (tree : Tree) (node : Node) :
    (tree.add node).2.Shows view tree.size (view (fitted node)) :=
  shows_of_get? (get?_add_self tree node)

end Tree

namespace Grammar

variable {α β : Type} {view : Node → γ} {final : Tree} {c : Context}

/-- What the parser answers in the context `c`, on a way that ends with `final`, has the property. -/
def AnswersIn (view : Node → γ) (final : Tree) (c : Context) (p : Parser α) (P : α → Prop) : Prop :=
  ∀ s a s', p c s = .ok a s' → Tree.GrowsIn view s'.tree final →
    Tree.GrowsIn view s.tree final ∧ P a

/-- A proof goes from the end of a parser to its start, so what is known before it is a premise. -/
def answering (view : Node → γ) (final : Tree) (c : Context) : Logic Prop where
  Holds φ p ψ := AnswersIn view final c p fun a => φ → ψ a
  pure _ _ s a s' hrun hgrows := by
    cases hrun
    exact ⟨hgrows, id⟩
  bind hp hf s b s' hrun hgrows := by
    obtain ⟨a, s₁, hfirst, hrest⟩ := of_bind_ok hrun
    obtain ⟨hgrows, hb⟩ := hf a s₁ b s' hrest hgrows
    obtain ⟨hgrows, ha⟩ := hp s a s₁ hfirst hgrows
    exact ⟨hgrows, fun hφ => hb (ha hφ)⟩
  mono hp hφ hψ s a s' hrun hgrows := by
    obtain ⟨hgrows, ha⟩ := hp s a s' hrun hgrows
    exact ⟨hgrows, fun hφ' => hψ a (ha (hφ hφ'))⟩
  get _ s a s' hrun hgrows := by
    cases hrun
    exact ⟨hgrows, id⟩
  stuck {α} _ _ s a s' hrun _ := by
    obtain ⟨e, s₁, herror⟩ := Fails.error (p := (failUnexpected : Parser α)) c s
    rw [herror] at hrun
    cases hrun

namespace AnswersIn

variable {p p' : Parser α} {f : α → Parser β} {P P' : α → Prop} {Q : β → Prop}

theorem mono (h : AnswersIn view final c p P) (himp : ∀ a, P a → P' a) :
    AnswersIn view final c p P' := by
  intro s a s' hrun hgrows
  obtain ⟨hgrows, ha⟩ := h s a s' hrun hgrows
  exact ⟨hgrows, himp a ha⟩

theorem of_holds (h : (answering view final c).Holds True p P) : AnswersIn view final c p P :=
  mono h fun _ ha => ha trivial

theorem holds (h : AnswersIn view final c p P) : (answering view final c).Holds True p P :=
  h.mono fun _ ha _ => ha

theorem gives (h : AnswersIn view final c p P) : (answering view final c).Gives p P :=
  fun _ => h.mono fun _ ha hφ => ⟨hφ, ha⟩

theorem of_gives (h : (answering view final c).Gives p P) : AnswersIn view final c p P :=
  (of_holds (h True)).mono fun _ ha => ha.2

theorem pure {a : α} (h : P a) : AnswersIn view final c (pure a) P :=
  mono ((answering view final c).pure P a) fun _ ha => ha h

theorem bind (hp : AnswersIn view final c p P)
    (hf : ∀ a, AnswersIn view final c (f a) fun b => P a → Q b) :
    AnswersIn view final c (p >>= f) Q :=
  of_holds ((answering view final c).bind hp.holds hf)

theorem map {g : α → β} (hp : AnswersIn view final c p P) (himp : ∀ a, P a → Q (g a)) :
    AnswersIn view final c (g <$> p) Q :=
  hp.bind fun a => .pure (himp a)

theorem of_quiet [hp : Quiet p] {φ : Prop} : (answering view final c).Holds φ p fun _ => φ := by
  intro s a s' hrun hgrows
  have htree := hp.tree c s
  rw [hrun] at htree
  exact ⟨htree ▸ hgrows, id⟩

theorem gives_of_quiet [Quiet p] : (answering view final c).Gives p fun _ => True :=
  fun φ => (of_quiet (φ := φ)).mono fun _ h hφ => ⟨h hφ, trivial⟩

theorem quiet [Quiet p] (hf : ∀ a, AnswersIn view final c (f a) Q) :
    AnswersIn view final c (p >>= f) Q :=
  of_holds ((answering view final c).bind of_quiet fun a => (hf a).holds)

theorem fail [hp : Fails p] : AnswersIn view final c p P := by
  intro s a s' hrun _
  obtain ⟨e, s₁, herror⟩ := hp.error c s
  rw [herror] at hrun
  cases hrun

/-- A parser that goes on where it starts, whatever it answers. -/
theorem of_keeps {nodes : α → List NodeId} (h : ∀ base, Keeps base p nodes) :
    AnswersIn view final c p fun _ => True := by
  intro s a s' hrun hgrows
  have hkeeps := h s.tree c s (.refl s.tree)
  rw [hrun] at hkeeps
  exact ⟨hgrows.of_get? hkeeps.1.get, trivial⟩

theorem ite {q : Prop} [Decidable q] (h : AnswersIn view final c p P)
    (h' : AnswersIn view final c p' P) : AnswersIn view final c (if q then p else p') P :=
  of_holds ((answering view final c).ite (fun _ => h.holds) fun _ => h'.holds)

/-- A step that is taken on one of two ways to what comes next. -/
theorem when {q : Prop} [Decidable q] {p : Parser Unit} {f : Unit → Parser β} [Quiet p]
    (hf : AnswersIn view final c (f ()) Q) :
    AnswersIn view final c (if q then p >>= f else f ()) Q :=
  of_holds ((answering view final c).when of_quiet hf.holds)

theorem whenNot {q : Prop} [Decidable q] {p : Parser Unit} {f : Unit → Parser β} [Quiet p]
    (hf : AnswersIn view final c (f ()) Q) :
    AnswersIn view final c (if q then f () else p >>= f) Q :=
  of_holds ((answering view final c).whenNot of_quiet hf.holds)

theorem join (P : α → Prop) {q : Prop} [Decidable q] (hp : AnswersIn view final c p P)
    (hp' : AnswersIn view final c p' P)
    (hf : ∀ a, AnswersIn view final c (f a) fun b => P a → Q b) :
    AnswersIn view final c (if q then p >>= f else p' >>= f) Q :=
  of_holds ((answering view final c).join (fun _ => hp.holds) (fun _ => hp'.holds) hf)

theorem either {q : Prop} [Decidable q] [Quiet p] [Quiet p']
    (hf : ∀ a, AnswersIn view final c (f a) Q) :
    AnswersIn view final c (if q then p >>= f else p' >>= f) Q :=
  of_holds ((answering view final c).join (fun _ => of_quiet) (fun _ => of_quiet)
    fun a => (hf a).holds)

theorem withReader {g : Context → Context} (h : AnswersIn view final (g c) p P) :
    AnswersIn view final c (withReader g p) P :=
  h

theorem read {f : Context → Parser β} (hf : AnswersIn view final c (f c) Q) :
    AnswersIn view final c (read >>= f) Q :=
  hf

/-! ### Nodes -/

section

variable [hview : Intrinsic view]

theorem addNode (node : Node) :
    AnswersIn view final c (addNode node) fun id => final.Shows view id (view (Tree.fitted node)) := by
  intro s id s' hrun hgrows
  cases hrun
  exact ⟨hgrows.of_add, hgrows _ _ (s.tree.shows_add_self node)⟩

theorem shown {kind : NodeKind} {start : Nat} {slots : List Slot} {details : Details} :
    AnswersIn view final c (finishWith kind start slots details) fun id =>
      ∃ stop, final.Shows view id (view (Tree.fitted
        { kind, start, stop, slots
          flags := details.flags, token := details.token, name := details.name })) :=
  .quiet fun stop => (addNode _).mono fun _ hid => ⟨stop, hid⟩

end

theorem listFrom {start : Nat} {ids : List NodeId} {Q : Slot → Prop}
    (himp : ∀ stop, Q (.list ⟨ids.map some, start, stop⟩)) :
    AnswersIn view final c (listFrom start ids) Q :=
  .quiet fun stop => .pure (himp stop)

theorem listed {start : Nat} {ids : List NodeId} :
    AnswersIn view final c (Grammar.listFrom start ids) fun slot => slot.children = ids :=
  listFrom fun stop => by simp [Slot.children]

theorem updateNode {id : NodeId} {g : Node → Node} (hg : ∀ node, view (g node) = view node) :
    AnswersIn view final c (updateNode id g) fun _ => True := by
  intro s a s' hrun hgrows
  cases hrun
  exact ⟨hgrows.of_modify hg, trivial⟩

theorem getNode? {id : NodeId} :
    AnswersIn view final c (getNode? id) fun node => ∀ node' ∈ node,
      final.Shows view id (view node') := by
  intro s a s' hrun hgrows
  cases hrun
  exact ⟨hgrows, fun node hnode => hgrows _ _ (Tree.shows_of_get? hnode)⟩

theorem found {id : NodeId} {R : NodeId → Prop} {rest : Node → Parser NodeId}
    (hrest : ∀ node, AnswersIn view final c (rest node) fun t =>
      final.Shows view id (view node) → R t) :
    AnswersIn view final c (do
      let some node ← Grammar.getNode? id | failTarget id
      rest node) R := by
  apply getNode?.bind
  intro node
  cases node with
  | none => exact .fail
  | some node => exact (hrest node).mono fun t ht hnode => ht (hnode node rfl)

theorem tokenAtom : AnswersIn view final c tokenAtom fun _ => True :=
  of_keeps fun _ => Keeps.tokenAtom

/-! ### Speculation and loops -/

/-- A failed attempt has dropped nothing that was there before it. -/
theorem attempt {nodes : α → List NodeId} (hkeeps : ∀ base, Keeps base p nodes)
    (h : AnswersIn view final c p P) : AnswersIn view final c (attempt p) fun a => ∀ b ∈ a, P b := by
  intro s a s' hrun hgrows
  cases a with
  | none =>
      obtain ⟨names, -, rfl⟩ := sameButNames_of_attempt (hkeeps s.tree) hrun
      exact ⟨hgrows, by simp⟩
  | some a =>
      obtain ⟨hgrows, ha⟩ := h s a s' (of_attempt_some hrun) hgrows
      exact ⟨hgrows, by simpa using ha⟩

theorem mapM {δ : Type} {g : δ → Parser α} {R : δ → α → Prop}
    (h : ∀ item, AnswersIn view final c (g item) (R item)) (items : List δ) :
    AnswersIn view final c (items.mapM g) (List.Forall₂ R items) := by
  refine ((answering view final c).mapM (I := fun done read => List.Forall₂ R done read)
    (fun item _ done read => (h item).mono fun a ha hread => ?_) [] []).mono
    fun more hmore => by simpa using hmore .nil
  exact List.rel_append hread (.cons ha .nil)

/-- Elements that are converted one by one, between holes. What holds of each element and what comes
of it holds of all, if it can be put together. -/
theorem mapM_elements {R : List NodeId → List NodeId → Prop} (hnil : R [] [])
    (happend : ∀ as as' bs bs', R as as' → R bs bs' → R (as ++ bs) (as' ++ bs'))
    {convert : NodeId → Parser NodeId} {hole : Parser (Option NodeId)}
    (hconvert : ∀ id, AnswersIn view final c (convert id) fun t => R [id] [t])
    (hhole : AnswersIn view final c hole fun a => a = none) (nodes : List (Option NodeId)) :
    AnswersIn view final c (nodes.mapM fun
      | none => hole
      | some element => some <$> convert element) fun nodes' =>
        R (nodes.filterMap id) (nodes'.filterMap id) := by
  have hitem : ∀ node, AnswersIn view final c
      (match node with
        | none => hole
        | some element => some <$> convert element) fun node' => R node.toList node'.toList := by
    intro node
    cases node with
    | none =>
        apply hhole.mono
        rintro a rfl
        exact hnil
    | some element => exact (hconvert element).map fun t ht => ht
  have hsplit : ∀ (node : Option NodeId) nodes,
      (node :: nodes).filterMap id = node.toList ++ nodes.filterMap id := by
    intro node nodes
    cases node <;> rfl
  apply (mapM hitem nodes).mono
  intro nodes' hnodes
  induction hnodes with
  | nil => exact hnil
  | @cons node node' nodes nodes' hnode _ ih =>
      rw [hsplit, hsplit]
      exact happend _ _ _ _ hnode ih

variable {step : α → Parser (Option α)} {item : Parser (Option α)} {one : Parser α}

/-- What each round of a loop hands on, the loop answers with. -/
theorem iterate {a : α}
    (hstep : ∀ a, AnswersIn view final c (step a) fun r => P a → ∀ b ∈ r, P b) :
    AnswersIn view final c (iterate step a) fun b => P a → P b := by
  refine (answering view final c).iterate (fun a => (hstep a).mono fun r hr ha => ?_) a
  cases r with
  | none => exact ha
  | some b => exact hr ha b rfl

theorem collect (h : AnswersIn view final c item fun a => ∀ b ∈ a, P b) :
    AnswersIn view final c (collect item) fun items => ∀ a ∈ items, P a :=
  of_gives h.gives.collect

theorem commaTerminated {close : Token} (h : AnswersIn view final c one P) :
    AnswersIn view final c (commaTerminated close one) fun items => ∀ a ∈ items, P a :=
  of_gives (h.gives.commaTerminated gives_of_quiet)

theorem afterComma (h : AnswersIn view final c one P) :
    AnswersIn view final c (Grammar.collect do if ← accept .comma then some <$> one else return none)
      fun items => ∀ a ∈ items, P a :=
  of_gives (h.gives.afterComma gives_of_quiet)

theorem commaSeparated (h : AnswersIn view final c one P) :
    AnswersIn view final c (commaSeparated one) fun items => ∀ a ∈ items, P a :=
  of_gives (h.gives.commaSeparated gives_of_quiet)

theorem commaDelimited {close : Token} (h : AnswersIn view final c one P) :
    AnswersIn view final c (commaDelimited close one) fun items => ∀ a ∈ items, P a :=
  of_gives (h.gives.commaDelimited gives_of_quiet)

theorem elements {element : Parser NodeId} {P : NodeId → Prop}
    (helement : AnswersIn view final c element P) :
    AnswersIn view final c (elements element) fun nodes => ∀ id, some id ∈ nodes → P id := by
  have hround : AnswersIn view final c (Grammar.elements element) fun nodes =>
      ∀ node ∈ nodes, ∀ id ∈ node, P id := by
    apply collect
    refine .quiet fun _ => .ite (.pure (by simp)) (.quiet fun _ => .ite (.pure (by simp)) ?_)
    exact helement.bind fun node => .quiet fun _ => .whenNot (.pure (by simp))
  exact hround.mono fun nodes hnodes id hid => hnodes _ hid id rfl

end AnswersIn

end Grammar

end FlowErasure
