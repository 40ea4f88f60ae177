import FlowErasure.Proofs.Frame.Logic
import FlowErasure.Proofs.Syntax.Extending

/-!
# What parsers keep

`Keeps base p nodes` says that `p` only goes on where `base` ends, whatever comes of it: no node of
`base` is changed, no node appended holds one of them, and the nodes in an answer, which `nodes`
lists, come after `base`. An error is no exception. `Quiet p` says that `p` leaves the tree alone, as
do looks at the current token, steps over it, and all that is made of these; `Looks p` that it leaves
the whole state alone.
-/

namespace FlowErasure.Grammar

variable {α β : Type} {base : Tree} {c : Context} {s s' : State}

theorem bind_ok {p : Parser α} {f : α → Parser β} {a : α} (h : p c s = .ok a s') :
    (p >>= f) c s = f a c s' := by
  simp [bind, ReaderT.bind, EStateM.bind, h]

theorem bind_error {p : Parser α} {f : α → Parser β} {e : Failure} (h : p c s = .error e s') :
    (p >>= f) c s = .error e s' := by
  simp [bind, ReaderT.bind, EStateM.bind, h]

theorem of_bind_ok {p : Parser α} {f : α → Parser β} {b : β} (h : (p >>= f) c s = .ok b s') :
    ∃ a s₁, p c s = .ok a s₁ ∧ f a c s₁ = .ok b s' := by
  cases hp : p c s with
  | ok a s₁ =>
      rw [bind_ok hp] at h
      exact ⟨a, s₁, rfl, h⟩
  | error e s₁ =>
      rw [bind_error hp] at h
      cases h

theorem attempt_ok {p : Parser α} {a : α} (h : p c s = .ok a s') :
    attempt p c s = .ok (some a) s' := by
  simp only [attempt, h]

theorem attempt_error {p : Parser α} {e : Failure} (h : p c s = .error e s') :
    attempt p c s = .ok none { s with tree := s'.tree.truncate s.tree.size } := by
  simp only [attempt, h]

theorem of_attempt_some {p : Parser α} {a : α} (h : attempt p c s = .ok (some a) s') :
    p c s = .ok a s' := by
  cases hp : p c s with
  | ok b s₁ =>
      rw [attempt_ok hp] at h
      cases h
      rfl
  | error e s₁ =>
      rw [attempt_error hp] at h
      cases h

theorem of_attempt_none {p : Parser α} (h : attempt p c s = .ok none s') :
    ∃ e s₁, p c s = .error e s₁ ∧ s' = { s with tree := s₁.tree.truncate s.tree.size } := by
  cases hp : p c s with
  | ok a s₁ =>
      rw [attempt_ok hp] at h
      cases h
  | error e s₁ =>
      rw [attempt_error hp] at h
      cases h
      exact ⟨e, s₁, rfl, rfl⟩

/-! ## Nodes of a slot -/

@[simp] theorem children_absent : Slot.absent.children = [] := rfl

@[simp] theorem children_node (id : NodeId) : (Slot.node id).children = [id] := rfl

@[simp] theorem children_ofOption (id : Option NodeId) : (Slot.ofOption id).children = id.toList := by
  cases id <;> rfl

@[simp] theorem children_list (nodes : List (Option NodeId)) (start stop : Nat) :
    (Slot.list ⟨nodes, start, stop⟩).children = nodes.filterMap id := rfl

@[simp] theorem filterMap_map_some (ids : List NodeId) : (ids.map some).filterMap id = ids := by
  simp [List.filterMap_map]

/-! ## Looking -/

/-- The parser answers and leaves the state as it is. -/
class Looks (p : Parser α) : Prop where
  ok : ∀ c s, ∃ a, p c s = .ok a s

instance looks_pure (a : α) : Looks (pure a : Parser α) :=
  ⟨fun _ _ => ⟨a, rfl⟩⟩

theorem Looks.bind {p : Parser α} {f : α → Parser β} (hp : Looks p) (hf : ∀ a, Looks (f a)) :
    Looks (p >>= f) where
  ok c s := by
    obtain ⟨a, h⟩ := hp.ok c s
    rw [bind_ok h]
    exact (hf a).ok c s

instance looks_bind (p : Parser α) (f : α → Parser β) [hp : Looks p] [hf : ∀ a, Looks (f a)] :
    Looks (p >>= f) :=
  .bind hp hf

instance looks_ite (q : Prop) [Decidable q] (p p' : Parser α) [Looks p] [Looks p'] :
    Looks (if q then p else p') := by
  split <;> infer_instance

instance looks_get : Looks (get : Parser State) :=
  ⟨fun _ s => ⟨s, rfl⟩⟩

instance looks_read : Looks (read : Parser Context) :=
  ⟨fun c _ => ⟨c, rfl⟩⟩

instance looks_token : Looks token := by
  unfold token; infer_instance

instance looks_tokenStart : Looks tokenStart := by
  unfold tokenStart; infer_instance

instance looks_tokenValue : Looks tokenValue := by
  unfold tokenValue; infer_instance

instance looks_isAt (t : Token) : Looks (isAt t) := by
  unfold isAt; infer_instance

instance looks_isAtAny (ts : List Token) : Looks (isAtAny ts) := by
  unfold isAtAny; infer_instance

instance looks_afterLineBreak : Looks afterLineBreak := by
  unfold afterLineBreak; infer_instance

instance looks_lastEnd : Looks lastEnd := by
  unfold lastEnd; infer_instance

instance looks_lookAhead (accepts : Token → Bool) : Looks (lookAhead accepts) := by
  unfold lookAhead; infer_instance

instance looks_lookAheadOnLine (accepts : Token → Bool) : Looks (lookAheadOnLine accepts) := by
  unfold lookAheadOnLine; infer_instance

instance looks_getNode? (id : NodeId) : Looks (getNode? id) := by
  unfold getNode?; infer_instance

instance looks_listFrom (start : Nat) (nodes : List NodeId) : Looks (listFrom start nodes) := by
  unfold listFrom; infer_instance

/-! ### Decisions -/

instance looks_canEndStatement : Looks canEndStatement := by
  unfold canEndStatement; infer_instance

instance looks_isIdentifier : Looks isIdentifier := by
  refine .bind inferInstance fun c => .bind inferInstance fun t => ?_
  split <;> infer_instance

instance looks_startsTypeDeclaration : Looks startsTypeDeclaration := by
  unfold startsTypeDeclaration; infer_instance

instance looks_startsDeclareDeclaration : Looks startsDeclareDeclaration := by
  unfold startsDeclareDeclaration; infer_instance

instance looks_startsLetDeclaration : Looks startsLetDeclaration := by
  unfold startsLetDeclaration; infer_instance

instance looks_startsAsyncFunction : Looks startsAsyncFunction := by
  unfold startsAsyncFunction; infer_instance

instance looks_isMemberModifier (sameLine : Bool) : Looks (isMemberModifier sameLine) := by
  unfold isMemberModifier; infer_instance

instance looks_isParameterName : Looks isParameterName := by
  unfold isParameterName; infer_instance

instance looks_opensTypeParameters : Looks opensTypeParameters := by
  unfold opensTypeParameters; infer_instance

/-! ## Failing -/

class Fails (p : Parser α) : Prop where
  error : ∀ c s, ∃ e s', p c s = .error e s'

instance fails_failAt (start length : Nat) (message : Message) :
    Fails (failAt start length message : Parser α) :=
  ⟨fun _ _ => ⟨_, _, rfl⟩⟩

instance fails_failAtTokenWith (message : Message) (arguments : List String) :
    Fails (failAtTokenWith message arguments : Parser α) :=
  ⟨fun _ _ => ⟨_, _, rfl⟩⟩

instance fails_failAtToken (message : Message) : Fails (failAtToken message : Parser α) :=
  fails_failAtTokenWith message []

instance fails_failExpecting (t : Token) : Fails (failExpecting t : Parser α) :=
  fails_failAtTokenWith .tokenExpected [t.description]

instance fails_ite (q : Prop) [Decidable q] (p p' : Parser α) [Fails p] [Fails p'] :
    Fails (if q then p else p') := by
  split <;> infer_instance

theorem Fails.after {p : Parser α} {f : α → Parser β} (hp : Looks p) (hf : ∀ a, Fails (f a)) :
    Fails (p >>= f) where
  error c s := by
    obtain ⟨a, h⟩ := hp.ok c s
    rw [bind_ok h]
    exact (hf a).error c s

instance fails_failUnexpected : Fails (failUnexpected : Parser α) :=
  .after inferInstance fun _ => inferInstance

/-! ## Quiet parsers -/

/-- The parser leaves the tree as it is, whether it answers or fails. -/
class Quiet (p : Parser α) : Prop where
  tree : ∀ c s,
    match p c s with
    | .ok _ s' => s'.tree = s.tree
    | .error _ s' => s'.tree = s.tree

instance (priority := low) quiet_of_looks (p : Parser α) [hp : Looks p] : Quiet p where
  tree c s := by
    obtain ⟨a, h⟩ := hp.ok c s
    rw [h]

theorem Quiet.bind {p : Parser α} {f : α → Parser β} (hp : Quiet p) (hf : ∀ a, Quiet (f a)) :
    Quiet (p >>= f) where
  tree c s := by
    have htree := hp.tree c s
    cases h : p c s with
    | error e s₁ =>
        rw [h] at htree
        rw [bind_error h]
        exact htree
    | ok a s₁ =>
        rw [h] at htree
        rw [bind_ok h]
        have hrest := (hf a).tree c s₁
        cases h₁ : f a c s₁ <;> rw [h₁] at hrest <;> exact hrest.trans htree

instance quiet_bind (p : Parser α) (f : α → Parser β) [hp : Quiet p] [hf : ∀ a, Quiet (f a)] :
    Quiet (p >>= f) :=
  .bind hp hf

instance quiet_ite (q : Prop) [Decidable q] (p p' : Parser α) [Quiet p] [Quiet p'] :
    Quiet (if q then p else p') := by
  split <;> infer_instance

instance quiet_failAt (start length : Nat) (message : Message) :
    Quiet (failAt start length message : Parser α) :=
  ⟨fun _ _ => rfl⟩

instance quiet_failAtTokenWith (message : Message) (arguments : List String) :
    Quiet (failAtTokenWith message arguments : Parser α) :=
  ⟨fun _ _ => rfl⟩

instance quiet_failAtToken (message : Message) : Quiet (failAtToken message : Parser α) :=
  quiet_failAtTokenWith message []

instance quiet_failExpecting (t : Token) : Quiet (failExpecting t : Parser α) :=
  quiet_failAtTokenWith .tokenExpected [t.description]

instance quiet_failUnexpected : Quiet (failUnexpected : Parser α) := by
  unfold failUnexpected; infer_instance

/-! ### Steps over tokens -/

theorem quiet_modify {f : State → State} (hf : ∀ s, (f s).tree = s.tree) :
    Quiet (modify f : Parser PUnit) :=
  ⟨fun _ s => hf s⟩

/-- An error of the lexer becomes an error of the parser; otherwise nothing happens. -/
theorem raiseFault_cases (c : Context) (s : State) :
    (s.lexer.fault = none ∧ raiseFault c s = .ok () s) ∨
      ∃ f : Fault, s.lexer.fault = some f ∧
        raiseFault c s = .error { start := f.start, length := f.length, message := f.message }
          { s with lexer := { s.lexer with fault := none } } := by
  have hget : (get : Parser State) c s = .ok s s := rfl
  unfold raiseFault
  rw [bind_ok hget]
  cases hfault : s.lexer.fault with
  | none => exact .inl ⟨rfl, rfl⟩
  | some f => exact .inr ⟨f, rfl, rfl⟩

instance quiet_raiseFault : Quiet raiseFault := by
  unfold raiseFault
  refine .bind inferInstance fun s => ?_
  split
  · infer_instance
  · exact .bind (quiet_modify fun _ => rfl) fun _ => inferInstance

instance quiet_advance : Quiet advance :=
  .bind (quiet_modify fun _ => rfl) fun _ => inferInstance

instance quiet_expect (t : Token) : Quiet (expect t) := by
  unfold expect; infer_instance

instance quiet_accept (t : Token) : Quiet (accept t) := by
  unfold accept; infer_instance

instance quiet_endStatement : Quiet endStatement := by
  unfold endStatement; infer_instance

instance quiet_rereadSlash : Quiet rereadSlash :=
  .bind (quiet_modify fun _ => rfl) fun _ => inferInstance

instance quiet_rereadBrace : Quiet rereadBrace :=
  .bind (quiet_modify fun _ => rfl) fun _ => inferInstance

instance quiet_rereadGreater : Quiet rereadGreater :=
  quiet_modify fun _ => rfl

/-! ## Keeping -/

/-- Whatever comes of the parser, what goes on where `base` ends goes on there. If there is an
answer, the nodes in it come after `base`. -/
def Keeps (base : Tree) (p : Parser α) (nodes : α → List NodeId) : Prop :=
  ∀ c s, base.Extends s.tree →
    match p c s with
    | .ok a s' => base.Extends s'.tree ∧ base.Later (nodes a)
    | .error _ s' => base.Extends s'.tree

abbrev KeepsRule (base : Tree) (p : Parser NodeId) : Prop :=
  Keeps base p fun id => [id]

/-- What is known is about the answers. -/
def keeping (base : Tree) : Logic Prop where
  Holds φ p ψ := φ → ∀ c s, base.Extends s.tree →
    match p c s with
    | .ok a s' => base.Extends s'.tree ∧ ψ a
    | .error _ s' => base.Extends s'.tree
  pure _ _ hφ _ _ hs := ⟨hs, hφ⟩
  bind hp hf hφ c s hs := by
    have hfirst := hp hφ c s hs
    split at hfirst
    · rename_i hrun
      rw [bind_ok hrun]
      exact hf _ hfirst.2 c _ hfirst.1
    · rename_i hrun
      rw [bind_error hrun]
      exact hfirst
  mono hp hφ hψ hφ' c s hs := by
    have hp := hp (hφ hφ') c s hs
    split at hp
    · exact ⟨hp.1, hψ _ hp.2⟩
    · exact hp
  get _ hφ _ _ hs := ⟨hs, hφ⟩
  stuck {α} _ _ _ c s hs := by
    have hquiet : Quiet (failUnexpected : Parser α) := inferInstance
    have htree := hquiet.tree c s
    obtain ⟨e, s', hrun⟩ := Fails.error (p := (failUnexpected : Parser α)) c s
    rw [hrun] at htree ⊢
    show base.Extends s'.tree
    exact htree ▸ hs

namespace Keeps

variable {p p' : Parser α} {f : α → Parser β} {nodes nodes' : α → List NodeId}
  {nodes₁ : β → List NodeId}

theorem mono (h : Keeps base p nodes) (himp : ∀ a, base.Later (nodes a) → base.Later (nodes' a)) :
    Keeps base p nodes' :=
  (keeping base).mono (fun _ => h) le_rfl himp trivial

theorem pure {a : α} (h : base.Later (nodes a)) : Keeps base (pure a) nodes :=
  (keeping base).pure (fun a => base.Later (nodes a)) a h

theorem bind (hp : Keeps base p nodes) (hf : ∀ a, base.Later (nodes a) → Keeps base (f a) nodes₁) :
    Keeps base (p >>= f) nodes₁ :=
  (keeping base).bind (fun _ => hp) hf trivial

theorem map {g : α → β} (hp : Keeps base p nodes)
    (himp : ∀ a, base.Later (nodes a) → base.Later (nodes₁ (g a))) : Keeps base (g <$> p) nodes₁ :=
  hp.bind fun a ha => .pure (himp a ha)

theorem of_quiet [hp : Quiet p] : Keeps base p fun _ => [] := by
  intro c s hs
  have htree := hp.tree c s
  cases hrun : p c s with
  | ok a s' =>
      rw [hrun] at htree
      exact ⟨htree ▸ hs, Tree.later_nil⟩
  | error e s' =>
      rw [hrun] at htree
      show base.Extends s'.tree
      exact htree ▸ hs

theorem quiet [Quiet p] (hf : ∀ a, Keeps base (f a) nodes₁) : Keeps base (p >>= f) nodes₁ :=
  of_quiet.bind fun a _ => hf a

theorem fail [Quiet p] [hp : Fails p] : Keeps base p nodes := by
  intro c s hs
  have hkeeps : Keeps base p _ := of_quiet
  have hkeeps := hkeeps c s hs
  obtain ⟨e, s', hrun⟩ := hp.error c s
  rw [hrun] at hkeeps ⊢
  exact hkeeps

theorem gives (h : Keeps base p nodes) : (keeping base).Gives p fun a => base.Later (nodes a) :=
  fun _ hφ => (keeping base).mono (fun _ => h) le_rfl (fun _ ha => ⟨hφ, ha⟩) trivial

theorem gives_of_quiet [Quiet p] : (keeping base).Gives p fun _ => True :=
  fun φ => (keeping base).mono (of_quiet.gives φ) le_rfl fun _ h => ⟨h.1, trivial⟩

theorem ite {q : Prop} [Decidable q] (h : Keeps base p nodes) (h' : Keeps base p' nodes) :
    Keeps base (if q then p else p') nodes :=
  (keeping base).ite (fun _ _ => h) (fun _ _ => h') trivial

/-- A step that is taken on one of two ways to what comes next. -/
theorem when {q : Prop} [Decidable q] {p : Parser Unit} {f : Unit → Parser β} [Quiet p]
    (hf : Keeps base (f ()) nodes₁) : Keeps base (if q then p >>= f else f ()) nodes₁ :=
  (keeping base).when (fun _ => of_quiet) (fun _ => hf) Tree.later_nil

theorem whenNot {q : Prop} [Decidable q] {p : Parser Unit} {f : Unit → Parser β} [Quiet p]
    (hf : Keeps base (f ()) nodes₁) : Keeps base (if q then f () else p >>= f) nodes₁ :=
  (keeping base).whenNot (fun _ => of_quiet) (fun _ => hf) Tree.later_nil

theorem join (nodes : α → List NodeId) {q : Prop} [Decidable q] (hp : Keeps base p nodes)
    (hp' : Keeps base p' nodes) (hf : ∀ a, base.Later (nodes a) → Keeps base (f a) nodes₁) :
    Keeps base (if q then p >>= f else p' >>= f) nodes₁ :=
  (keeping base).join (fun _ _ => hp) (fun _ _ => hp') hf trivial

theorem either {q : Prop} [Decidable q] [Quiet p] [Quiet p'] (hf : ∀ a, Keeps base (f a) nodes₁) :
    Keeps base (if q then p >>= f else p' >>= f) nodes₁ :=
  (keeping base).join (fun _ _ => of_quiet) (fun _ _ => of_quiet) (fun a _ => hf a) trivial

theorem withReader {g : Context → Context} (h : Keeps base p nodes) :
    Keeps base (withReader g p) nodes :=
  fun c s hs => h (g c) s hs

/-! ### Nodes -/

theorem finishWith {kind : NodeKind} {start : Nat} {slots : List Slot} {details : Details}
    (h : base.Later (slots.flatMap Slot.children)) :
    KeepsRule base (finishWith kind start slots details) := by
  refine .quiet fun stop c s hs => ?_
  let node : Node :=
    { kind, start, stop, slots
      flags := details.flags, token := details.token, name := details.name }
  have hnode : base.Later node.children := h
  obtain ⟨hextends, hid⟩ := hs.add hnode
  exact ⟨hextends, by simpa using hid⟩

theorem finish {kind : NodeKind} {start : Nat} {slots : List Slot}
    (h : base.Later (slots.flatMap Slot.children)) : KeepsRule base (finish kind start slots) :=
  .finishWith h

theorem listFrom {start : Nat} {ids : List NodeId} (h : base.Later ids) :
    Keeps base (listFrom start ids) Slot.children :=
  .quiet fun stop => .pure (by simpa using h)

theorem updateNode {id : NodeId} {g : Node → Node} (hid : base.size ≤ id)
    (hg : ∀ node, (g node).children = node.children) :
    Keeps base (updateNode id g) fun _ => [] :=
  fun _ _ hs => ⟨hs.modify hid hg, Tree.later_nil⟩

theorem getNode? {id : NodeId} (hid : base.size ≤ id) :
    Keeps base (getNode? id) fun node => node.toList.flatMap Node.children := by
  intro c s hs
  refine ⟨hs, ?_⟩
  show base.Later ((s.tree.get? id).toList.flatMap Node.children)
  cases hget : s.tree.get? id with
  | none => exact Tree.later_nil
  | some node => simpa using hs.later id node hid hget

theorem tokenAtom : Keeps base tokenAtom fun _ => [] :=
  fun _ s hs => ⟨hs.renamed s.lexer.value, Tree.later_nil⟩

theorem identifierName : KeepsRule base identifierName := by
  refine .quiet fun t => .when ?_
  refine .quiet fun start => tokenAtom.bind fun name _ => .quiet fun _ => ?_
  exact .finishWith (by simp)

theorem identifier : KeepsRule base identifier := by
  refine .quiet fun b => .ite identifierName .fail

theorem literal : KeepsRule base literal := by
  refine .quiet fun start => .quiet fun t => .quiet fun _ => ?_
  exact .finishWith (by simp)

theorem stringLiteral : KeepsRule base stringLiteral := by
  exact .quiet fun b => .ite literal .fail

/-! ### Speculation and loops -/

theorem attempt (h : Keeps base p nodes) :
    Keeps base (attempt p) fun a => a.toList.flatMap nodes := by
  intro c s hs
  have hp := h c s hs
  cases hrun : p c s with
  | ok a s' =>
      rw [hrun] at hp
      rw [attempt_ok hrun]
      exact ⟨hp.1, by simpa using hp.2⟩
  | error e s' =>
      rw [hrun] at hp
      rw [attempt_error hrun]
      exact ⟨hp.truncate hs.size, Tree.later_nil⟩

theorem mapM (nodes : α → List NodeId) {γ : Type} {g : γ → Parser α} {items : List γ}
    (h : ∀ item ∈ items, Keeps base (g item) nodes) :
    Keeps base (items.mapM g) fun as => as.flatMap nodes := by
  refine (keeping base).mapM (I := fun _ read => base.Later (read.flatMap nodes))
    (fun item hitem _ read hread => ?_) [] [] (by simp)
  exact (h item hitem).mono fun a ha => by simpa using ⟨hread, ha⟩

variable {step : α → Parser (Option α)} {item : Parser (Option α)} {one : Parser NodeId}

theorem iterate (nodes : α → List NodeId) {a : α} (ha : base.Later (nodes a))
    (hstep : ∀ a, base.Later (nodes a) → Keeps base (step a) fun r => r.toList.flatMap nodes) :
    Keeps base (iterate step a) nodes := by
  refine (keeping base).iterate (I := fun a => base.Later (nodes a))
    (E := fun a => base.Later (nodes a)) (fun a ha => ?_) a ha
  refine (keeping base).mono (fun _ => hstep a ha) le_rfl (fun r hr => ?_) trivial
  cases r with
  | none => exact ha
  | some b => simpa using hr

theorem collect (nodes : α → List NodeId) (h : Keeps base item fun a => a.toList.flatMap nodes) :
    Keeps base (collect item) fun items => items.flatMap nodes := by
  have hitem : (keeping base).Gives item fun r => ∀ a ∈ r, base.Later (nodes a) := fun φ =>
    (keeping base).mono (h.gives φ) le_rfl fun r hr => ⟨hr.1, by
      simpa [Tree.later_flatMap] using hr.2⟩
  exact (keeping base).mono (hitem.collect True) le_rfl
    (fun items hitems => Tree.later_flatMap.mpr hitems.2) trivial

theorem collect_nodes {item : Parser (Option NodeId)} (h : Keeps base item Option.toList) :
    Keeps base (Grammar.collect item) fun ids => ids := by
  refine (collect (fun id => [id]) (h.mono fun a ha => ?_)).mono fun ids hids => ?_
  · cases a with
    | none => simp
    | some id => simpa using ha
  · simpa using hids

theorem of_gives {p : Parser (List NodeId)}
    (h : (keeping base).Gives p fun ids => ∀ id ∈ ids, base.Later [id]) :
    Keeps base p fun ids => ids :=
  (keeping base).mono (h True) le_rfl (fun ids hids => by simpa [Tree.Later] using hids.2) trivial

theorem commaTerminated {close : Token} (h : KeepsRule base one) :
    Keeps base (commaTerminated close one) fun ids => ids :=
  of_gives (h.gives.commaTerminated gives_of_quiet)

theorem afterComma (h : KeepsRule base one) :
    Keeps base (Grammar.collect do if ← accept .comma then some <$> one else return none)
      fun ids => ids :=
  of_gives (h.gives.afterComma gives_of_quiet)

theorem commaSeparated (h : KeepsRule base one) :
    Keeps base (commaSeparated one) fun ids => ids :=
  of_gives (h.gives.commaSeparated gives_of_quiet)

theorem commaDelimited {close : Token} (h : KeepsRule base one) :
    Keeps base (commaDelimited close one) fun ids => ids :=
  of_gives (h.gives.commaDelimited gives_of_quiet)

end Keeps

/-! ## Failed attempts -/

/-- The states differ in the pool of names at most, and names have only been added to it. -/
def State.SameButNames (s s' : State) : Prop :=
  ∃ names, s.tree.names.Grows names ∧ s' = { s with tree := { s.tree with names } }

theorem State.SameButNames.refl (s : State) : s.SameButNames s :=
  ⟨s.tree.names, .refl _, rfl⟩

/-- An attempt that fails leaves nothing but names. -/
theorem sameButNames_of_attempt {p : Parser α} {nodes : α → List NodeId}
    (hp : Keeps s.tree p nodes) (hrun : attempt p c s = .ok none s') : s.SameButNames s' := by
  obtain ⟨e, s₁, herror, rfl⟩ := of_attempt_none hrun
  have hkeeps := hp c s (.refl s.tree)
  rw [herror] at hkeeps
  refine ⟨s₁.tree.names, hkeeps.names, ?_⟩
  rw [hkeeps.truncate_eq]

end FlowErasure.Grammar
