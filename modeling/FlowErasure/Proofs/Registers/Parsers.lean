import FlowErasure.Proofs.Registers.Machine
import FlowErasure.Proofs.Token.Joining

/-!
# Parsers with registers

Reading tokens, failing, going back and repeating, in registers and without.
-/

namespace FlowErasure.Grammar

variable {α β : Type} {levels : Nat}

/-! ## Composition -/

namespace Mirrors

variable {q q' : Machine α} {p p' : Parser α} {g : α → Machine β} {f : α → Parser β}

theorem pure (a : α) : Mirrors levels (pure a) (pure a) where
  restores _ hr := ⟨rfl, rfl, hr⟩
  follows := .of_agreeing fun _ _ _ _ => rfl

theorem bind (hp : Mirrors levels q p) (hf : ∀ a, Mirrors levels (g a) (f a)) :
    Mirrors levels (q >>= g) (p >>= f) where
  restores := hp.restores.bind fun a => (hf a).restores
  follows := hp.follows.bind fun a => (hf a).follows

theorem step [hp : Mirrors levels q p] (hf : ∀ a, Mirrors levels (g a) (f a)) :
    Mirrors levels (q >>= g) (p >>= f) :=
  hp.bind hf

theorem ite {b : Prop} [Decidable b] (hp : Mirrors levels q p) (hp' : Mirrors levels q' p') :
    Mirrors levels (if b then q else q') (if b then p else p') := by
  split
  · exact hp
  · exact hp'

/-- A step that is taken on one of two ways to what comes next. -/
theorem when {b : Prop} [Decidable b] {q : Machine Unit} {p : Parser Unit} {g : Unit → Machine β}
    {f : Unit → Parser β} [Mirrors levels q p] (hf : ∀ a, Mirrors levels (g a) (f a)) :
    Mirrors levels (if b then q >>= g else g ()) (if b then p >>= f else f ()) :=
  .ite (.step hf) (hf ())

theorem either {b : Prop} [Decidable b] [Mirrors levels q p] [Mirrors levels q' p']
    (hf : ∀ a, Mirrors levels (g a) (f a)) :
    Mirrors levels (if b then q >>= g else q' >>= g) (if b then p >>= f else p' >>= f) :=
  .ite (.step hf) (.step hf)

end Mirrors

instance mirrors_pure (a : α) : Mirrors levels (pure a) (pure a) :=
  .pure a

instance mirrors_bind (q : Machine α) (p : Parser α) (g : α → Machine β) (f : α → Parser β)
    [hp : Mirrors levels q p] [hf : ∀ a, Mirrors levels (g a) (f a)] :
    Mirrors levels (q >>= g) (p >>= f) :=
  hp.bind hf

instance mirrors_map (q : Machine α) (p : Parser α) (g : α → β) [hp : Mirrors levels q p] :
    Mirrors levels (g <$> q) (g <$> p) :=
  hp.bind fun a => .pure (g a)

instance mirrors_ite (b : Prop) [Decidable b] (q q' : Machine α) (p p' : Parser α)
    [Mirrors levels q p] [Mirrors levels q' p'] :
    Mirrors levels (if b then q else q') (if b then p else p') :=
  .ite inferInstance inferInstance

/-! ## Looking -/

theorem mirrors_look {look : Registers → α} {look' : State → α}
    (h : ∀ r : Registers, r.Agrees → look r = look' r.toState) :
    Mirrors levels (do return look (← get)) (do return look' (← get)) where
  restores _ hr := ⟨rfl, rfl, hr⟩
  follows := by
    refine .of_agreeing fun s c depth _ => ?_
    have hsame := h ⟨s, s.lexer.token, c, depth⟩ rfl
    show EStateM.Result.ok (look _) _ = .ok (look' s) _
    rw [hsame]

instance mirrors_token : Mirrors levels Machine.token token :=
  mirrors_look fun _ hr => hr

instance mirrors_tokenStart : Mirrors levels Machine.tokenStart tokenStart :=
  mirrors_look fun _ _ => rfl

instance mirrors_tokenValue : Mirrors levels Machine.tokenValue tokenValue :=
  mirrors_look fun _ _ => rfl

instance mirrors_afterLineBreak : Mirrors levels Machine.afterLineBreak afterLineBreak :=
  mirrors_look fun _ _ => rfl

instance mirrors_lastEnd : Mirrors levels Machine.lastEnd lastEnd :=
  mirrors_look fun _ _ => rfl

theorem mirrors_bytesLeft :
    Mirrors levels Machine.bytesLeft (do return (← get).lexer.bytesLeft : Parser Nat) :=
  mirrors_look fun _ _ => rfl

instance mirrors_getNode? (id : NodeId) : Mirrors levels (Machine.getNode? id) (getNode? id) :=
  mirrors_look fun _ _ => rfl

instance mirrors_context : Mirrors levels Machine.context (read : Parser Context) where
  restores _ hr := ⟨rfl, rfl, hr⟩
  follows := .of_agreeing fun _ _ _ _ => rfl

instance mirrors_isAt (t : Token) : Mirrors levels (Machine.isAt t) (isAt t) := by
  unfold Machine.isAt isAt; infer_instance

instance mirrors_isAtAny (ts : List Token) :
    Mirrors levels (Machine.isAtAny ts) (isAtAny ts) := by
  unfold Machine.isAtAny isAtAny; infer_instance

instance mirrors_listFrom (start : Nat) (nodes : List NodeId) :
    Mirrors levels (Machine.listFrom start nodes) (listFrom start nodes) := by
  unfold Machine.listFrom listFrom; infer_instance

/-! ## Failing -/

instance mirrors_failAt (start length : Nat) (message : Message) :
    Mirrors levels (Machine.failAt start length message : Machine α)
      (failAt start length message) where
  restores _ hr := ⟨rfl, rfl, hr⟩
  follows := .of_agreeing fun _ _ _ _ => rfl

instance mirrors_failAtTokenWith (message : Message) (arguments : List String) :
    Mirrors levels (Machine.failAtTokenWith message arguments : Machine α)
      (failAtTokenWith message arguments) where
  restores _ hr := ⟨rfl, rfl, hr⟩
  follows := .of_agreeing fun _ _ _ _ => rfl

instance mirrors_failAtToken (message : Message) :
    Mirrors levels (Machine.failAtToken message : Machine α) (failAtToken message) :=
  mirrors_failAtTokenWith message []

instance mirrors_failExpecting (t : Token) :
    Mirrors levels (Machine.failExpecting t : Machine α) (failExpecting t) :=
  mirrors_failAtTokenWith .tokenExpected [t.description]

instance mirrors_failUnexpected :
    Mirrors levels (Machine.failUnexpected : Machine α) failUnexpected := by
  unfold Machine.failUnexpected failUnexpected; infer_instance

instance mirrors_failTooDeep :
    Mirrors levels (Machine.failTooDeep : Machine NodeId) failTooDeep :=
  mirrors_failAtTokenWith .nestingDepthExceeded [toString nestingLimit]

theorem restores_failTooDeep : Restores (Machine.failTooDeep : Machine NodeId) :=
  have hmirrors : Mirrors 0 (Machine.failTooDeep : Machine NodeId) failTooDeep := mirrors_failTooDeep
  hmirrors.restores

/-- Whether or not there is an error, none is left with the lexer. -/
instance mirrors_raiseFault : Mirrors levels Machine.raiseFault raiseFault where
  restores := by
    rintro ⟨⟨⟨_, _, _, _, _, _, _, _, _, fault⟩, _, _⟩, _, _, _⟩ hr
    cases fault <;> exact ⟨rfl, rfl, hr⟩
  follows := by
    refine .of_agreeing fun s c depth _ => ?_
    obtain ⟨⟨_, _, _, _, _, _, _, _, _, fault⟩, _, _⟩ := s
    cases fault <;> rfl

/-! ## Steps over tokens -/

/-- The lexer goes on, and its new token becomes the current one. -/
theorem mirrors_scan (move : Lexer → Lexer) :
    Mirrors levels (Machine.scan move)
      (modify fun s => { s with lexer := move s.lexer } : Parser PUnit) where
  restores _ _ := ⟨rfl, rfl, rfl⟩
  follows := .of_agreeing fun _ _ _ _ => rfl

/-- A step that has nothing to do with the current token. -/
theorem mirrors_step {a : Registers → α} {f : Registers → Registers} {step : State → α × State}
    (hrestores : Restores (modifyGet fun r => (a r, f r) : Machine α))
    (h : ∀ (s : State) (c : Context) (depth : Nat),
      (a ⟨s, s.lexer.token, c, depth⟩, f ⟨s, s.lexer.token, c, depth⟩) =
        ((step s).1, ⟨(step s).2, (step s).2.lexer.token, c, depth⟩)) :
    Mirrors levels (modifyGet fun r => (a r, f r)) (modifyGet step) where
  restores := hrestores
  follows := by
    refine .of_agreeing fun s c depth _ => ?_
    obtain ⟨ha, hf⟩ := Prod.mk.inj (h s c depth)
    show EStateM.Result.ok (a _) (f _) = .ok (step s).1 _
    rw [ha, hf]

instance mirrors_advance : Mirrors levels Machine.advance advance := by
  have hend : Mirrors levels
      (modify fun r => { r with lastEnd := r.lexer.pos } : Machine PUnit)
      (modify fun s => { s with lastEnd := s.lexer.pos } : Parser PUnit) :=
    mirrors_step (.step (fun _ => rfl) (fun _ => rfl) (fun _ => rfl) fun _ => rfl)
      fun _ _ _ => rfl
  exact hend.bind fun _ => (mirrors_scan Lexer.next).bind fun _ => mirrors_raiseFault

instance mirrors_rereadSlash : Mirrors levels Machine.rereadSlash rereadSlash :=
  (mirrors_scan Lexer.rereadSlash).bind fun _ => inferInstance

instance mirrors_rereadBrace : Mirrors levels Machine.rereadBrace rereadBrace :=
  (mirrors_scan Lexer.rereadBrace).bind fun _ => inferInstance

/-- Only a `>` is read again. -/
instance mirrors_rereadGreater : Mirrors levels Machine.rereadGreater rereadGreater := by
  have hscan : Mirrors levels (Machine.scan Lexer.rereadGreater)
      (modify fun s => { s with lexer := s.lexer.rereadGreater } : Parser PUnit) :=
    mirrors_scan Lexer.rereadGreater
  have hguarded : Mirrors levels Machine.rereadGreater (do
      if ← isAt .greaterThan then
        modify fun s => { s with lexer := s.lexer.rereadGreater }) := by
    unfold Machine.rereadGreater; infer_instance
  convert hguarded using 1
  funext c s
  by_cases hgreater : s.lexer.token = .greaterThan
  · have hrun : isAt .greaterThan c s = .ok true s := by
      show EStateM.Result.ok (s.lexer.token == .greaterThan) s = _
      rw [hgreater, beq_self_eq_true]
    rw [bind_ok hrun]
    rfl
  · have hrun : isAt .greaterThan c s = .ok false s := by
      show EStateM.Result.ok (s.lexer.token == .greaterThan) s = _
      rw [beq_false_of_ne hgreater]
    rw [bind_ok hrun, if_neg Bool.false_ne_true]
    unfold rereadGreater
    show EStateM.Result.ok _ { s with lexer := s.lexer.rereadGreater } = .ok () s
    rw [Lexer.rereadGreater_eq hgreater]

instance mirrors_expect (t : Token) : Mirrors levels (Machine.expect t) (expect t) := by
  unfold Machine.expect expect; infer_instance

instance mirrors_accept (t : Token) : Mirrors levels (Machine.accept t) (accept t) := by
  unfold Machine.accept accept; infer_instance

instance mirrors_canEndStatement : Mirrors levels Machine.canEndStatement canEndStatement := by
  unfold Machine.canEndStatement canEndStatement; infer_instance

instance mirrors_endStatement : Mirrors levels Machine.endStatement endStatement := by
  unfold Machine.endStatement endStatement; infer_instance

/-! ## Looking ahead -/

/-- The lexer goes on and comes back. -/
theorem mirrors_lookThrough {look : StateM Lexer α} {rest : State → Parser α}
    (h : ∀ s, rest s = Pure.pure (look s.lexer).1) :
    Mirrors levels (Machine.lookThrough look) (get >>= rest) where
  restores := .lookThrough look
  follows := .lookThrough h

instance mirrors_lookAhead (accepts : Token → Bool) :
    Mirrors levels (Machine.lookAhead accepts) (lookAhead accepts) :=
  mirrors_lookThrough fun _ => rfl

instance mirrors_lookAheadOnLine (accepts : Token → Bool) :
    Mirrors levels (Machine.lookAheadOnLine accepts) (lookAheadOnLine accepts) :=
  mirrors_lookThrough fun _ => rfl

instance mirrors_startsTypeDeclaration :
    Mirrors levels Machine.startsTypeDeclaration startsTypeDeclaration :=
  mirrors_lookAheadOnLine _

instance mirrors_startsDeclareDeclaration :
    Mirrors levels Machine.startsDeclareDeclaration startsDeclareDeclaration :=
  mirrors_lookAheadOnLine _

instance mirrors_startsLetDeclaration :
    Mirrors levels Machine.startsLetDeclaration startsLetDeclaration :=
  mirrors_lookAhead _

instance mirrors_startsAsyncFunction :
    Mirrors levels Machine.startsAsyncFunction startsAsyncFunction :=
  mirrors_lookAheadOnLine _

instance mirrors_isMemberModifier (sameLine : Bool) :
    Mirrors levels (Machine.isMemberModifier sameLine) (isMemberModifier sameLine) := by
  unfold Machine.isMemberModifier isMemberModifier; infer_instance

instance mirrors_isParameterName : Mirrors levels Machine.isParameterName isParameterName :=
  mirrors_lookAhead _

instance mirrors_opensTypeParameters :
    Mirrors levels Machine.opensTypeParameters opensTypeParameters := by
  refine mirrors_lookThrough fun s => ?_
  dsimp only [Machine.upcoming, bind, StateT.bind, modify, modifyGet, MonadStateOf.modifyGet,
    StateT.modifyGet, get, getThe, MonadStateOf.get, StateT.get, Pure.pure, StateT.pure]
  split
  · rfl
  · split <;> rfl

/-- The lexer that is moved answers as the one that is handed on. -/
theorem followWithin_fst (bound : Nat) (brackets : List Token) (previous : Token) (l : Lexer) :
    (Machine.followWithin bound brackets previous l).1 = followWithin bound brackets previous l := by
  induction bound generalizing brackets previous l with
  | zero => cases brackets <;> rfl
  | succ bound ih =>
      cases brackets with
      | nil => rfl
      | cons innermost outer =>
          unfold Machine.followWithin followWithin
          dsimp only [bind, StateT.bind, modify, modifyGet, MonadStateOf.modifyGet, StateT.modifyGet,
            get, getThe, MonadStateOf.get, StateT.get, pure, StateT.pure]
          generalize nextAfter previous l = next
          generalize next.token = t
          -- At a closing bracket both go through the same conditions.
          cases t <;> first
            | exact ih _ _ _
            | rfl
            | (dsimp only; split <;> first | exact ih _ _ _ | (split <;> first | exact ih _ _ _ | rfl))

instance mirrors_parenFollow :
    Mirrors levels Machine.parenFollow (do return parenFollow (← get).lexer) :=
  mirrors_lookThrough fun s => congrArg Pure.pure (followWithin_fst _ _ _ s.lexer).symm

/-! ## Nodes and names -/

instance mirrors_addNode (node : Node) : Mirrors levels (Machine.addNode node) (addNode node) :=
  mirrors_step (.step (fun _ => rfl) (fun _ => rfl) (fun _ => rfl) fun _ => rfl) fun _ _ _ => rfl

instance mirrors_finishWith (kind : NodeKind) (start : Nat) (slots : List Slot)
    (details : Details) :
    Mirrors levels (Machine.finishWith kind start slots details)
      (finishWith kind start slots details) := by
  unfold Machine.finishWith finishWith; infer_instance

instance mirrors_finish (kind : NodeKind) (start : Nat) (slots : List Slot) :
    Mirrors levels (Machine.finish kind start slots) (finish kind start slots) := by
  unfold Machine.finish finish; infer_instance

instance mirrors_updateNode (id : NodeId) (f : Node → Node) :
    Mirrors levels (Machine.updateNode id f) (updateNode id f) :=
  mirrors_step (.step (fun _ => rfl) (fun _ => rfl) (fun _ => rfl) fun _ => rfl) fun _ _ _ => rfl

instance mirrors_tokenAtom : Mirrors levels Machine.tokenAtom tokenAtom :=
  mirrors_step (.step (fun _ => rfl) (fun _ => rfl) (fun _ => rfl) fun _ => rfl) fun _ _ _ => rfl

instance mirrors_isIdentifier : Mirrors levels Machine.isIdentifier isIdentifier := by
  refine .step fun context => .step fun t => ?_
  cases t <;> infer_instance

instance mirrors_identifierName : Mirrors levels Machine.identifierName identifierName := by
  unfold Machine.identifierName identifierName; infer_instance

instance mirrors_identifier : Mirrors levels Machine.identifier identifier := by
  unfold Machine.identifier identifier; infer_instance

instance mirrors_literal : Mirrors levels Machine.literal literal := by
  unfold Machine.literal literal; infer_instance

instance mirrors_stringLiteral : Mirrors levels Machine.stringLiteral stringLiteral := by
  unfold Machine.stringLiteral stringLiteral; infer_instance

/-! ## Surroundings, attempts and levels of nesting -/

theorem Mirrors.withContext {change : Context → Context} {q : Machine α} {p : Parser α}
    (hp : Mirrors levels q p) :
    Mirrors levels (Machine.withContext change q) (withReader change p) where
  restores := hp.restores.withContext
  follows := hp.follows.withContext

instance mirrors_withContext (change : Context → Context) (q : Machine α) (p : Parser α)
    [hp : Mirrors levels q p] :
    Mirrors levels (Machine.withContext change q) (withReader change p) :=
  hp.withContext

instance mirrors_attempt (q : Machine α) (p : Parser α) [hp : Mirrors levels q p] :
    Mirrors levels (Machine.attempt q) (attempt p) where
  restores := hp.restores.attempt
  follows := hp.follows.attempt

theorem Mirrors.guarded {q : Machine NodeId} {p : Parser NodeId} (hp : Mirrors levels q p) :
    Mirrors (levels + 1) (Machine.guarded q) p where
  restores := .guarded restores_failTooDeep hp.restores
  follows := hp.follows.guarded

theorem mirrors_guarded_failTooDeep : Mirrors 0 (Machine.guarded Machine.failTooDeep) failTooDeep where
  restores := .guarded restores_failTooDeep restores_failTooDeep
  follows := .guarded_zero _

/-! ## Loops -/

theorem mirrors_iterateWithin {step : α → Machine (Option α)} {step' : α → Parser (Option α)}
    (h : ∀ a, Mirrors levels (step a) (step' a)) (bound : Nat) (a : α) :
    Mirrors levels (Machine.iterateWithin step bound a) (iterateWithin step' bound a) := by
  induction bound generalizing a with
  | zero => exact mirrors_failUnexpected
  | succ bound ih =>
      refine (h a).bind fun r => ?_
      cases r with
      | none => exact .pure a
      | some b => exact ih b

theorem Mirrors.iterate {step : α → Machine (Option α)} {step' : α → Parser (Option α)}
    (h : ∀ a, Mirrors levels (step a) (step' a)) (a : α) :
    Mirrors levels (Machine.iterate step a) (Grammar.iterate step' a) :=
  mirrors_bytesLeft.bind fun bound => mirrors_iterateWithin h (bound + 2) a

theorem Mirrors.collect {item : Machine (Option α)} {item' : Parser (Option α)}
    (h : Mirrors levels item item') :
    Mirrors levels (Machine.collect item) (Grammar.collect item') :=
  (Mirrors.iterate (fun _ => h.bind fun _ => .pure _) []).bind fun items => .pure items.reverse

instance mirrors_iterate (step : α → Machine (Option α)) (step' : α → Parser (Option α)) (a : α)
    [h : ∀ a, Mirrors levels (step a) (step' a)] :
    Mirrors levels (Machine.iterate step a) (iterate step' a) :=
  .iterate h a

instance mirrors_collect (item : Machine (Option α)) (item' : Parser (Option α))
    [h : Mirrors levels item item'] : Mirrors levels (Machine.collect item) (collect item') :=
  h.collect

instance mirrors_commaTerminated (close : Token) (item : Machine α) (item' : Parser α)
    [Mirrors levels item item'] :
    Mirrors levels (Machine.commaTerminated close item) (commaTerminated close item') := by
  unfold Machine.commaTerminated commaTerminated; infer_instance

instance mirrors_commaSeparated (item : Machine α) (item' : Parser α)
    [Mirrors levels item item'] :
    Mirrors levels (Machine.commaSeparated item) (commaSeparated item') := by
  unfold Machine.commaSeparated commaSeparated; infer_instance

instance mirrors_commaDelimited (close : Token) (item : Machine α) (item' : Parser α)
    [Mirrors levels item item'] :
    Mirrors levels (Machine.commaDelimited close item) (commaDelimited close item') := by
  unfold Machine.commaDelimited commaDelimited; infer_instance

theorem Mirrors.mapM {γ : Type} {g : γ → Machine α} {f : γ → Parser α}
    (h : ∀ item, Mirrors levels (g item) (f item)) (items : List γ) :
    Mirrors levels (items.mapM g) (items.mapM f) := by
  induction items with
  | nil => exact .pure []
  | cons item items ih =>
      rw [List.mapM_cons, List.mapM_cons]
      exact (h item).bind fun _ => ih.bind fun _ => .pure _

end FlowErasure.Grammar
