import FlowErasure.Proofs.Frame.Parsers
import FlowErasure.Proofs.Lookahead.Standing

/-!
# Where parsers move

`Moves p l Q` says that from a state whose lexer is `l` the parser `p` only answers where `Q` holds of
its answer and of the lexer it has moved to. With `At` for `Q`, this follows a parser along a scan.
`Still` parsers stay where they are.
-/

namespace FlowErasure.Grammar

variable {α β : Type} {l l' : Lexer}

/-- From the lexer `l`, an answer of the parser and the lexer where it is given satisfy `Q`. -/
def Moves (p : Parser α) (l : Lexer) (Q : α → Lexer → Prop) : Prop :=
  ∀ c s a s', s.lexer = l → p c s = .ok a s' → Q a s'.lexer

class Still (p : Parser α) : Prop where
  lexer : ∀ c s a s', p c s = .ok a s' → s'.lexer = s.lexer

class Tells (p : Parser α) (answer : outParam (Lexer → α)) : Prop where
  ok : ∀ c s, p c s = .ok (answer s.lexer) s

instance tells_pure (a : α) : Tells (pure a) fun _ => a := ⟨fun _ _ => rfl⟩

instance tells_token : Tells token Lexer.token := ⟨fun _ _ => rfl⟩

instance tells_isAt (t : Token) : Tells (isAt t) fun l => l.token == t := ⟨fun _ _ => rfl⟩

instance tells_isAtAny (ts : List Token) : Tells (isAtAny ts) fun l => ts.contains l.token :=
  ⟨fun _ _ => rfl⟩

instance tells_afterLineBreak : Tells afterLineBreak fun l => l.flags.lineBreakBefore :=
  ⟨fun _ _ => rfl⟩

instance tells_lookAhead (accepts : Token → Bool) :
    Tells (lookAhead accepts) fun l => accepts l.next.token := ⟨fun _ _ => rfl⟩

instance tells_canEndStatement : Tells canEndStatement fun l =>
    [.semicolon, .closeBrace, .endOfFile].contains l.token || l.flags.lineBreakBefore where
  ok c s := by
    unfold canEndStatement
    rw [bind_ok (Tells.ok c s)]
    cases [Token.semicolon, .closeBrace, .endOfFile].contains s.lexer.token <;> rfl

/-! ### Parsers that stay -/

theorem Still.bind {p : Parser α} {f : α → Parser β} (hp : Still p) (hf : ∀ a, Still (f a)) :
    Still (p >>= f) where
  lexer c s b s' hrun := by
    obtain ⟨a, s₁, hfirst, hrest⟩ := of_bind_ok hrun
    exact ((hf a).lexer c s₁ b s' hrest).trans (hp.lexer c s a s₁ hfirst)

instance still_bind (p : Parser α) (f : α → Parser β) [hp : Still p] [hf : ∀ a, Still (f a)] :
    Still (p >>= f) :=
  .bind hp hf

instance (priority := low) still_of_looks (p : Parser α) [hp : Looks p] : Still p where
  lexer c s a s' hrun := by
    obtain ⟨a', hlook⟩ := hp.ok c s
    rw [hlook] at hrun
    cases hrun
    rfl

instance (priority := low) still_of_fails (p : Parser α) [hp : Fails p] : Still p where
  lexer c s a s' hrun := by
    obtain ⟨e, s₁, herror⟩ := hp.error c s
    rw [herror] at hrun
    cases hrun

instance still_map (f : α → β) (p : Parser α) [Still p] : Still (f <$> p) :=
  still_bind p fun a => pure (f a)

instance still_ite (q : Prop) [Decidable q] (p p' : Parser α) [Still p] [Still p'] :
    Still (if q then p else p') := by
  split <;> infer_instance

instance still_addNode (node : Node) : Still (addNode node) :=
  ⟨fun _ _ _ _ hrun => by cases hrun; rfl⟩

instance still_finishWith (kind : NodeKind) (start : Nat) (slots : List Slot) (details : Details) :
    Still (finishWith kind start slots details) := by
  unfold finishWith; infer_instance

instance still_finish (kind : NodeKind) (start : Nat) (slots : List Slot) :
    Still (finish kind start slots) := by
  unfold finish; infer_instance

instance still_tokenAtom : Still tokenAtom :=
  ⟨fun _ _ _ _ hrun => by cases hrun; rfl⟩

instance still_updateNode (id : NodeId) (f : Node → Node) : Still (updateNode id f) :=
  ⟨fun _ _ _ _ hrun => by cases hrun; rfl⟩

/-- An error of the lexer is raised, or there is none. -/
instance still_raiseFault : Still raiseFault where
  lexer c s a s' hrun := by
    obtain ⟨_, _, hget, hrest⟩ := of_bind_ok hrun
    cases hget
    cases hfault : s.lexer.fault with
    | none =>
        rw [hfault] at hrest
        cases hrest
        rfl
    | some fault =>
        rw [hfault] at hrest
        obtain ⟨_, _, -, hfail⟩ := of_bind_ok hrest
        cases hfail

namespace Moves

variable {p p' : Parser α} {f : α → Parser β} {Q Q' : α → Lexer → Prop} {R : β → Lexer → Prop}

theorem mono (h : Moves p l Q) (himp : ∀ a l', Q a l' → Q' a l') : Moves p l Q' :=
  fun c s a s' hl hrun => himp a s'.lexer (h c s a s' hl hrun)

theorem trivial : Moves p l fun _ _ => True :=
  fun _ _ _ _ _ _ => .intro

theorem pure {a : α} (h : Q a l) : Moves (pure a) l Q := by
  rintro c s a' s' rfl hrun
  cases hrun
  exact h

theorem bind (hp : Moves p l Q) (hf : ∀ a l', Q a l' → Moves (f a) l' R) :
    Moves (p >>= f) l R := by
  intro c s b s' hl hrun
  obtain ⟨a, s₁, hfirst, hrest⟩ := of_bind_ok hrun
  exact hf a s₁.lexer (hp c s a s₁ hl hfirst) c s₁ b s' rfl hrest

theorem mapTo {g : α → β} (hp : Moves p l Q) (himp : ∀ a l', Q a l' → R (g a) l') :
    Moves (g <$> p) l R :=
  hp.bind fun a l' ha => .pure (himp a l' ha)

theorem map {g : α → β} {E : Lexer → Prop} (hp : Moves p l fun _ => E) :
    Moves (g <$> p) l fun _ => E :=
  hp.mapTo fun _ _ he => he

theorem still [hp : Still p] (hf : ∀ a, Moves (f a) l R) : Moves (p >>= f) l R := by
  intro c s b s' hl hrun
  obtain ⟨a, s₁, hfirst, hrest⟩ := of_bind_ok hrun
  exact hf a c s₁ b s' ((hp.lexer c s a s₁ hfirst).trans hl) hrest

theorem stay [hp : Still p] (h : ∀ a, Q a l) : Moves p l Q := by
  rintro c s a s' rfl hrun
  rw [hp.lexer c s a s' hrun]
  exact h a

theorem told {answer : Lexer → α} [hp : Tells p answer] (h : Q (answer l) l) : Moves p l Q := by
  rintro c s a s' rfl hrun
  rw [hp.ok c s] at hrun
  cases hrun
  exact h

theorem tell {answer : Lexer → α} [hp : Tells p answer] (hf : Moves (f (answer l)) l R) :
    Moves (p >>= f) l R := by
  rintro c s b s' rfl hrun
  rw [bind_ok (hp.ok c s)] at hrun
  exact hf c s b s' rfl hrun

theorem fail [hp : Fails p] : Moves p l Q := by
  intro c s a s' _ hrun
  obtain ⟨e, s₁, herror⟩ := hp.error c s
  rw [herror] at hrun
  cases hrun

theorem ite {q : Prop} [Decidable q] (h : q → Moves p l Q) (h' : ¬q → Moves p' l Q) :
    Moves (if q then p else p') l Q :=
  iteInduction (motive := fun p => Moves p l Q) h h'

theorem check {q : Prop} [Decidable q] {p : Parser Unit} {f : Unit → Parser β} [hp : Fails p]
    (hf : ¬q → Moves (f ()) l R) : Moves (if q then p >>= f else f ()) l R :=
  .ite (fun _ => .bind (Q := fun _ _ => False) .fail fun _ _ h => h.elim) hf

theorem join {q : Prop} [Decidable q] {E : Lexer → Prop} (hp : q → Moves p l fun _ => E)
    (hp' : ¬q → Moves p' l fun _ => E) (hf : ∀ a l', E l' → Moves (f a) l' R) :
    Moves (if q then p >>= f else p' >>= f) l R :=
  .ite (fun h => (hp h).bind hf) fun h => (hp' h).bind hf

theorem optional {q : Prop} [Decidable q] {p : Parser Unit} {f : Unit → Parser β}
    {E : Lexer → Prop} (hp : q → Moves p l fun _ => E) (hskip : ¬q → E l)
    (hf : ∀ l', E l' → Moves (f ()) l' R) : Moves (if q then p >>= f else f ()) l R :=
  .ite (fun h => (hp h).bind fun _ => hf) fun h => hf l (hskip h)

theorem withReader {g : Context → Context} (h : Moves p l Q) : Moves (withReader g p) l Q :=
  fun c s a s' hl hrun => h (g c) s a s' hl hrun

/-- Whether a token is a name here depends on the surroundings too. -/
theorem isIdentifier {f : Bool → Parser β}
    (hf : ∀ named, (named = true → l.token.isName) → Moves (f named) l R) :
    Moves (isIdentifier >>= f) l R := by
  have hanswer : Moves Grammar.isIdentifier l fun b l' => l' = l ∧ (b = true → l.token.isName) := by
    unfold Grammar.isIdentifier
    refine .still fun context => .tell ?_
    split
    · rename_i htoken
      exact .pure ⟨rfl, fun _ => by rw [htoken]; decide⟩
    · rename_i htoken
      exact .pure ⟨rfl, fun _ => by rw [htoken]; decide⟩
    · exact .pure ⟨rfl, id⟩
  exact hanswer.bind fun named l' h => h.1 ▸ hf named h.2

theorem change {g : Lexer → Lexer} {m : State → State} {Q : PUnit → Lexer → Prop}
    (hm : ∀ s, (m s).lexer = g s.lexer) (h : Q () (g l)) : Moves (modify m) l Q := by
  rintro c s _ s' rfl hrun
  cases hrun
  rw [hm]
  exact h

theorem advance {Q : Unit → Lexer → Prop} (h : Q () l.next) : Moves advance l Q :=
  .bind (.change (g := Lexer.next) (Q := fun _ l' => l' = l.next) (fun _ => rfl) rfl)
    fun _ _ hl => .stay fun _ => hl ▸ h

theorem rereadSlash {Q : Unit → Lexer → Prop} (h : Q () l.rereadSlash) : Moves rereadSlash l Q :=
  .bind (.change (g := Lexer.rereadSlash) (Q := fun _ l' => l' = l.rereadSlash) (fun _ => rfl) rfl)
    fun _ _ hl => .stay fun _ => hl ▸ h

theorem rereadBrace {Q : Unit → Lexer → Prop} (h : Q () l.rereadBrace) : Moves rereadBrace l Q :=
  .bind (.change (g := Lexer.rereadBrace) (Q := fun _ l' => l' = l.rereadBrace) (fun _ => rfl) rfl)
    fun _ _ hl => .stay fun _ => hl ▸ h

theorem rereadGreater {Q : PUnit → Lexer → Prop} (h : Q () l.rereadGreater) :
    Moves rereadGreater l Q :=
  .change (fun _ => rfl) h

theorem expect {t : Token} {Q : Unit → Lexer → Prop} (h : l.token = t → Q () l.next) :
    Moves (expect t) l Q := by
  refine .tell (.ite (fun ht => .advance (h ?_)) fun _ => .fail)
  simpa using ht

/-! ### Speculation and loops -/

theorem attempt {P : Option α → Lexer → Prop} (h : Moves p l fun a l' => P (some a) l')
    (hnone : P none l) : Moves (attempt p) l P := by
  rintro c s a s' rfl hrun
  cases a with
  | none =>
      obtain ⟨e, s₁, -, rfl⟩ := of_attempt_none hrun
      exact hnone
  | some a => exact h c s a s' rfl (of_attempt_some hrun)

/-- What is known is where the lexer is. -/
def moving : Logic (Lexer → Prop) where
  Holds I p Q := ∀ l, I l → Moves p l Q
  pure _ _ _ ha := .pure ha
  bind hp hf l hl := (hp l hl).bind fun a l' ha => hf a l' ha
  mono hp hI hQ l hl := (hp l (hI l hl)).mono fun a l' ha => hQ a l' ha
  get _ _ hl := .stay fun _ => hl
  stuck _ _ _ _ := .fail

variable {step : α → Parser (Option α)} {item : Parser (Option α)}

/-- A loop keeps what its rounds keep, and ends where a round has no answer. -/
theorem iterate {I E : α → Lexer → Prop} {a : α} (ha : I a l)
    (hstep : ∀ a l, I a l → Moves (step a) l fun r l' => r.elim (E a l') fun b => I b l') :
    Moves (iterate step a) l E := by
  refine moving.iterate (I := I) (E := E) (fun a l ha => (hstep a l ha).mono fun r l' hr => ?_) a l ha
  cases r <;> exact hr

theorem collect {I E : Lexer → Prop} (hl : I l)
    (h : ∀ l, I l → Moves item l fun r l' => r.elim (E l') fun _ => I l') :
    Moves (collect item) l fun _ l' => E l' := by
  refine moving.collect (I := fun _ => I) (E := fun _ => E)
    (fun _ l hl => (h l hl).mono fun r l' hr => ?_) l hl
  cases r <;> exact hr

end Moves

/-! ## Tokens in a scan -/

variable {follow : ParenFollow} {b b' : Bracket} {st : List Bracket} {K : Scan → Prop}

open Scan

namespace At

theorem consume {t : Token} (h : At follow (b :: st) K l) (hl : l.token = t) (ht : isOrdinary t) :
    Moves advance l fun _ l' => At follow (b :: st) (After t) l' := by
  subst hl
  exact .advance (h.ordinary ht)

theorem expect {t : Token} (h : At follow (b :: st) K l) (ht : isOrdinary t) :
    Moves (expect t) l fun _ l' => At follow (b :: st) (After t) l' :=
  .expect fun hl => hl ▸ h.ordinary (hl ▸ ht)

theorem accepts {t : Token} (h : At follow (b :: st) K l) (ht : isOrdinary t) :
    Moves (Grammar.accept t) l fun r l' =>
      if r then At follow (b :: st) (After t) l' else l' = l ∧ l.token ≠ t := by
  refine .tell (.ite (fun hl => ?_) fun hl => .pure ⟨rfl, by simpa using hl⟩)
  exact (h.consume (by simpa using hl) ht).bind fun _ l' h => .pure h

theorem accept {t : Token} {f : Bool → Parser β} {R : β → Lexer → Prop}
    (h : At follow (b :: st) K l) (ht : isOrdinary t)
    (hf : ∀ l', At follow (b :: st) (After t) l' → Moves (f true) l' R)
    (hf' : l.token ≠ t → Moves (f false) l R) : Moves (Grammar.accept t >>= f) l R := by
  refine (h.accepts ht).bind fun r l' hr => ?_
  cases r with
  | false => exact hr.1 ▸ hf' hr.2
  | true => exact hf l' hr

theorem acceptAny {t : Token} (h : At follow (b :: st) K l) (ht : isOrdinary t) :
    Moves (Grammar.accept t) l fun _ l' => At follow (b :: st) Any l' := by
  refine .tell (.ite (fun hl => ?_) fun hl => .pure h.any)
  exact (h.consume (by simpa using hl) ht).bind fun _ l' h => .pure h.any

theorem word (h : At follow (b :: st) K l) (hl : l.token.isWord) :
    Moves advance l fun _ l' => At follow (b :: st) (Beyond K l.token) l' :=
  .advance (h.beyond (isOrdinary_of_isWord hl))

/-- A word that is looked at closer before it is taken for a modifier. -/
theorem modifier {t : Token} {q : Prop} [Decidable q] {look : Parser Bool} [Still look]
    {rest : Bool → Unit → Parser β} {R : β → Lexer → Prop} (h : At follow (b :: st) Any l)
    (hq : q → l.token = t) (ht : isOrdinary t)
    (hrest : ∀ present l', At follow (b :: st) Any l' → Moves (rest present ()) l' R) :
    Moves (if q then look >>= fun present => if present then advance >>= rest present
        else rest present ()
      else pure false >>= fun present => if present then advance >>= rest present
        else rest present ()) l R := by
  refine .ite (fun hl => .still fun present => ?_) fun _ => .tell ?_
  · refine .optional (E := At follow (b :: st) Any) (fun _ => ?_) (fun _ => h) (hrest present)
    exact (h.consume (hq hl) ht).mono fun _ _ h => h.any
  · exact hrest false l h

/-! ### Brackets -/

theorem overOpen {t : Token} (h : At follow (b :: st) K l) (hl : l.token = t)
    (ht : opensBracket t) :
    Moves advance l fun _ l' => ∃ ofHead, At follow (⟨t, ofHead⟩ :: b :: st) (After t) l' := by
  subst hl
  obtain ⟨scan, -, h⟩ := h.opens ht
  exact .advance ⟨_, h⟩

theorem overClose {t : Token} (h : At follow (b :: st) K l) (hl : l.token = t)
    (ht : opener? t = some b.token) :
    Moves advance l fun _ l' =>
      At follow st (fun scan => scan.previous = t ∧ scan.closedHead = b.ofHead) l' := by
  subst hl
  exact .advance (h.closes ht)

theorem expectOpen {t : Token} (h : At follow (b :: st) K l) (ht : opensBracket t) :
    Moves (Grammar.expect t) l fun _ l' =>
      ∃ ofHead, At follow (⟨t, ofHead⟩ :: b :: st) (After t) l' :=
  .tell (.ite (fun hl => h.overOpen (by simpa using hl) ht) fun _ => .fail)

/-- A parenthesis after a token that says whether a statement's head starts. -/
theorem expectHead {t : Token} (h : At follow (b :: st) (After t) l) :
    Moves (Grammar.expect .openParen) l fun _ l' =>
      At follow (⟨.openParen, startsHead t⟩ :: b :: st) (After .openParen) l' := by
  refine .expect fun hl => ?_
  obtain ⟨scan, rfl, hopened⟩ := h.opens (by rw [hl]; rfl)
  rw [hl] at hopened
  exact hopened

theorem expectClose {t : Token} (h : At follow (b :: st) K l) (ht : opener? t = some b.token) :
    Moves (Grammar.expect t) l fun _ l' =>
      At follow st (fun scan => scan.previous = t ∧ scan.closedHead = b.ofHead) l' :=
  .tell (.ite (fun hl => h.overClose (by simpa using hl) ht) fun _ => .fail)

theorem close {t : Token} (h : At follow (b :: st) K l) (ht : opener? t = some b.token) :
    Moves (Grammar.expect t) l fun _ l' => At follow st (After t) l' :=
  (h.expectClose ht).mono fun _ _ h => h.mono fun _ _ hscan => hscan.1

/-- After the closing brace no slash comes. -/
theorem overBrace (h : At follow (b :: st) K l) (hl : l.token = .closeBrace)
    (hb : b.token = .openBrace) : Moves advance l fun _ l' => At follow st Clear l' := by
  refine (h.overClose hl (by rw [hb]; rfl)).mono fun _ _ h => ?_
  have hafter : At follow st (After .closeBrace) _ := h.mono fun _ _ hscan => hscan.1
  exact hafter.clear_of_after rfl

/-! ### Names, literals and the ends of statements -/

theorem identifierName (h : At follow (b :: st) K l) :
    Moves identifierName l fun _ l' => At follow (b :: st) (Beyond K l.token) l' := by
  refine .tell (.check fun hword => .still fun start => .still fun atom => ?_)
  exact (h.word (by simpa using hword)).bind fun _ l' h => .stay fun _ => h

theorem anyName (h : At follow (b :: st) K l) :
    Moves Grammar.identifierName l fun _ l' => At follow (b :: st) Any l' :=
  h.identifierName.mono fun _ _ h => h.any

theorem property (h : At follow (b :: st) (After .dot) l) :
    Moves Grammar.identifierName l fun _ l' => At follow (b :: st) Ended l' :=
  h.identifierName.mono fun _ _ h => h.ended_of_dot

theorem identifier (h : At follow (b :: st) K l) :
    Moves identifier l fun _ l' => At follow (b :: st) Ended l' := by
  refine .isIdentifier fun named hnamed => .ite (fun hname => ?_) fun _ => .fail
  refine h.identifierName.mono fun _ l' h => ?_
  have hafter : At follow (b :: st) (After l.token) l' := h.mono fun _ _ hbeyond => hbeyond.1
  exact hafter.ended (by unfold endsOperand; simp [hnamed hname])

theorem literal {t : Token} (h : At follow (b :: st) K l) (hl : l.token = t) (ht : isOrdinary t) :
    Moves literal l fun _ l' => At follow (b :: st) (After t) l' :=
  .still fun _ => .tell ((h.consume hl ht).bind fun _ _ h => .stay fun _ => h)

theorem stringLiteral (h : At follow (b :: st) K l) :
    Moves stringLiteral l fun _ l' => At follow (b :: st) Any l' := by
  refine .tell (.ite (fun hl => ?_) fun _ => .fail)
  exact (h.literal (by simpa using hl) (by decide)).mono fun _ _ h => h.any

theorem endStatement (h : At follow (b :: st) K l) (hb : b.token = .openBrace) :
    Moves endStatement l fun _ l' => At follow (b :: st) Fresh l' := by
  refine .tell (.ite (fun hl => ?_) fun _ => .tell (.ite (fun hl => .pure ?_) fun _ => .fail))
  · exact (h.consume (by simpa using hl) (by decide)).mono fun _ _ h => h.fresh (by decide)
  · obtain hl | hl := Bool.or_eq_true _ _ ▸ hl
    · refine (h.clear ?_).fresh_of_clear
      simp at hl
      obtain hl | hl | hl := hl
      all_goals rw [hl]; rfl
    · exact h.fresh_of_lineBreak hb hl

/-- In the body of a class it is no matter what comes next. -/
theorem endMember (h : At follow (b :: st) K l) :
    Moves Grammar.endStatement l fun _ l' => At follow (b :: st) Any l' := by
  refine .tell (.ite (fun hl => ?_) fun _ => .tell (.ite (fun hl => .pure h.any) fun _ => .fail))
  exact (h.consume (by simpa using hl) (by decide)).mono fun _ _ h => h.any

/-! ### Lists -/

variable {item : Parser α} {one : Parser NodeId}

theorem commaTerminated {close : Token} (h : At follow (b :: st) Fresh l)
    (hclose : isSlash close = false)
    (hitem : ∀ l, At follow (b :: st) Fresh l → Moves item l fun _ l' => At follow (b :: st) Any l') :
    Moves (commaTerminated close item) l fun _ l' => At follow (b :: st) Any l' := by
  refine .mono (Moves.moving.commaTerminated (I := fun _ => At follow (b :: st) Fresh)
    (J := fun _ => At follow (b :: st) Any) (fun _ => hitem) (fun _ l h => ?_)
    (fun _ l h => (h.expect (by decide)).mono fun _ _ h => h.fresh (by decide)) l h) fun _ _ h => h.any
  refine .told ?_
  split
  · have hl : l.token = close := by simpa using ‹(l.token == close) = true›
    exact (h.clear (hl ▸ hclose)).fresh_of_clear
  · exact h

theorem afterComma (h : At follow (b :: st) K l)
    (hitem : ∀ l, At follow (b :: st) Fresh l → Moves item l fun _ l' => At follow (b :: st) K l') :
    Moves (Grammar.collect do if ← Grammar.accept .comma then some <$> item else return none) l
      fun _ l' => At follow (b :: st) K l' := by
  refine Moves.moving.afterComma (I := fun _ => At follow (b :: st) K)
    (J := fun _ => At follow (b :: st) Fresh) (fun _ => hitem) (fun _ l h => ?_) l h
  refine (h.accepts (by decide)).mono fun more l' hmore => ?_
  cases more with
  | false => exact hmore.1 ▸ h
  | true => exact At.fresh hmore (by decide)

theorem commaSeparated (h : At follow (b :: st) Any l)
    (hitem : ∀ l, At follow (b :: st) Any l → Moves item l fun _ l' => At follow (b :: st) Any l') :
    Moves (commaSeparated item) l fun _ l' => At follow (b :: st) Any l' :=
  (hitem l h).bind fun _ _ h => (h.afterComma fun l h => hitem l h.any).bind fun _ _ h => .pure h

theorem commaDelimited {close : Token} (h : At follow (b :: st) Any l)
    (hitem : ∀ l, At follow (b :: st) Any l → Moves item l fun _ l' => At follow (b :: st) Any l') :
    Moves (commaDelimited close item) l fun _ l' => At follow (b :: st) Any l' :=
  Moves.moving.commaDelimited (I := fun _ => At follow (b :: st) Any)
    (J := fun _ => At follow (b :: st) Any) (fun _ => hitem)
    (fun _ _ h => h.acceptAny (by decide)) l h

end At

end FlowErasure.Grammar
