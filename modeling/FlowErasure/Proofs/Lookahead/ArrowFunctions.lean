import FlowErasure.Proofs.Frame.Speculation
import FlowErasure.Proofs.Lookahead.Statements

/-!
# Arrow functions without a look ahead

Where an expression starts with a parenthesis, `parenFollow` decides whether the head of an arrow
function is tried. Here the grammar takes any look in its place. One that never tells anything has
every head tried, and if no slash in the list is disputed, the look past the list makes no
difference: where it refuses to try, there is no head to be read.
-/

namespace FlowErasure

namespace Grammar

/-! ## The grammar by another look -/

/-- Can an arrow function start here? What follows a parenthesis is told by `look`. -/
def startsArrowFunctionBy (look : Lexer → ParenFollow) (tail : Bool) : Parser Bool := do
  if ← isAt .openParen then
    let found := look (← get).lexer
    return found == .arrow || found == .unknown || (found == .colon && !tail)
  else startsArrowFunction tail

def arrowFunctionTried (inner : Nested) (tail : Bool) : Parser (Option NodeId) := do
  let start ← tokenStart
  let head? ← tryArrowHead inner tail
  head?.elim (return none) fun head => do
    let expressionBody := !(← isAt .openBrace)
    let body ← arrowBody inner head.isAsync tail
    finishWith .arrowFunctionExpression start
      [.ofOption head.typeParameters, head.params, .ofOption head.returnType, .node body]
      { flags := { async := head.isAsync, expressionBody } }

def arrowFunctionBy (look : Lexer → ParenFollow) (inner : Nested) (tail : Bool) :
    Parser (Option NodeId) := do
  if ← startsArrowFunctionBy look tail then arrowFunctionTried inner tail else return none

def assignmentBy (look : Lexer → ParenFollow) (inner : Nested) : Parser NodeId := do
  let tail := (← read).conditionalTail
  withReader ({ · with conditionalTail := false }) do
    if (← isAt .yieldKeyword) && (← read).inGenerator then yieldExpression inner
    else
      let arrow? ← arrowFunctionBy look inner tail
      arrow?.elim (operation inner tail) fun arrow => return arrow

/-- The rules with `depth` levels of nesting, all of which go by `look`. -/
def Nested.withinBy (look : Lexer → ParenFollow) : Nat → Nested
  | 0 => .exhausted
  | depth + 1 =>
    let inner := Nested.withinBy look depth
    { statement := Grammar.statement inner
      assignment := Grammar.assignmentBy look inner
      binary := Grammar.binary inner
      unary := Grammar.unary inner
      construction := Grammar.construction inner
      bindingTarget := Grammar.bindingTarget inner
      classMember := Grammar.classMember inner
      type := Grammar.unionType inner
      prefixType := Grammar.prefixType inner
      primaryType := Grammar.primaryType inner
      typeMember := Grammar.typeMember inner }

theorem startsArrowFunctionBy_parenFollow :
    startsArrowFunctionBy parenFollow = startsArrowFunction := by
  funext tail c s
  unfold startsArrowFunctionBy
  rw [bind_ok (Tells.ok c s)]
  split
  · rename_i hl
    unfold startsArrowFunction
    rw [bind_ok (p := token) (Tells.ok c s), eq_of_beq hl]
    dsimp only
    rw [bind_ok (p := get) (a := s) rfl, bind_ok (p := get) (a := s) rfl]
    cases parenFollow s.lexer <;> rfl
  · rfl

theorem arrowFunctionBy_parenFollow : arrowFunctionBy parenFollow = arrowFunction? := by
  funext inner tail
  unfold arrowFunctionBy arrowFunction?
  rw [startsArrowFunctionBy_parenFollow]
  refine bind_congr fun starts => ?_
  cases starts with
  | false => rfl
  | true =>
      refine bind_congr fun start => bind_congr fun head => ?_
      cases head <;> rfl

theorem assignmentBy_parenFollow : assignmentBy parenFollow = assignment := by
  funext inner
  unfold assignmentBy assignment
  rw [arrowFunctionBy_parenFollow]
  refine bind_congr fun context => congrArg (withReader _) (bind_congr fun atYield => ?_)
  refine bind_congr fun context' => ?_
  split
  · rfl
  · refine bind_congr fun arrow => ?_
    cases arrow <;> rfl

theorem withinBy_parenFollow : Nested.withinBy parenFollow = Nested.within := by
  funext depth
  induction depth with
  | zero => rfl
  | succ depth ih => rw [Nested.withinBy, Nested.within, ih, assignmentBy_parenFollow]

/-! ## What these rules keep -/

section Keeping

variable {base : Tree} {inner : Nested} (hin : inner.Keeping base) (look : Lexer → ParenFollow)

instance looks_startsArrowFunctionBy (tail : Bool) : Looks (startsArrowFunctionBy look tail) := by
  unfold startsArrowFunctionBy; infer_instance

include hin

theorem keeps_arrowFunctionTried (tail : Bool) :
    Keeps base (arrowFunctionTried inner tail) Option.toList := by
  refine .quiet fun start => (keeps_arrowHeadBefore hin tail).attempt.bind fun head hhead => ?_
  cases head with
  | none => exact .pure (by simp)
  | some head =>
      refine .quiet fun _ => (keeps_arrowBody hin head.isAsync tail).bind fun body hbody => ?_
      refine (Keeps.finishWith ?_).map (by simp)
      simp_all [ArrowHead.nodes]

theorem keeps_assignmentBy : KeepsRule base (assignmentBy look inner) := by
  refine .quiet fun c => .withReader (.quiet fun _ => .quiet fun _ => ?_)
  refine .ite (keeps_yieldExpression hin) ?_
  have harrow : Keeps base (arrowFunctionBy look inner c.conditionalTail) Option.toList :=
    .quiet fun _ => .ite (keeps_arrowFunctionTried hin _) (.pure (by simp))
  refine harrow.bind fun arrow harrow => ?_
  cases arrow with
  | none => exact keeps_operation hin _
  | some arrow => exact .pure (by simpa using harrow)

omit hin in
theorem keeps_withinBy (base : Tree) (depth : Nat) : (Nested.withinBy look depth).Keeping base := by
  induction depth with
  | zero => exact keeps_exhausted
  | succ depth ih =>
      exact {
        statement := keeps_statement ih
        assignment := keeps_assignmentBy ih look
        binary := keeps_binary ih
        unary := keeps_unary ih
        construction := keeps_construction ih
        bindingTarget := keeps_bindingTarget ih
        classMember := keeps_classMember ih
        type := keeps_unionType ih
        prefixType := keeps_prefixType ih
        primaryType := keeps_primaryType ih
        typeMember := keeps_typeMember ih }

end Keeping

/-! ## Where these rules move -/

section Moving

open Scan

variable {follow : ParenFollow} {b : Bracket} {st : List Bracket} {l : Lexer} {inner : Nested}
  (hin : inner.Follows follow) (look : Lexer → ParenFollow)

theorem moves_startsArrowFunctionBy (l : Lexer) (tail : Bool) :
    Moves (startsArrowFunctionBy look tail) l fun starts l' =>
      l' = l ∧ (starts = true → Lexer.startsNoOperand l.token = false) := by
  refine .tell (.ite (fun hl => .stay fun _ => ⟨rfl, fun _ => ?_⟩) fun _ => ?_)
  · rw [eq_of_beq hl]
    rfl
  · exact moves_startsArrowFunction l tail

include hin

/-- An arrow function is read to its end, or nothing is read. -/
theorem moves_arrowFunctionBy (h : Opens follow (b :: st) l) (tail : Bool) :
    Moves (arrowFunctionBy look inner tail) l fun r l' =>
      r.elim (Opens follow (b :: st) l') fun _ => At follow (b :: st) Ended l' := by
  refine (moves_startsArrowFunctionBy look l tail).bind ?_
  rintro starts _ ⟨rfl, hstarts⟩
  refine .ite (fun hstarted => .still fun start => ?_) fun _ => .pure h
  have hfresh : At follow (b :: st) Fresh _ := h.fresh rfl (hstarts hstarted)
  refine .bind (Q := fun r l' => r.elim (Opens follow (b :: st) l')
    fun _ => At follow (b :: st) (After .arrow) l') (.attempt ?_ h) ?_
  · exact (moves_arrowHead hin hfresh).bind fun head l h => .check fun _ => .pure h
  · intro head l h
    cases head with
    | none => exact .pure h
    | some head =>
        refine .tell ((moves_arrowBody hin h head.isAsync tail).bind fun body l h => ?_)
        exact .still fun id => .pure h

theorem reads_assignmentBy : ReadsOperand follow (assignmentBy look inner) := by
  intro b st l h
  refine .still fun c => .withReader (.tell (.still fun context => .ite (fun hl => ?_) fun _ => ?_))
  · have hl : l.token = .yieldKeyword := by
      simp only [Bool.and_eq_true, beq_iff_eq] at hl
      exact hl.1
    exact moves_yieldExpression hin (h.fresh hl rfl) hl
  · refine (moves_arrowFunctionBy hin look h _).bind fun arrow l h => ?_
    cases arrow with
    | none => exact reads_operation hin _ h
    | some arrow => exact .pure h

omit hin in
theorem follows_withinBy (follow : ParenFollow) (depth : Nat) :
    (Nested.withinBy look depth).Follows follow := by
  induction depth with
  | zero => exact follows_exhausted follow
  | succ depth ih =>
      exact {
        statement := moves_statement ih
        assignment := reads_assignmentBy ih look
        binary := reads_binary ih
        unary := reads_unary ih
        construction := moves_construction ih
        bindingTarget := passes_bindingTarget ih
        classMember := passes_classMember ih
        type := passes_unionType ih
        prefixType := passes_prefixType ih
        primaryType := passes_primaryType ih
        typeMember := passes_typeMember ih }

end Moving

/-! ## The head of an arrow function -/

section Declining

open Scan

variable {follow : ParenFollow} {K : Scan → Prop} {l : Lexer} {inner : Nested}

/-- Where all brackets are closed, the look has been at this token. -/
theorem At.follow_of_closed (h : At follow [] K l) :
    (l.token = .arrow → follow = .arrow) ∧ (l.token = .colon → follow = .colon) := by
  obtain ⟨scan, bound, hforesees, hst, -, hbefore⟩ := h
  obtain ⟨bound', rfl⟩ := hforesees.pos
  have hfollow := hforesees.follows
  unfold Scan.follow at hfollow
  rw [hst] at hfollow
  constructor
  all_goals
    intro hl
    rw [hbefore.eq (by rw [hl]; rfl)] at hl
    simp [← hfollow, followWithin, hl]

/-- What has been found after the list tells that no arrow function starts here. At the end of a
conditional's first branch, a colon tells that too. -/
def declinesHead (found : ParenFollow) (tail : Bool) : Bool :=
  found == .other || (found == .colon && tail)

theorem at_ofParen (hknown : parenFollow l ≠ .unknown)
    (hsettled : (Scan.ofParen l).settled (l.bytesLeft + 2)) :
    At (parenFollow l) [⟨.openParen, false⟩] (After .openParen) l.next :=
  ⟨ofParen l, l.bytesLeft + 2, ⟨hknown, follow_ofParen l, hsettled⟩, rfl, rfl, .inl rfl⟩

theorem moves_ascription? (inner : Nested) (l : Lexer) :
    Moves (ascription? inner) l fun type l' => if type.isSome then l.token = .colon else l' = l := by
  refine .tell (.ite (fun _ => .pure rfl) fun hl => .still fun start => ?_)
  have hl : l.token = .colon := by simpa using hl
  refine .bind (Q := fun _ _ => True) .trivial fun _ _ _ => ?_
  refine .bind (Q := fun _ _ => True) .trivial fun type _ _ => ?_
  exact .bind (Q := fun _ _ => True) .trivial fun _ _ _ => .pure hl

/-- Where the look declines, no head is read, or one with a type that must not be there. -/
theorem moves_declinedHead (hin : inner.Follows (parenFollow l)) (hl : l.token = .openParen)
    (hsettled : (Scan.ofParen l).settled (l.bytesLeft + 2)) {tail : Bool}
    (hdeclines : declinesHead (parenFollow l) tail) :
    Moves (arrowHead inner) l fun head _ => (tail && head.returnType.isSome) = true := by
  have hfollow : parenFollow l = .other ∨ (parenFollow l = .colon ∧ tail = true) := by
    simpa [declinesHead] using hdeclines
  have hat : At (parenFollow l) [⟨.openParen, false⟩] (After .openParen) l.next :=
    at_ofParen (by rintro hunknown; simp [hunknown] at hfollow) hsettled
  have hplain : Moves (parameterListHead inner false) l fun head _ =>
      (tail && head.returnType.isSome) = true := by
    refine .bind (Q := fun _ l' => l' = l) (.tell (.ite (fun _ => .pure rfl) fun hless => ?_)) ?_
    · simp [hl] at hless
    rintro typeParameters _ rfl
    refine (moves_parameterList hin rfl fun _ => hat.any).withReader.bind fun params l₁ h => ?_
    obtain ⟨harrow, hcolon⟩ := h.follow_of_closed
    refine (moves_ascription? inner l₁).bind fun returnType l₂ htype => ?_
    cases returnType with
    | some type =>
        refine .bind (Q := fun _ _ => True) .trivial fun _ _ _ => .pure ?_
        have hfound := hcolon htype
        simpa [hfound] using hfollow
    | none =>
        obtain rfl : l₂ = l₁ := htype
        refine .bind (Q := fun _ _ => False) ?_ fun _ _ h => h.elim
        refine .tell (.check fun hl => ?_)
        have hfound := harrow (by simpa using hl)
        simp [hfound] at hfollow
  refine .bind (Q := fun single l' => l' = l ∧ single = false) ?_ ?_
  · refine .isIdentifier fun named hnamed => .ite (fun hname => ?_) fun _ => .pure ⟨rfl, rfl⟩
    have hname := hnamed hname
    rw [hl] at hname
    cases hname
  rintro single l' ⟨rfl, rfl⟩
  refine .tell ?_
  extract_lets rest
  have hrest : Moves (rest false) l' fun head _ => (tail && head.returnType.isSome) = true := hplain
  refine .ite (fun hasync => ?_) fun _ => .tell hrest
  simp [hl] at hasync

end Declining

/-! ## With the look and without -/

section Alike

variable {look : Lexer → ParenFollow} {inner : Nested} {tail : Bool} {c : Context} {s : State}

/-- At a parenthesis a head is tried unless the look declines it. -/
theorem arrowFunctionBy_eq (hl : s.lexer.token = .openParen) :
    arrowFunctionBy look inner tail c s =
      if declinesHead (look s.lexer) tail then .ok none s
      else arrowFunctionTried inner tail c s := by
  have hstarts : startsArrowFunctionBy look tail c s =
      .ok (!declinesHead (look s.lexer) tail) s := by
    unfold startsArrowFunctionBy
    rw [bind_ok (Tells.ok c s), hl]
    simp only [beq_self_eq_true, if_true]
    rw [bind_ok (p := get) (a := s) rfl]
    cases look s.lexer <;> rfl
  unfold arrowFunctionBy
  rw [bind_ok hstarts]
  cases declinesHead (look s.lexer) tail <;> rfl

theorem attempt_eq_none {α : Type} {p : Parser α} (h : Moves p s.lexer fun _ _ => False) :
    ∃ s', attempt p c s = .ok none s' := by
  cases hrun : p c s with
  | ok a s₁ => exact (h c s a s₁ rfl hrun).elim
  | error e s₁ => exact ⟨_, attempt_error hrun⟩

/-- Where the look declines, trying a head comes to the same. -/
theorem arrowFunctionTried_of_declines (look : Lexer → ParenFollow) (depth : Nat)
    (hl : s.lexer.token = .openParen)
    (hsettled : (Scan.ofParen s.lexer).settled (s.lexer.bytesLeft + 2))
    (hdeclines : declinesHead (parenFollow s.lexer) tail) :
    ∃ s', arrowFunctionTried (.withinBy look depth) tail c s = .ok none s' ∧ s.SameButNames s' := by
  have hhead := moves_declinedHead (follows_withinBy look _ depth) hl hsettled hdeclines
  obtain ⟨s', hattempt⟩ : ∃ s', tryArrowHead (.withinBy look depth) tail c s = .ok none s' :=
    attempt_eq_none (hhead.bind fun head _ htype => .check fun hnot => (hnot htype).elim)
  refine ⟨s', ?_, ?_⟩
  · unfold arrowFunctionTried
    rw [bind_ok (p := tokenStart) (a := s.lexer.start) rfl, bind_ok hattempt]
    rfl
  · exact sameButNames_of_attempt
      (keeps_arrowHeadBefore (keeps_withinBy look s.tree depth) tail) hattempt

abbrev Search := EStateM.Result Failure State (Option NodeId)

/-- Two searches end alike, but for names that only the second has met. -/
inductive Search.Alike : Search → Search → Prop where
  | same (r : Search) : Alike r r
  | none {s s' : State} (h : s.SameButNames s') : Alike (.ok none s) (.ok none s')

/-- The two differ only where the look declines, so only there must a head have been tried in vain. -/
theorem alike_of_tried (hl : s.lexer.token = .openParen)
    (htried : declinesHead (parenFollow s.lexer) tail →
      ∃ s', arrowFunctionTried inner tail c s = .ok none s' ∧ s.SameButNames s') :
    Search.Alike (arrowFunction? inner tail c s)
      (arrowFunctionBy (fun _ => .unknown) inner tail c s) := by
  rw [← arrowFunctionBy_parenFollow, arrowFunctionBy_eq hl, arrowFunctionBy_eq hl]
  by_cases hdeclines : declinesHead (parenFollow s.lexer) tail
  · obtain ⟨s', htried, hnames⟩ := htried hdeclines
    rw [if_pos hdeclines, if_neg (by simp [declinesHead]), htried]
    exact .none hnames
  · rw [if_neg hdeclines, if_neg (by simp [declinesHead])]
    exact .same _

/-- The look past a list in parentheses makes no difference if no slash in the list is disputed: what
is found is what would be found if the head of an arrow function were always tried. It does not
matter by what look the rules inside the list go. -/
theorem alike_of_settled (look : Lexer → ParenFollow) (depth : Nat) (tail : Bool) (c : Context)
    (s : State) (hl : s.lexer.token = .openParen)
    (hsettled : (Scan.ofParen s.lexer).settled (s.lexer.bytesLeft + 2)) :
    Search.Alike (arrowFunction? (.withinBy look depth) tail c s)
      (arrowFunctionBy (fun _ => .unknown) (.withinBy look depth) tail c s) :=
  alike_of_tried hl (arrowFunctionTried_of_declines look depth hl hsettled)

/-- Here a slash divides, and another one starts a regular expression with a parenthesis in it. -/
theorem alike_of_settled_slashes :
    let s := State.atStart "(a / 2, /[)]/) + 1".toList
    s.lexer.token = .openParen ∧ (Scan.ofParen s.lexer).settled (s.lexer.bytesLeft + 2) ∧
      Search.Alike (arrowFunction? (.withinBy parenFollow 3) false {} s)
        (arrowFunctionBy (fun _ => .unknown) (.withinBy parenFollow 3) false {} s) :=
  ⟨by decide +kernel, by decide +kernel,
    alike_of_settled parenFollow 3 false {} _ (by decide +kernel) (by decide +kernel)⟩

/-- So it is where the rules inside the list are those of the grammar, which go by `parenFollow`. -/
theorem alike_within (depth : Nat) (hl : s.lexer.token = .openParen)
    (hsettled : (Scan.ofParen s.lexer).settled (s.lexer.bytesLeft + 2)) :
    Search.Alike (arrowFunction? (.within depth) tail c s)
      (arrowFunctionBy (fun _ => .unknown) (.within depth) tail c s) := by
  rw [← withinBy_parenFollow]
  exact alike_of_tried hl (arrowFunctionTried_of_declines parenFollow depth hl hsettled)

def Search.found? : Search → Option NodeId
  | .ok found _ => found
  | .error _ _ => none

theorem Search.Alike.found?_eq {r r' : Search} (h : r.Alike r') : r.found? = r'.found? := by
  cases h <;> rfl

/-- After a keyword that stands for a property, the look takes a slash for the start of a regular
expression. Here that hides a parenthesis, and an arrow function is missed. -/
theorem not_alike : ¬ ∀ (depth : Nat) (s : State), s.lexer.token = .openParen →
    Search.Alike (arrowFunction? (.within depth) false {} s)
      (arrowFunctionBy (fun _ => .unknown) (.within depth) false {} s) := by
  intro halike
  have hfound := (halike 6 (.atStart "(a = b.default / 2, c = (d / 2)) => 1".toList)
    (by decide +kernel)).found?_eq
  revert hfound
  decide +kernel

end Alike

end Grammar

end FlowErasure
