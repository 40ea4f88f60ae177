import FlowErasure.Grammar.Lookahead

/-!
# The look past a list in parentheses

`followWithin` finds the token after a list in parentheses. It counts brackets, and reads a slash by
the token before it alone, where the grammar goes by what it expects. A `Scan` is where this look
stands, and remembers a little more than it does: the token before the last one, and which
parentheses belong to the head of a statement.

A slash is *disputed* where the tokens before it leave open whether it divides: after a closing brace,
after `++` and `--`, after `yield`, `await` and `of`, after the head of a statement, after a keyword
that stands for a property, and on a new line in a block. `At` says where in a scan without disputed
slashes a lexer stands.
-/

namespace FlowErasure.Grammar

structure Bracket where
  token : Token
  /-- A parenthesis after which a statement comes: the head of an `if`, a loop or a `with`. -/
  ofHead : Bool
  deriving DecidableEq, Repr

/-- Tokens before the head of a statement. -/
def startsHead (t : Token) : Bool :=
  [.ifKeyword, .whileKeyword, .forKeyword, .withKeyword].contains t

def opensBracket (t : Token) : Bool :=
  [.openParen, .openBracket, .openBrace, .templateHead].contains t

def isSlash (t : Token) : Bool :=
  t == .slash || t == .slashEquals

structure Scan where
  /-- The open brackets, the innermost first. -/
  brackets : List Bracket
  /-- The token before the last one. -/
  before : Token
  previous : Token
  /-- The last token has closed the head of a statement. -/
  closedHead : Bool
  /-- The lexer at the last token. -/
  lexer : Lexer

namespace Scan

def read (scan : Scan) (l : Lexer) (brackets : List Bracket) (closedHead : Bool) : Scan where
  brackets := brackets
  before := scan.previous
  previous := l.token
  closedHead := closedHead
  lexer := l

/-- Reads one token. There is no answer where the brackets do not match or have all been closed. -/
def step? (scan : Scan) : Option Scan :=
  match scan.brackets with
  | [] => none
  | innermost :: outer =>
    let l := nextAfter scan.previous scan.lexer
    if opensBracket l.token then
      some (scan.read l (⟨l.token, startsHead scan.previous⟩ :: innermost :: outer) false)
    else if innermost.token == .templateHead && l.token == .closeBrace then
      let l := l.rereadBrace
      some (scan.read l (if l.token == .templateTail then outer else innermost :: outer) false)
    else if (opener? l.token).isSome then
      if opener? l.token == some innermost.token then some (scan.read l outer innermost.ofHead)
      else none
    else if l.token == .endOfFile || l.token == .unknown then none
    else some (scan.read l (innermost :: outer) false)

def nextToken (scan : Scan) : Token :=
  scan.lexer.next.token

/-- The next token is a slash, and what has been read does not tell how to read it. -/
def disputed (scan : Scan) : Bool :=
  isSlash scan.nextToken &&
    ([.closeBrace, .plusPlus, .minusMinus, .yieldKeyword, .awaitKeyword, .ofKeyword].contains
        scan.previous ||
      scan.closedHead ||
      (scan.before == .dot && !endsOperand scan.previous) ||
      (endsOperand scan.previous && scan.lexer.next.flags.lineBreakBefore &&
        scan.brackets.head?.any (·.token == .openBrace)))

/-- No slash is disputed from here to the end of the list. -/
def settled : Nat → Scan → Bool
  | 0, _ => true
  | bound + 1, scan => !scan.disputed && scan.step?.all (settled bound)

def follow (scan : Scan) (bound : Nat) : ParenFollow :=
  followWithin bound (scan.brackets.map Bracket.token) scan.previous scan.lexer

def ofParen (l : Lexer) : Scan where
  brackets := [⟨.openParen, false⟩]
  before := .unknown
  previous := .openParen
  closedHead := false
  lexer := l

theorem follow_zero (scan : Scan) : scan.follow 0 = .unknown := by
  unfold follow followWithin
  rfl

theorem follow_ofParen (l : Lexer) : (ofParen l).follow (l.bytesLeft + 2) = parenFollow l :=
  rfl

theorem follow_read (scan : Scan) (l : Lexer) (brackets : List Bracket) (closedHead : Bool)
    (bound : Nat) : (scan.read l brackets closedHead).follow bound =
      followWithin bound (brackets.map Bracket.token) l.token l :=
  rfl

theorem follow_succ (scan : Scan) (bound : Nat) (hopen : scan.brackets ≠ []) :
    scan.follow (bound + 1) = (scan.step?.map (·.follow bound)).getD .unknown := by
  rw [follow, step?]
  cases hbrackets : scan.brackets with
  | nil => exact absurd hbrackets hopen
  | cons innermost outer =>
      simp only [List.map_cons, followWithin]
      generalize nextAfter scan.previous scan.lexer = l
      cases htoken : l.token <;> simp [opensBracket, opener?, htoken, follow_read]
      case closeBrace =>
        split
        · simp [follow_read, apply_ite (List.map Bracket.token)]
        · split <;> simp [follow_read, htoken]
      all_goals split <;> rfl

structure Foresees (scan : Scan) (follow : ParenFollow) (bound : Nat) : Prop where
  known : follow ≠ .unknown
  follows : scan.follow bound = follow
  settled : scan.settled bound = true

variable {scan : Scan} {follow : ParenFollow} {bound : Nat} {l : Lexer}

theorem Foresees.pos (h : scan.Foresees follow bound) : ∃ bound', bound = bound' + 1 := by
  cases bound with
  | zero => exact absurd (h.follows.symm.trans scan.follow_zero) h.known
  | succ bound' => exact ⟨bound', rfl⟩

theorem Foresees.not_disputed (h : scan.Foresees follow bound) : scan.disputed = false := by
  obtain ⟨bound', rfl⟩ := h.pos
  have hsettled := h.settled
  rw [Scan.settled, Bool.and_eq_true, Bool.not_eq_true'] at hsettled
  exact hsettled.1

theorem Foresees.step (h : scan.Foresees follow bound) (hopen : scan.brackets ≠ []) :
    ∃ scan' bound', scan.step? = some scan' ∧ scan'.Foresees follow bound' := by
  obtain ⟨bound', rfl⟩ := h.pos
  have hfollows := h.follows
  have hsettled := h.settled
  rw [follow_succ scan bound' hopen] at hfollows
  rw [Scan.settled, Bool.and_eq_true] at hsettled
  cases hstep : scan.step? with
  | none =>
      rw [hstep] at hfollows
      exact absurd hfollows.symm h.known
  | some scan' =>
      rw [hstep] at hfollows hsettled
      exact ⟨scan', bound', rfl, h.known, hfollows, hsettled.2⟩

/-! ### Steps -/

variable {innermost : Bracket} {outer : List Bracket}

def isPlain (t : Token) : Bool :=
  !opensBracket t && (opener? t).isNone && t != .endOfFile && t != .unknown

theorem nextAfter_eq_next {previous : Token} {l : Lexer} (h : isSlash l.next.token = false) :
    nextAfter previous l = l.next := by
  unfold nextAfter Lexer.rereadSlash
  unfold isSlash at h
  simp [h]

theorem step?_plain (hbrackets : scan.brackets = innermost :: outer) (hl : isPlain l.token)
    (hread : nextAfter scan.previous scan.lexer = l) :
    scan.step? = some (scan.read l (innermost :: outer) false) := by
  unfold isPlain at hl
  unfold step?
  have hclose : l.token ≠ .closeBrace := by
    intro hclose
    simp [hclose, opener?] at hl
  simp_all

theorem step?_opens (hbrackets : scan.brackets = innermost :: outer) (hl : opensBracket l.token)
    (hread : nextAfter scan.previous scan.lexer = l) :
    scan.step? =
      some (scan.read l (⟨l.token, startsHead scan.previous⟩ :: innermost :: outer) false) := by
  unfold step?
  simp_all

/-- A closing bracket opens none, and it does not end the head of a template. -/
theorem of_opener? {t o : Token} (h : opener? t = some o) :
    opensBracket t = false ∧ o ≠ .templateHead := by
  cases t <;> simp only [opener?, Option.some.injEq, reduceCtorEq] at h
  all_goals exact h ▸ ⟨rfl, by decide⟩

theorem step?_closes (hbrackets : scan.brackets = innermost :: outer)
    (hl : opener? l.token = some innermost.token)
    (hread : nextAfter scan.previous scan.lexer = l) :
    scan.step? = some (scan.read l outer innermost.ofHead) := by
  obtain ⟨hopens, htemplate⟩ := of_opener? hl
  unfold step?
  simp [hbrackets, hread, hopens, htemplate, hl]

theorem step?_resumes (hbrackets : scan.brackets = innermost :: outer)
    (htemplate : innermost.token = .templateHead) (hl : l.token = .closeBrace)
    (hread : nextAfter scan.previous scan.lexer = l) :
    scan.step? = some (scan.read l.rereadBrace
      (if l.rereadBrace.token == .templateTail then outer else innermost :: outer) false) := by
  unfold step?
  simp_all [opensBracket]

end Scan

end FlowErasure.Grammar
