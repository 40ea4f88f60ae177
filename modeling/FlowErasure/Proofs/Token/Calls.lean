import FlowErasure.Proofs.Token.Trivia
import Mathlib.Logic.Function.Iterate

/-!
# Calls of a lexer

A grammar may call a lexer in any order: it may skip a first line, read tokens, read the current one
again, and go back to a lexer that it has kept. Whatever it does, the offsets of the lexer it has are
in order and at characters, only white space and comments stand before its token, and reading on
ends at the end of the source and leaves nothing out.
-/

namespace FlowErasure.Lexer

open Text (At Between Boundary)

/-! ## Calls and what they keep -/

inductive Call where
  | skipShebang | next | rereadSlash | rereadBrace | rereadGreater
  /-- Keeps the lexer as it is. -/
  | save
  /-- Goes back to a lexer that was kept, if there are that many. -/
  | restore (index : Nat)

structure Session where
  lexer : Lexer
  saved : List Lexer := []

def Session.run (s : Session) : Call → Session
  | .skipShebang => { s with lexer := s.lexer.skipShebang }
  | .next => { s with lexer := s.lexer.next }
  | .rereadSlash => { s with lexer := s.lexer.rereadSlash }
  | .rereadBrace => { s with lexer := s.lexer.rereadBrace }
  | .rereadGreater => { s with lexer := s.lexer.rereadGreater }
  | .save => { s with saved := s.saved ++ [s.lexer] }
  | .restore index => { s with lexer := s.saved[index]?.getD s.lexer }

/-- The lexer in use after some calls; the first is made before any token is read. -/
def afterCalls (text : List Char) (calls : List Call) : Lexer :=
  (calls.foldl Session.run ⟨ofText text, []⟩).lexer

/-- White space and comments stand before the current token. If the last comment is not closed, an
error is waiting. -/
def FollowsTrivia (text : List Char) (l : Lexer) : Prop :=
  ∃ unclosed skipped, Between text l.fullStart skipped l.start ∧ IsTrivia unclosed skipped ∧
    (unclosed = true → l.fault ≠ none)

def MarksLineBreaks (text : List Char) (l : Lexer) : Prop :=
  ∃ skipped, Text.slice? text l.fullStart l.start = some skipped ∧
    l.flags.lineBreakBefore = skipped.any Text.isLineBreak

/-- What holds of a lexer after any calls. Before the first token is read there is none to read
again. -/
structure Called (text : List Char) (l : Lexer) : Prop where
  placed : Placed text l
  gap : FollowsTrivia text l
  breaks : MarksLineBreaks text l
  le : l.start ≤ l.pos
  settled : l.token = .unknown ∨ Settled text l

section

variable {text : List Char} {l l' : Lexer}

theorem SameStart.followsTrivia (h : l.SameStart l') (hl : FollowsTrivia text l) :
    FollowsTrivia text l' := by
  obtain ⟨unclosed, skipped, hbetween, htrivia, hfault⟩ := hl
  refine ⟨unclosed, skipped, ?_, htrivia, fun hu => ?_⟩
  · rwa [h.fullStart, h.start]
  · obtain ⟨f, hf⟩ := Option.ne_none_iff_exists'.mp (hfault hu)
    simp [h.fault f hf]

theorem SameStart.marksLineBreaks (h : l.SameStart l') (hl : MarksLineBreaks text l) :
    MarksLineBreaks text l' := by
  obtain ⟨skipped, hslice, hflag⟩ := hl
  exact ⟨skipped, by rwa [h.fullStart, h.start], h.lineBreakBefore.trans hflag⟩

/-- Where the next token stands: after white space and comments, the last of which may only lack its
end if the text ends there. -/
theorem Placed.exists_skipped (h : Placed text l) :
    ∃ unclosed skipped, Between text l.pos skipped l.next.start ∧ IsTrivia unclosed skipped ∧
      (unclosed = true → l.next.token = .endOfFile ∧
        l.next.fault = (l.fault <|> some ⟨l.next.start, 0, .commentNotTerminated⟩)) := by
  obtain ⟨skipped, hrest, hstop, htrivia, hend, -⟩ := skips_skipGap .blank l.pos false l.rest
  have hstart := (SameStart.next l).start
  refine ⟨_, skipped, ⟨_, hrest ▸ h.rest, hstart.trans hstop⟩, htrivia, fun hu => ?_⟩
  have hnext : l.next.token = .endOfFile ∧ l.next.fault =
      (l.fault <|> some ⟨(skipGap .blank l.pos false l.rest).stop, 0, .commentNotTerminated⟩) := by
    simp [Lexer.next, hu, readToken, hend hu, withFault, finish]
  exact ⟨hnext.1, hstart ▸ hnext.2⟩

theorem Placed.marksLineBreaks_next (h : Placed text l) : MarksLineBreaks text l.next := by
  obtain ⟨skipped, hrest, hstop, -, -, hbroken⟩ := skips_skipGap .blank l.pos false l.rest
  have hsame := SameStart.next l
  refine hsame.marksLineBreaks ⟨skipped, ?_, by simpa using hbroken⟩
  exact Between.slice? ⟨_, hrest ▸ h.rest, hstop⟩

namespace Called

theorem ofText (text : List Char) : Called text (ofText text) where
  placed := placed_ofText text
  gap := ⟨false, [], .refl (Text.at_zero text).boundary, .nil, nofun⟩
  breaks := ⟨[], (Between.refl (Text.at_zero text).boundary).slice?, rfl⟩
  le := Nat.le_refl 0
  settled := .inl rfl

theorem skipShebang (h : Called text l) : Called text l.skipShebang where
  placed := h.placed.skipShebang
  gap := (SameStart.skipShebang l).followsTrivia h.gap
  breaks := (SameStart.skipShebang l).marksLineBreaks h.breaks
  le := (SameStart.skipShebang l).start ▸ h.le.trans (passes_skipShebang l).le
  settled := h.settled.imp (token_skipShebang l).trans Settled.skipShebang

theorem next (h : Called text l) : Called text l.next where
  placed := h.placed.next.1.placed
  gap := by
    obtain ⟨unclosed, skipped, hbetween, htrivia, hfault⟩ := h.placed.exists_skipped
    refine ⟨unclosed, skipped, ?_, htrivia, fun hu => ?_⟩
    · rwa [(SameStart.next l).fullStart]
    · rw [(hfault hu).2]
      cases l.fault <;> simp
  breaks := h.placed.marksLineBreaks_next
  le := h.placed.next.1.le
  settled := .inr h.placed.next.1

theorem reread (h : Called text l) (hsame : l.SameStart l') (hunknown : l.token = .unknown → l' = l)
    (hsettled : Settled text l → Settled text l') : Called text l' := by
  rcases h.settled with htoken | hl
  · rwa [hunknown htoken]
  · have hl' := hsettled hl
    exact ⟨hl'.placed, hsame.followsTrivia h.gap, hsame.marksLineBreaks h.breaks, hl'.le, .inr hl'⟩

theorem rereadSlash (h : Called text l) : Called text l.rereadSlash :=
  h.reread (.rereadSlash l) (fun ht => by simp [Lexer.rereadSlash, ht]) fun hl => hl.rereadSlash.1

theorem rereadBrace (h : Called text l) : Called text l.rereadBrace :=
  h.reread (.rereadBrace l) (fun ht => by simp [Lexer.rereadBrace, ht]) fun hl => hl.rereadBrace.1

theorem rereadGreater (h : Called text l) : Called text l.rereadGreater :=
  h.reread (.rereadGreater l) (fun ht => by simp [Lexer.rereadGreater, ht]) fun hl =>
    hl.rereadGreater.1

end Called

theorem called_run {s : Session} (h : Called text s.lexer ∧ ∀ l ∈ s.saved, Called text l)
    (call : Call) :
    Called text (s.run call).lexer ∧ ∀ l ∈ (s.run call).saved, Called text l := by
  cases call with
  | skipShebang => exact ⟨h.1.skipShebang, h.2⟩
  | next => exact ⟨h.1.next, h.2⟩
  | rereadSlash => exact ⟨h.1.rereadSlash, h.2⟩
  | rereadBrace => exact ⟨h.1.rereadBrace, h.2⟩
  | rereadGreater => exact ⟨h.1.rereadGreater, h.2⟩
  | save =>
      refine ⟨h.1, fun l hl => ?_⟩
      rcases List.mem_append.mp hl with hl | hl
      · exact h.2 l hl
      · exact List.mem_singleton.mp hl ▸ h.1
  | restore index =>
      refine ⟨?_, h.2⟩
      simp only [Session.run]
      cases hsaved : s.saved[index]? with
      | none => exact h.1
      | some l => exact h.2 l (List.mem_of_getElem? hsaved)

theorem called_foldl {s : Session} (h : Called text s.lexer ∧ ∀ l ∈ s.saved, Called text l)
    (calls : List Call) :
    Called text (calls.foldl Session.run s).lexer ∧
      ∀ l ∈ (calls.foldl Session.run s).saved, Called text l := by
  induction calls generalizing s with
  | nil => exact h
  | cons call calls ih => exact ih (called_run h call)

theorem called_afterCalls (text : List Char) (calls : List Call) :
    Called text (afterCalls text calls) := by
  have hfirst : Called text (ofText text) ∧ ∀ l ∈ ([] : List Lexer), Called text l :=
    ⟨.ofText text, by simp⟩
  exact (called_foldl (s := ⟨ofText text, []⟩) hfirst calls).1

/-! ## Reading on -/

def readOn (text : List Char) : Nat → Lexer → List Char
  | 0, _ => []
  | n + 1, l =>
    (Text.slice? text l.next.fullStart l.next.start).getD [] ++ l.next.text.toList ++
      readOn text n l.next

theorem Settled.startRest_eq (h : Settled text l) : l.startRest = l.text.toList ++ l.rest := by
  obtain ⟨mid, hrest, hpos, -⟩ := h.stop
  simp [Lexer.text, hpos, hrest, Text.take?_append]

/-- Nothing is left out between a token and the next. -/
theorem Placed.rest_eq (h : Placed text l) :
    l.rest = (Text.slice? text l.next.fullStart l.next.start).getD [] ++ l.next.text.toList ++
      l.next.rest := by
  obtain ⟨-, skipped, hbetween, -⟩ := h.exists_skipped
  have hnext := h.next.1
  have hslice := hbetween.slice?
  obtain ⟨after, hat, hstart⟩ := hbetween
  have hafter : after = l.next.startRest := (hat.onward ⟨skipped, rfl, hstart⟩).unique hnext.start
  rw [(SameStart.next l).fullStart, hslice, Option.getD_some, List.append_assoc,
    ← hnext.startRest_eq, ← hafter]
  exact h.rest.unique hat

/-- The end of the text is an empty token at the end of the source. -/
theorem Settled.of_endOfFile (h : Settled text l) (ht : l.token = .endOfFile) :
    l.rest = [] ∧ l.start = l.pos ∧ l.pos = Text.byteLength text := by
  obtain ⟨mid, hrest, hpos, -⟩ := h.stop
  obtain ⟨pre, htext, hstart⟩ := h.start
  rw [h.ended ht] at hrest htext
  obtain ⟨rfl, hnil⟩ := List.append_eq_nil_iff.mp hrest.symm
  refine ⟨hnil, by rw [hpos]; rfl, ?_⟩
  rw [hpos, htext, hstart, List.append_nil]
  rfl

theorem Placed.pos_le (h : Placed text l) : l.pos ≤ Text.byteLength text := by
  obtain ⟨pre, htext, hpos⟩ := h.rest
  simp [htext, hpos]

/-- Reading on ends, and has then read what was left of the source. -/
theorem Placed.exists_readOn (h : Placed text l) :
    ∃ n ≤ l.bytesLeft, (Lexer.next^[n + 1] l).token = .endOfFile ∧ readOn text (n + 1) l = l.rest := by
  induction hleft : l.bytesLeft using Nat.strongRecOn generalizing l with
  | ind left ih =>
    obtain ⟨hnext, hle⟩ := h.next
    by_cases ht : l.next.token = .endOfFile
    · refine ⟨0, Nat.zero_le _, ht, ?_⟩
      rw [h.rest_eq, (hnext.of_endOfFile ht).1]
      rfl
    · have hlt := hnext.lt ht
      have hpos := hnext.placed.pos_le
      have hsize := hnext.size
      have hless : l.next.bytesLeft < left := by
        rw [← hleft, bytesLeft, bytesLeft, h.size, hsize]
        omega
      obtain ⟨n, hn, hend, hread⟩ := ih _ hless hnext.placed rfl
      refine ⟨n + 1, Nat.le_trans (Nat.succ_le_succ hn) hless, hend, ?_⟩
      rw [h.rest_eq, ← hread]
      rfl

/-! ## All calls -/

structure InOrder (text : List Char) (l : Lexer) : Prop where
  fullStart_le : l.fullStart ≤ l.start
  start_le : l.start ≤ l.pos
  pos_le : l.pos ≤ Text.byteLength text
  fullStart : Boundary text l.fullStart
  start : Boundary text l.start
  pos : Boundary text l.pos
  trivia : FollowsTrivia text l

/-- One more token: it comes after white space and comments that start where the one before ended,
and is empty only at the end of the source. A comment that is not closed is reported there, unless
an error is waiting. -/
structure GoesOn (text : List Char) (l : Lexer) : Prop where
  fullStart : l.next.fullStart = l.pos
  token : l.next.token = .endOfFile ∧ l.next.start = l.next.pos ∧
      l.next.pos = Text.byteLength text ∨
    l.next.token ≠ .endOfFile ∧ l.next.start < l.next.pos ∧ l.pos < l.next.pos
  trivia : ∃ unclosed skipped, Between text l.pos skipped l.next.start ∧
    IsTrivia unclosed skipped ∧ (unclosed = true → l.next.token = .endOfFile ∧
      l.next.fault = (l.fault <|> some ⟨l.next.start, 0, .commentNotTerminated⟩))

/-- Up to the end of the source there are not more tokens than bytes; with the white space and
comments before them they are the rest of the source. -/
def ReadsAll (text : List Char) (l : Lexer) : Prop :=
  ∃ n ≤ Text.byteLength text, (Lexer.next^[n + 1] l).token = .endOfFile ∧
    At text l.pos (readOn text (n + 1) l)

theorem Called.inOrder (h : Called text l) : InOrder text l where
  fullStart_le := by
    obtain ⟨_, _, hbetween, -⟩ := h.gap
    exact hbetween.le
  start_le := h.le
  pos_le := h.placed.pos_le
  fullStart := by
    obtain ⟨_, _, hbetween, -⟩ := h.gap
    exact hbetween.left
  start := by
    obtain ⟨_, _, hbetween, -⟩ := h.gap
    exact hbetween.right
  pos := h.placed.seam.boundary
  trivia := h.gap

theorem Placed.goesOn (h : Placed text l) : GoesOn text l where
  fullStart := (SameStart.next l).fullStart
  token := by
    obtain ⟨hnext, hle⟩ := h.next
    by_cases ht : l.next.token = .endOfFile
    · exact .inl ⟨ht, (hnext.of_endOfFile ht).2⟩
    · exact .inr ⟨ht, hnext.lt ht, Nat.lt_of_le_of_lt hle (hnext.lt ht)⟩
  trivia := h.exists_skipped

theorem Placed.readsAll (h : Placed text l) : ReadsAll text l := by
  obtain ⟨n, hn, hend, hread⟩ := h.exists_readOn
  refine ⟨n, hn.trans ?_, hend, hread ▸ h.rest⟩
  rw [bytesLeft, h.size]
  exact Nat.sub_le _ _

end

/-- Any calls, and then reading on. -/
theorem inOrder_of_calls (text : List Char) (calls : List Call) :
    InOrder text (afterCalls text calls) ∧ GoesOn text (afterCalls text calls) ∧
      ReadsAll text (afterCalls text calls) := by
  have hcalled := called_afterCalls text calls
  exact ⟨hcalled.inOrder, hcalled.placed.goesOn, hcalled.placed.readsAll⟩

/-- After any calls the flag of the current token says whether one of the four characters that end a
line stands in the white space and comments before it, be it bare, at the end of a line comment or
inside a comment that is closed or not. -/
theorem lineBreakBefore_iff (text : List Char) (calls : List Call) :
    ∃ unclosed skipped, IsTrivia unclosed skipped ∧
      Text.slice? text (afterCalls text calls).fullStart (afterCalls text calls).start =
        some skipped ∧
      ((afterCalls text calls).flags.lineBreakBefore = true ↔
        '\n' ∈ skipped ∨ '\r' ∈ skipped ∨ '\u2028' ∈ skipped ∨ '\u2029' ∈ skipped) := by
  have hcalled := called_afterCalls text calls
  obtain ⟨unclosed, skipped, hbetween, htrivia, -⟩ := hcalled.gap
  obtain ⟨_, hslice, hflag⟩ := hcalled.breaks
  obtain rfl := Option.some.inj (hbetween.slice?.symm.trans hslice)
  refine ⟨unclosed, skipped, htrivia, hslice, ?_⟩
  rw [hflag, List.any_eq_true]
  constructor
  · rintro ⟨c, hmem, hc⟩
    simp only [Text.isLineBreak, Bool.or_eq_true, beq_iff_eq] at hc
    rcases hc with ((rfl | rfl) | rfl) | rfl <;> simp [hmem]
  · rintro (h | h | h | h) <;> exact ⟨_, h, by decide⟩

end FlowErasure.Lexer
