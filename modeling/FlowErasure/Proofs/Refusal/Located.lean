import FlowErasure.Proofs.Refusal.Statements
import Mathlib.Logic.Function.Iterate

/-!
# Where programs are refused

A state of the parser can be used again and again, after errors as after programs that were read.
Whatever came before, an error points at a part of the source: its range lies in the source and ends
between characters, and its line and column are those of its start.
-/

namespace FlowErasure

open Text (Boundary)

structure ParseError.PointsInto (text : List Char) (e : ParseError) : Prop where
  start : Boundary text e.start
  stop : Boundary text (e.start + e.length)
  stop_le : e.start + e.length ≤ Text.byteLength text
  line_pos : 0 < e.line
  column_pos : 0 < e.column
  position : (Lines.ofText text).position e.start = ⟨e.line - 1, e.column - 1⟩

namespace Grammar

variable {text : List Char} {a b e e' : Nat} {c : Context} {s : State}

/-- What an error is blamed on reaches from one place between two characters to another. -/
theorem State.Blames.boundary (hs : Usable text s) {start stop : Nat}
    (h : s.Blames text start stop) : Boundary text start ∧ Boundary text stop := by
  cases h with
  | lexer h => exact h.boundary hs.lexer
  | node hget =>
      obtain ⟨hstart, hstop, -, -⟩ := hs.nodes _ _ hget
      exact ⟨hstart, hstop⟩

/-! ## One program -/

/-- A first line is skipped at the start of a source only. -/
theorem Ready.skipShebang (h : Ready text s) :
    Ready text { s with lexer := s.lexer.skipShebang } where
  lexer := h.lexer.skipShebang
  fault := by
    unfold Lexer.skipShebang
    split
    · split
      · exact h.fault
      · exact h.fault
    · exact h.fault
  nodes := h.nodes.mono (Lexer.passes_skipShebang s.lexer).le

theorem safe_programNode {statements : List NodeId} (he' : e' ≤ e) :
    Safe text a e (do
      let stop := (← get).lexer.size
      addNode
        { kind := .program, start := 0, stop, slots := [.list ⟨statements.map some, 0, stop⟩] })
      e' := by
  intro c s hs ha he
  have hstop : Boundary text s.lexer.size := ⟨[], text, by simp, hs.lexer.size⟩
  have hstart := (Text.at_zero text).boundary
  exact ⟨hs.withTree (hs.nodes.add hstart hstop (Nat.zero_le _) (Nat.zero_le _)), ha, he'.trans he⟩

/-- After a program, and after an error in one, another one can be read. -/
theorem leaves_program (c : Context) (h : Ready text s) :
    Leaves text (fun _ => True) (program c s) := by
  have hstatements : Safe text 0 0 (collect do
      if ← isAt .endOfFile then return none
      some <$> rules.statement) 0 := by
    refine .collect (.calm fun _ => .ite (.pure (Nat.le_refl 0)) ?_)
    exact ((eating_within text nestingLimit).statement.safe 0 0).map
  have hmodify : (modify fun s => { s with lexer := s.lexer.skipShebang } : Parser PUnit) c s =
      .ok () { s with lexer := s.lexer.skipShebang } := rfl
  unfold program
  rw [bind_ok hmodify]
  refine (leaves_advance c h.skipShebang).bind fun _ s' hs' _ => ?_
  have hrest := hstatements.bind fun statements =>
    @safe_programNode text 0 0 0 statements (Nat.le_refl 0)
  exact (hrest c s' hs' (Nat.zero_le _) (Nat.zero_le _)).mono fun _ _ _ => trivial

/-! ## Any number of programs -/

/-- The state after `n` programs have been read from a source or refused. -/
def State.afterPrograms (text : List Char) (n : Nat) : State :=
  (fun s : State => s.readProgram.2)^[n] (.ofText text)

theorem ready_ofText (text : List Char) : Ready text (.ofText text) where
  lexer := Lexer.placed_ofText text
  fault := rfl
  nodes := .empty

theorem Ready.readProgram (h : Ready text s) : Ready text s.readProgram.2 := by
  have hends := leaves_program {} h
  unfold State.readProgram
  split
  · rename_i hrun
    rw [hrun] at hends
    exact hends.1.ready
  · rename_i hrun
    rw [hrun] at hends
    exact hends.1.ready

theorem ready_afterPrograms (text : List Char) (n : Nat) : Ready text (.afterPrograms text n) := by
  induction n with
  | zero => exact ready_ofText text
  | succ n ih =>
      unfold State.afterPrograms
      rw [Function.iterate_succ_apply']
      exact ih.readProgram

end Grammar

open Grammar

/-- However many programs have been read from a source or refused, an error points at a part of the
source. Its length is the difference between the end and the start of what the state that it left is
blamed for, and the start is not beyond the end. -/
theorem pointsInto_of_readProgram {text : List Char} {n : Nat} {failure : Failure} {s : State}
    (h : (State.afterPrograms text n).readProgram = (.error failure, s)) (fileName : String) :
    (failure.locate fileName (Lines.ofText text)).PointsInto text ∧
      s.Blames text failure.start (failure.start + failure.length) := by
  have hends := leaves_program {} (ready_afterPrograms text n)
  unfold State.readProgram at h
  split at h
  · cases h
  · rename_i hrun
    obtain ⟨rfl, rfl⟩ : _ = failure ∧ _ = s := by simpa using h
    rw [hrun] at hends
    obtain ⟨hs, hblames⟩ := hends
    obtain ⟨hstart, hstop⟩ := hblames.boundary hs
    exact ⟨⟨hstart, hstop, hstop.le, Nat.succ_pos _, Nat.succ_pos _, rfl⟩, hblames⟩

/-- The first error is at `b`. Reading goes on after it, and the next one is at `d`. -/
theorem pointsInto_of_readProgram_again : ∃ failure s,
    (State.afterPrograms "a b c d".toList 1).readProgram = (.error failure, s) ∧
      failure.start = 6 ∧
      (failure.locate defaultFileName (Lines.ofText "a b c d".toList)).PointsInto
        "a b c d".toList ∧
      s.Blames "a b c d".toList failure.start (failure.start + failure.length) := by
  have herror : (match (State.afterPrograms "a b c d".toList 1).readProgram.1 with
      | .error failure => failure.start == 6
      | .ok _ => false) = true := by
    decide +kernel
  cases hrun : (State.afterPrograms "a b c d".toList 1).readProgram with
  | mk answer s =>
      rw [hrun] at herror
      cases answer with
      | ok root => exact absurd herror Bool.false_ne_true
      | error failure =>
          have hstart : failure.start = 6 := by simpa using herror
          exact ⟨failure, s, rfl, hstart, pointsInto_of_readProgram hrun defaultFileName⟩

end FlowErasure
