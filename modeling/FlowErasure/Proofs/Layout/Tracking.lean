import FlowErasure.Proofs.SourceMap.Tracing

/-!
# The position of a writer

A writer moves its position along as text comes in and never looks back, except that it remembers
whether the last character was a carriage return. Its position is nevertheless the one that a table of
the lines of the whole output gives for its end, wherever the output was cut.
-/

namespace FlowErasure

open Text

/-- A line that ends in two characters has ended with the first of them, if the second comes later. -/
theorem Position.along_line_feed {as : List Char} (h : as.getLast? = some '\r') (bs : List Char)
    (p : Position) :
    (p.along as ('\n' :: bs)).along ('\n' :: bs) [] = (p.along as []).along bs [] := by
  induction as generalizing p with
  | nil => simp at h
  | cons a as ih =>
      cases as with
      | nil =>
          obtain rfl : a = '\r' := by simpa using h
          rfl
      | cons a' as =>
          have hlast : (a' :: as).getLast? = some '\r' := by rwa [List.getLast?_cons_cons] at h
          exact ih hlast _

namespace Writer

def AtEnd (w : Writer) : Prop :=
  w.position = Position.along ⟨0, 0⟩ w.output []

/-- A line feed that ends a line together with the output so far does not move the position. -/
theorem position_write_of_divides {w : Writer} {cs : List Char} (h : Divides w.output cs)
    (origin : Option Position) : (w.write cs origin).position = w.position.along cs.tail [] := by
  obtain ⟨hlast, hhead⟩ := h
  obtain ⟨rest, rfl⟩ := List.head?_eq_some_iff.mp hhead
  have hadvancing : w.advancing ('\n' :: rest) = rest := by
    unfold advancing
    rw [lastChar?_eq, hlast]
    rfl
  unfold write
  simp only [List.isEmpty_cons, Bool.false_eq_true, if_false]
  rw [position_advance, position_mapTo, hadvancing]
  rfl

theorem AtEnd.write {w : Writer} (h : w.AtEnd) (cs : List Char) (origin : Option Position) :
    (w.write cs origin).AtEnd := by
  unfold AtEnd at h ⊢
  rw [output_write, Position.along_append, List.append_nil]
  by_cases hdivides : Divides w.output cs
  · rw [position_write_of_divides hdivides, h]
    obtain ⟨hlast, hhead⟩ := hdivides
    obtain ⟨rest, rfl⟩ := List.head?_eq_some_iff.mp hhead
    exact (Position.along_line_feed hlast rest _).symm
  · rw [position_write hdivides, h, Position.along_of_not_divides hdivides]

def writeTexts (w : Writer) (texts : List (List Char × Option Position)) : Writer :=
  texts.foldl (fun w text => w.write text.1 text.2) w

theorem AtEnd.writeTexts {w : Writer} (h : w.AtEnd) (texts : List (List Char × Option Position)) :
    (w.writeTexts texts).AtEnd := by
  induction texts generalizing w with
  | nil => exact h
  | cons text texts ih =>
      apply ih
      exact h.write text.1 text.2

theorem output_writeTexts (w : Writer) (texts : List (List Char × Option Position)) :
    (w.writeTexts texts).output = w.output ++ texts.flatMap Prod.fst := by
  induction texts generalizing w with
  | nil => simp [writeTexts]
  | cons text texts ih =>
      calc (w.writeTexts (text :: texts)).output
          = (w.write text.1 text.2).output ++ texts.flatMap Prod.fst := ih _
        _ = w.output ++ (text :: texts).flatMap Prod.fst := by simp

/-- However a text is cut into the parts that are written, the position of the writer is the one of
the end of the text. -/
theorem position_writeTexts (recorder : Option SourceMap.Recorder) (source : Nat)
    (texts : List (List Char × Option Position)) :
    let w := ({ recorder, source } : Writer).writeTexts texts
    w.output = texts.flatMap Prod.fst ∧
      w.position = (Lines.ofText w.output).position (byteLength w.output) := by
  intro w
  have hstart : ({ recorder, source } : Writer).AtEnd := rfl
  have hatEnd : w.AtEnd := hstart.writeTexts texts
  have hend := Lines.position_append w.output []
  rw [List.append_nil] at hend
  constructor
  · exact output_writeTexts _ texts
  · rw [hend]
    exact hatEnd

/-- A carriage return and the line feed after it end one line, also if they are written apart. -/
example : (({} : Writer).writeTexts [("a\r".toList, none), ("\nb".toList, none)]).position = ⟨1, 1⟩ := by
  decide

end Writer

end FlowErasure
