import FlowErasure.Proofs.Frame.Statements

/-!
# Failed attempts

The head of an arrow function is read to see whether there is one. Where there is none, the nodes
read meanwhile are dropped, and this is all it takes to be back where the attempt started: what was
there before has not been touched. The context and the depth of nesting are handed down to the rules
and not part of the state, so nothing can leave them changed.
-/

namespace FlowErasure.Grammar

variable {c : Context} {s s' : State}

/-- Where there is no arrow function, everything is as it was before one was looked for. -/
theorem sameButNames_of_noArrow (depth : Nat) (tail : Bool)
    (hrun : arrowFunction? (.within depth) tail c s = .ok none s') : s.SameButNames s' := by
  obtain ⟨starts, s₁, hstarts, hrun⟩ := of_bind_ok hrun
  obtain ⟨b, hlook⟩ := (looks_startsArrowFunction tail).ok c s
  obtain ⟨rfl, rfl⟩ : b = starts ∧ s = s₁ := by simpa [hlook] using hstarts
  cases b with
  | false =>
      obtain rfl : s = s' := by
        cases hrun
        rfl
      exact .refl s
  | true =>
      obtain ⟨start, s₁, hstart, hrun⟩ := of_bind_ok hrun
      obtain rfl : s = s₁ := by
        cases hstart
        rfl
      obtain ⟨head, s₁, hhead, hrun⟩ := of_bind_ok hrun
      cases head with
      | none =>
          obtain rfl : s₁ = s' := by
            cases hrun
            rfl
          exact sameButNames_of_attempt (keeps_arrowHeadBefore (keeps_within s.tree depth) tail) hhead
      | some head =>
          -- After a head there is a node or a failure.
          obtain ⟨_, _, -, hrun⟩ := of_bind_ok hrun
          obtain ⟨_, _, -, hrun⟩ := of_bind_ok hrun
          obtain ⟨_, _, -, hrun⟩ := of_bind_ok hrun
          cases hrun

def State.atStart (text : List Char) : State :=
  let s := State.ofText text
  { s with lexer := s.lexer.next }

def arrowMissing (depth : Nat) : Parser (Bool × Nat) := do
  let arrow ← arrowFunction? (.within depth) false
  return (arrow.isNone, (← get).tree.names.size)

/-- In `(x): y` the head is read up to the missing arrow: its nodes go, the names `x` and `y` stay. -/
theorem sameButNames_of_noArrow_ascribed :
    ∃ s', arrowFunction? (.within 2) false {} (.atStart "(x): y".toList) = .ok none s' ∧
      (State.atStart "(x): y".toList).SameButNames s' ∧
      s'.tree.names.size = (State.atStart "(x): y".toList).tree.names.size + 2 := by
  have hmissing : (arrowMissing 2 {}).run' (.atStart "(x): y".toList) =
      some (true, (State.atStart "(x): y".toList).tree.names.size + 2) := by
    decide +kernel
  unfold arrowMissing EStateM.run' EStateM.run at hmissing
  cases hrun : arrowFunction? (.within 2) false {} (.atStart "(x): y".toList) with
  | error e s' =>
      rw [bind_error hrun] at hmissing
      cases hmissing
  | ok arrow s' =>
      rw [bind_ok hrun] at hmissing
      obtain ⟨hnone, hsize⟩ := Prod.mk.inj (Option.some.inj hmissing)
      obtain rfl := Option.isNone_iff_eq_none.mp hnone
      exact ⟨s', rfl, sameButNames_of_noArrow 2 false hrun, hsize⟩

end FlowErasure.Grammar
