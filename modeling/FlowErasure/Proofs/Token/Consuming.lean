import FlowErasure.Proofs.Token.Reading

/-!
# Consumed tokens

The tokens of a source are what a grammar consumes, one after the other. Before a token is consumed
it may be read again as something longer, which leaves its start where it is.
-/

namespace FlowErasure.Lexer

inductive Consumes (first : Lexer) : List (Nat × Nat) → Lexer → Prop
  | refl : Consumes first [] first
  | rereadSlash {tokens l} : Consumes first tokens l → Consumes first tokens l.rereadSlash
  | rereadBrace {tokens l} : Consumes first tokens l → Consumes first tokens l.rereadBrace
  | rereadGreater {tokens l} : Consumes first tokens l → Consumes first tokens l.rereadGreater
  | next {tokens l} : Consumes first tokens l → l.token ≠ .endOfFile →
      Consumes first (tokens ++ [(l.start, l.pos)]) l.next

def Tokenizes (text : List Char) (tokens : List (Nat × Nat)) : Prop :=
  ∃ l, (ofText text).skipShebang.next.Consumes tokens l ∧ l.token = .endOfFile

namespace Consumes

variable {text : List Char} {first l l' : Lexer} {tokens tokens' : List (Nat × Nat)}

theorem trans (h : first.Consumes tokens l) (h' : l.Consumes tokens' l') :
    first.Consumes (tokens ++ tokens') l' := by
  induction h' with
  | refl => rwa [List.append_nil]
  | rereadSlash _ ih => exact ih.rereadSlash
  | rereadBrace _ ih => exact ih.rereadBrace
  | rereadGreater _ ih => exact ih.rereadGreater
  | next _ ht ih =>
      rw [← List.append_assoc]
      exact ih.next ht

theorem settled (h : first.Consumes tokens l) (hfirst : first.Settled text) : l.Settled text := by
  induction h with
  | refl => exact hfirst
  | rereadSlash _ ih => exact ih.rereadSlash.1
  | rereadBrace _ ih => exact ih.rereadBrace.1
  | rereadGreater _ ih => exact ih.rereadGreater.1
  | next _ _ ih => exact ih.placed.next.1

/-- The first token consumed starts where reading started. -/
theorem head (h : first.Consumes tokens l) (hfirst : first.Settled text) :
    tokens = [] ∧ l.start = first.start ∨ ∃ stop rest, tokens = (first.start, stop) :: rest := by
  induction h with
  | refl => exact .inl ⟨rfl, rfl⟩
  | rereadSlash h ih =>
      rw [(h.settled hfirst).rereadSlash.2]
      exact ih
  | rereadBrace h ih =>
      rw [(h.settled hfirst).rereadBrace.2]
      exact ih
  | rereadGreater h ih =>
      rw [(h.settled hfirst).rereadGreater.2]
      exact ih
  | next _ _ ih =>
      right
      rcases ih with ⟨rfl, hstart⟩ | ⟨stop, rest, rfl⟩
      · exact ⟨_, [], by rw [hstart]; rfl⟩
      · exact ⟨stop, _, rfl⟩

end Consumes

end FlowErasure.Lexer
