import FlowErasure.Proofs.Grammar.WellFormed
import FlowErasure.Proofs.Syntax.Descendants

/-!
# The colons of conditionals

In a source that can be read the colon of a conditional is its own: no arrow function at the end of
the first branch has taken it for that of a return type. Only what is yielded is not warned.
-/

namespace FlowErasure

/-- The colon after a first branch is not that of a return type, as long as the branch does not end
with something that is yielded. -/
theorem keepsColon_of_parse {text : List Char} {fileName : Option String} {parsed : Parsed}
    (h : parse text fileName = .ok parsed) {id : NodeId} {node : Node}
    (hget : parsed.tree.get? id = some node) :
    parsed.tree.KeepsColon text NodeKind.HandsOn node := by
  obtain ⟨-, -, hread⟩ := readFrom_of_parse h
  exact hread.colon hget

/-- The body of the first arrow function is not taken for the parameters of another one. -/
theorem keepsColon_of_parse_arrow : ∃ parsed conditional arrow,
    parse "a ? b => (c) : d => e".toList none = .ok parsed ∧
      parsed.tree.get? 7 = some conditional ∧ conditional.kind = .conditionalExpression ∧
      conditional.child? .consequent = some 3 ∧ parsed.tree.get? 3 = some arrow ∧
      FollowedBy "a ? b => (c) : d => e".toList arrow.stop ':' ∧
      arrow.kind = .arrowFunctionExpression ∧ arrow.child? .returnType = none := by
  have hany : (parse "a ? b => (c) : d => e".toList none).toOption.any fun parsed =>
      (parsed.tree.get? 7).map (fun node => (node.kind, node.child? .consequent)) ==
          some (.conditionalExpression, some 3) &&
        (parsed.tree.get? 3).map (fun node => (node.kind, node.stop)) ==
          some (.arrowFunctionExpression, 12) := by
    decide +kernel
  obtain ⟨parsed, hparse, hnodes⟩ := exists_parsed_of_any hany
  simp only [Bool.and_eq_true, beq_iff_eq, Option.map_eq_some_iff, Prod.mk.injEq] at hnodes
  obtain ⟨⟨conditional, hget, hkind, hchild⟩, arrow, hget', hkind', hstop⟩ := hnodes
  have hcolon : FollowedBy "a ? b => (c) : d => e".toList arrow.stop ':' := by
    rw [hstop]
    exact ⟨" : d => e".toList, ⟨"a ? b => (c)".toList, rfl, rfl⟩, rfl⟩
  have huntyped := keepsColon_of_parse hparse hget hkind _ _ hchild hget' hcolon
  exact ⟨parsed, conditional, arrow, hparse, hget, hkind, hchild, hget', hcolon, hkind',
    huntyped _ _ (.refl _) hget' hkind'⟩

/-- What is yielded is not warned: here it takes the colon, and the conditional goes on with
another. -/
theorem not_keepsColon : ¬∀ (text : List Char) (fileName : Option String) (parsed : Parsed)
    (id : NodeId) (node : Node), parse text fileName = .ok parsed →
      parsed.tree.Reaches parsed.root id → parsed.tree.get? id = some node →
        parsed.tree.KeepsColon text (fun _ => True) node := by
  intro hall
  have hany : (parse "function* g() \x7b a ? yield (b): c => d : e \x7d".toList none).toOption.any
      fun parsed => (parsed.tree.descendants parsed.root).contains 10 &&
        (parsed.tree.get? 10).map (fun node => (node.kind, node.child? .consequent)) ==
          some (.conditionalExpression, some 8) &&
        (parsed.tree.get? 8).map (fun node => (node.last?, node.stop)) == some (some 7, 37) &&
        (parsed.tree.get? 7).map (fun node => (node.kind, node.child? .returnType, node.stop)) ==
          some (.arrowFunctionExpression, some 5, 37) := by
    decide +kernel
  obtain ⟨parsed, hparse, hnodes⟩ := exists_parsed_of_any hany
  simp only [Bool.and_eq_true, beq_iff_eq, Option.map_eq_some_iff, Prod.mk.injEq,
    List.contains_iff_mem] at hnodes
  obtain ⟨⟨⟨hmem, conditional, hget, hkind, hchild⟩, yielding, hyielding, hlast, hstop⟩, arrow,
    harrow, hkind', htype, hstop'⟩ := hnodes
  have hacyclic := (wellFormed_of_parse hparse).isTree.acyclic
  have hreach := ((Tree.mem_descendants hacyclic .refl).mp hmem).1
  have hcolon : FollowedBy "function* g() \x7b a ? yield (b): c => d : e \x7d".toList yielding.stop
      ':' := by
    rw [hstop]
    exact ⟨" : e \x7d".toList, ⟨"function* g() \x7b a ? yield (b): c => d".toList, rfl, rfl⟩, rfl⟩
  have hends : parsed.tree.EndsIn (fun _ => True) 8 7 :=
    .step hyielding trivial hlast harrow (hstop'.trans hstop.symm) (.refl 7)
  have huntyped := hall _ _ _ _ _ hparse hreach hget hkind _ _ hchild hyielding hcolon
  have hnone := huntyped 7 arrow hends harrow hkind'
  simp [htype] at hnone

end FlowErasure
