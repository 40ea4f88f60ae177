import FlowErasure.Proofs.Enclosing.Statements
import FlowErasure.Proofs.Grammar.WellFormed
import FlowErasure.Proofs.Syntax.Descendants

/-!
# Operators and their functions

A program is read outside of all functions, where there are no operators. So the operators that are in
its tree are in functions, and the nearest function of each is of the kind that allows it.
-/

namespace FlowErasure

namespace Grammar

theorem permits_program (final : Tree) : Permits final .none {} program := by
  have hstatement : Permits final .none {} rules.statement :=
    (permits_within final nestingLimit).statement {}
  have hshebang : Quiet (modify fun s => { s with lexer := s.lexer.skipShebang } : Parser Unit) :=
    quiet_modify fun _ => rfl
  refine .quiet fun _ => .quiet fun _ => ?_
  apply (AnswersIn.collect (P := final.Permits .none) _).bind
  · intro statements
    apply AnswersIn.quiet
    intro s
    apply (AnswersIn.addNode _).mono
    intro root hshows hstatements
    have hstatements : final.AllPermit .none statements := hstatements
    have hparts : final.AllPermit .none
        ([Slot.list ⟨statements.map some, 0, s.lexer.size⟩].flatMap Slot.children) := by
      simpa [Slot.children] using hstatements
    exact .of_content hshows rfl hparts
  · exact .quiet fun _ => .ite (.pure (by simp)) (hstatement.map (by simp))

end Grammar

open Grammar

theorem permits_root_of_parse {text : List Char} {fileName : Option String} {parsed : Parsed}
    (h : parse text fileName = .ok parsed) : parsed.tree.Permits .none parsed.root := by
  simp only [parse, State.readProgram] at h
  cases hrun : program {} (.ofText text) with
  | ok root s =>
      simp only [hrun] at h
      obtain rfl := Except.ok.inj h
      exact (permits_program s.tree _ _ _ hrun (.refl _ _)).2
  | error failure s => simp [hrun] at h

/-- Each `await` has one nearest function, which is async; each `yield` has one too, which is a
generator and no arrow function. -/
theorem nearestFunction_of_parse {text : List Char} {fileName : Option String} {parsed : Parsed}
    (h : parse text fileName = .ok parsed) {id : NodeId} {node : Node}
    (hid : parsed.tree.Reaches parsed.root id) (hnode : parsed.tree.get? id = some node)
    (hkind : node.kind = .awaitExpression ∨ node.kind = .yieldExpression) :
    ∃ f function, (∀ g, parsed.tree.NearestFunction parsed.root g id ↔ g = f) ∧
      parsed.tree.get? f = some function ∧
      (node.kind = .awaitExpression → function.flags.async) ∧
      (node.kind = .yieldExpression →
        function.kind ≠ .arrowFunctionExpression ∧ function.flags.generator) := by
  have htree := (wellFormed_of_parse h).isTree
  obtain ⟨f, function, hnearest, hf, hpermits⟩ | ⟨-, hpermits⟩ :=
    (permits_root_of_parse h).nearest htree hid
  · obtain ⟨hadmits, -⟩ := hpermits.of_get? hnode
    refine ⟨f, function, fun g => ⟨fun hg => hg.eq htree hnearest, ?_⟩, hf, ?_, ?_⟩
    · rintro rfl
      exact hnearest
    · intro hawait
      rw [hawait] at hadmits
      exact hadmits
    · intro hyield
      rw [hyield] at hadmits
      simpa [Operators.admits, Operators.ofFunction] using hadmits
  · -- Outside of all functions neither of the two may stand.
    obtain ⟨hadmits, -⟩ := hpermits.of_get? hnode
    rcases hkind with hkind | hkind
    · rw [hkind] at hadmits
      cases hadmits
    · rw [hkind] at hadmits
      cases hadmits

/-- An async arrow function in the parameters of a generator. -/
theorem nearestFunction_of_parse_nested :
    ∃ parsed, parse "function* f(a = async () => await b) { yield a }".toList none = .ok parsed ∧
      ∀ kind ∈ [NodeKind.awaitExpression, .yieldExpression],
        ∃ id node f function, parsed.tree.Reaches parsed.root id ∧
          parsed.tree.get? id = some node ∧ node.kind = kind ∧
          parsed.tree.NearestFunction parsed.root f id ∧ parsed.tree.get? f = some function ∧
          (kind = .awaitExpression → function.flags.async) ∧
          (kind = .yieldExpression →
            function.kind ≠ .arrowFunctionExpression ∧ function.flags.generator) := by
  have hfound : (parse "function* f(a = async () => await b) { yield a }".toList none).toOption.any
      (fun parsed => [NodeKind.awaitExpression, .yieldExpression].all fun kind =>
        (parsed.tree.descendants parsed.root).any fun id => parsed.tree.kind? id == some kind) := by
    decide +kernel
  cases hparse : parse "function* f(a = async () => await b) { yield a }".toList none with
  | error e =>
      rw [hparse] at hfound
      cases hfound
  | ok parsed =>
      rw [hparse] at hfound
      refine ⟨parsed, rfl, fun kind hkind => ?_⟩
      obtain ⟨id, hid, hfound⟩ := List.any_eq_true.mp (List.all_eq_true.mp hfound kind hkind)
      obtain ⟨node, hnode, hsame⟩ := Option.map_eq_some_iff.mp (beq_iff_eq.mp hfound)
      have hreaches : parsed.tree.Reaches parsed.root id :=
        (Tree.mem_descendants (wellFormed_of_parse hparse).isTree.acyclic .refl).mp hid |>.1
      have hoperator : node.kind = .awaitExpression ∨ node.kind = .yieldExpression := by
        simpa [hsame] using hkind
      obtain ⟨f, function, hnearest, hf, hasync, hgenerator⟩ :=
        nearestFunction_of_parse hparse hreaches hnode hoperator
      subst hsame
      exact ⟨id, node, f, function, hreaches, hnode, rfl, (hnearest f).mpr rfl, hf, hasync,
        hgenerator⟩

end FlowErasure
