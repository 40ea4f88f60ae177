import FlowErasure.Proofs.Frame.Expressions
import FlowErasure.Proofs.Nesting.Types

/-!
# Ranks of expressions

Turning an expression into an assignment target keeps the ranks, but for one case: an assignment,
which is of the last stages of its level, becomes a default, which is of the first stages of the
next.
-/

namespace FlowErasure.Grammar

variable {final : Tree} {c : Context} {b : Nat}

/-! ## Assignment targets -/

/-- What comes of a conversion is below each rank that what was converted is below, if that is a
rank for the holder of a target. -/
def Converts (final : Tree) (ids ids' : List NodeId) : Prop :=
  ∀ n, 3 ≤ n % 16 → n % 16 ≤ 13 → final.AllBelow n ids → final.AllBelow n ids'

section Targets

variable {i : NodeId} {node : Node}

theorem converts_self {ids : List NodeId} : Converts final ids ids :=
  fun _ _ _ h => h

theorem converts_of_below {i' : NodeId}
    (h : ∀ n, 3 ≤ n % 16 → n % 16 ≤ 13 → final.Below n i → final.Below n i') :
    Converts final [i] [i'] := by
  intro n hle hle' hi
  have hi : final.Below n i := by simpa using hi
  simpa using h n hle hle' hi

theorem converts_append {as as' bs bs' : List NodeId} (h : Converts final as as')
    (h' : Converts final bs bs') : Converts final (as ++ bs) (as' ++ bs') := by
  intro n hle hle' hall
  rw [Tree.allBelow_append] at hall ⊢
  exact ⟨h n hle hle' hall.1, h' n hle hle' hall.2⟩

/-- A kind with the stages of another one fits where that one fits. -/
theorem fitsAt_congr {kind kind' : NodeKind} {rank : Nat} (hfits : kind.fitsAt rank)
    (hstages : (kind.stages == kind'.stages && kind != .identifier && kind' != .identifier) = true) :
    kind'.fitsAt rank := by
  simp only [Bool.and_eq_true, beq_iff_eq, bne_iff_ne, ne_eq] at hstages
  simpa [NodeKind.fitsAt, hstages.1.1, hstages.1.2, hstages.2] using hfits

theorem mod_of_fitsAt {kind : NodeKind} {rank stage : Nat} (hfits : kind.fitsAt rank)
    (hstages : (kind.stages == [stage] && kind != .identifier) = true) : rank % 16 = stage := by
  simp only [Bool.and_eq_true, beq_iff_eq, bne_iff_ne, ne_eq] at hstages
  simp only [NodeKind.fitsAt, hstages.1, if_neg hstages.2, Bool.and_eq_true] at hfits
  simpa using hfits.2

theorem answers_rebuild {kind : NodeKind} {flags : NodeFlags} {slots : List Slot} :
    AnswersIn Node.shape final c (rebuild node kind flags slots) fun id =>
      final.shape? id = some (kind, Tree.fitSlots kind slots) :=
  .addNode _

theorem converts_mapM_elements {convert : NodeId → Parser NodeId} {hole : Parser (Option NodeId)}
    (hconvert : ∀ id, AnswersIn Node.shape final c (convert id) fun t => Converts final [id] [t])
    (hhole : AnswersIn Node.shape final c hole fun a => a = none) (nodes : List (Option NodeId)) :
    AnswersIn Node.shape final c (nodes.mapM fun
      | none => hole
      | some element => some <$> convert element) fun nodes' =>
        Converts final (nodes.filterMap id) (nodes'.filterMap id) :=
  .mapM_elements converts_self (fun _ _ _ _ => converts_append) hconvert hhole nodes

variable {target : NodeId → Parser NodeId}

theorem converts_patternElement
    (htarget : ∀ id, AnswersIn Node.shape final c (target id) fun t => Converts final [id] [t])
    (id : NodeId) :
    AnswersIn Node.shape final c (patternElement target id) fun t => Converts final [id] [t] := by
  refine AnswersIn.found fun node => ?_
  split
  · rename_i hkind
    split
    · rename_i argument hargument
      refine (htarget argument).bind fun argument' => ?_
      refine answers_rebuild.mono fun t hshape htarget hnode => converts_of_below ?_
      intro n hle hle' hid
      obtain ⟨rank, hlt, hfits, hfields⟩ := hid.exists_fields hnode (by rw [hkind]; decide)
      rw [hkind] at hfits
      have hstage : rank % 16 = 2 := mod_of_fitsAt hfits rfl
      obtain ⟨slot, hslot, hargument⟩ := Option.bind_eq_some_iff.mp hargument
      obtain ⟨spec, hmem, -⟩ := Node.exists_mem_fields hslot
      have hbelow : final.AllBelow rank [argument] := by
        cases slot <;> cases hargument
        exact hfields spec _ hmem
      have hbelow' := htarget (rank + 1) (by omega) (by omega) (hbelow.mono (by omega))
      have hargument' : final.Below (rank + 1) argument' := by simpa using hbelow'
      exact .of_rest hlt (fitsAt_congr hfits rfl) hshape (hargument'.mono (by omega))
    · exact .fail
  · rename_i hkind
    refine .ite ?_ ((htarget id).mono fun t ht _ => ht)
    refine answers_rebuild.mono fun t hshape hnode => converts_of_below ?_
    intro n hle hle' hid
    obtain ⟨rank, hlt, hfits, hfields⟩ := hid.exists_fields hnode (by rw [hkind]; decide)
    rw [hkind] at hfits
    -- The default has its rank on the next level.
    have hstage : rank % 16 = 13 := mod_of_fitsAt hfits rfl
    have hfits' : NodeKind.assignmentPattern.fitsAt (rank + 5) := by
      have hmod : (rank + 5) % 16 = 2 := by omega
      have hle := NodeKind.le_of_fitsAt hfits
      simp [NodeKind.fitsAt, NodeKind.stages, hmod]
      omega
    refine .of_fields (by omega) hfits' hshape fun spec slot hmem => ?_
    have hslot : final.AllBelow rank slot.children := by
      refine hfields spec slot ?_
      rw [Node.fields, hkind]
      exact hmem
    exact (hslot.mono (by omega)).mono (NodeKind.le_limit ..)
  · exact .pure fun _ => converts_self
  · exact (htarget id).mono fun t ht _ => ht

theorem converts_patternProperty
    (htarget : ∀ id, AnswersIn Node.shape final c (target id) fun t => Converts final [id] [t])
    (id : NodeId) :
    AnswersIn Node.shape final c (patternProperty target id) fun t => Converts final [id] [t] := by
  refine AnswersIn.found fun node => ?_
  split
  · exact (converts_patternElement htarget id).mono fun t ht _ => ht
  · rename_i hkind
    refine .when ?_
    split
    · rename_i value hvalue
      refine (converts_patternElement htarget value).bind fun value' => ?_
      refine answers_rebuild.mono fun t hshape hconverts hnode => converts_of_below ?_
      intro n hle hle' hid
      obtain ⟨rank, hlt, hfits, hfields⟩ := hid.exists_fields hnode (by rw [hkind]; decide)
      rw [hkind] at hfits
      have hstage : rank % 16 = 5 := mod_of_fitsAt hfits rfl
      have hkey : final.AllBelow rank ((node.slot? .key).getD .absent).children := by
        cases hslot : node.slot? .key with
        | none => simp
        | some slot =>
            obtain ⟨spec, hmem, -⟩ := Node.exists_mem_fields hslot
            exact hfields spec slot hmem
      obtain ⟨slot, hslot, hvalue⟩ := Option.bind_eq_some_iff.mp hvalue
      obtain ⟨spec, hmem, -⟩ := Node.exists_mem_fields hslot
      have hbelow : final.AllBelow rank [value] := by
        cases slot <;> cases hvalue
        exact hfields spec _ hmem
      have hbelow' := hconverts rank (by omega) (by omega) hbelow
      exact .of_children hlt hfits hshape (by simp_all)
    · exact .fail
  · exact .fail

theorem converts_literal (stage : Nat) {kind kind' : NodeKind} {field : Field} {items : NodeList}
    {nodes : List (Option NodeId)} {t : NodeId} (hkind : node.kind = kind)
    (hplain : ∀ spec ∈ kind.schema,
      (kind.isLeftSpine spec.field || kind.isUnguarded spec.field) = false)
    (hstages : (kind.stages == [stage] && kind != .identifier) = true)
    (hstages' : (kind.stages == kind'.stages && kind != .identifier && kind' != .identifier) = true)
    (hstage : 3 ≤ stage ∧ stage ≤ 13)
    (hitems : (node.slot? field).bind Slot.list? = some items)
    (hnode : final.shape? i = some (node.kind, node.slots))
    (hshape : final.shape? t = some (kind', Tree.fitSlots kind' [.list { items with nodes }]))
    (hconverts : Converts final (items.nodes.filterMap id) (nodes.filterMap id)) :
    Converts final [i] [t] := by
  refine converts_of_below fun n hle hle' hid => ?_
  subst hkind
  obtain ⟨rank, hlt, hfits, hfields⟩ := hid.exists_fields hnode hplain
  have hmod := mod_of_fitsAt hfits hstages
  obtain ⟨slot, hslot, hlist⟩ := Option.bind_eq_some_iff.mp hitems
  obtain ⟨spec, hmem, -⟩ := Node.exists_mem_fields hslot
  have hbelow : final.AllBelow rank (items.nodes.filterMap id) := by
    cases slot <;> cases hlist
    exact hfields spec _ hmem
  have hbelow' := hconverts rank (by omega) (by omega) hbelow
  exact .of_children hlt (fitsAt_congr hfits hstages') hshape (by simpa using hbelow')

theorem converts_assignmentTargetWithin (bound : Nat) (id : NodeId) :
    AnswersIn Node.shape final c (assignmentTargetWithin bound id) fun t =>
      Converts final [id] [t] := by
  induction bound generalizing id with
  | zero => exact .fail (p := failTarget id)
  | succ bound ih =>
      refine AnswersIn.found fun node => ?_
      split
      · exact .pure fun _ => converts_self
      · exact .pure fun _ => converts_self
      · exact .pure fun _ => converts_self
      · exact .pure fun _ => converts_self
      · rename_i hkind
        split
        · rename_i items hitems
          refine (converts_mapM_elements (converts_patternProperty ih) .fail _).bind fun nodes => ?_
          refine answers_rebuild.mono fun t hshape hconverts hnode => ?_
          exact converts_literal 6 hkind (by decide) rfl rfl (by decide) hitems hnode hshape hconverts
        · exact .fail
      · rename_i hkind
        split
        · rename_i items hitems
          refine (converts_mapM_elements (converts_patternElement ih) (.pure rfl) _).bind ?_
          intro nodes
          refine answers_rebuild.mono fun t hshape hconverts hnode => ?_
          exact converts_literal 3 hkind (by decide) rfl rfl (by decide) hitems hnode hshape hconverts
        · exact .fail
      · exact .fail

theorem converts_assignmentTarget (id : NodeId) :
    AnswersIn Node.shape final c (assignmentTarget id) fun t => Converts final [id] [t] :=
  converts_assignmentTargetWithin _ id

end Targets

variable {inner : Nested} (h : inner.Ranked final b)

include h

/-! ## Expressions -/

theorem ranks_expression : RanksBelow final c (b + 3) (expression inner) := by
  have hassignment := h.assignment.le (c := c) (n := b + 2) (by omega)
  refine .quiet fun start => hassignment.bind fun first => ?_
  refine (RanksBelow.afterComma hassignment).bind fun more => .ite (.pure ?_) ?_
  · exact fun _ hid => hid.mono (by omega)
  · refine AnswersIn.listed.bind fun slot => ?_
    exact .ranked (h.fits 2 rfl) (by simp_all)

theorem ranks_spreadOrAssignment : RanksBelow final c (b + 3) (spreadOrAssignment inner) := by
  have hassignment := h.assignment.le (c := c) (n := b + 2) (by omega)
  refine .quiet fun _ => .ite ?_ (h.assignment.le (by omega))
  refine .quiet fun start => .quiet fun _ => hassignment.bind fun argument => ?_
  exact .ranked (h.fits 2 rfl) (by simp_all)

/-! ### Literals -/

theorem ranks_parenthesizedExpression :
    RanksBelow final c (b + 3) (parenthesizedExpression inner) := by
  refine .quiet fun _ => (ranks_expression h).withReader.bind fun expression => ?_
  exact .quiet fun _ => .when (.quiet fun _ => .pure fun hid => hid)

theorem ranks_templateElement (start : Nat) :
    RanksBelow final c (b + 3) (finish .templateElement start []) := by
  have hfirst := h.first
  have helement : RanksBelow final c 17 (finish .templateElement start []) :=
    .ranked (by decide : NodeKind.templateElement.fitsAt 16) (by simp_all)
  exact helement.le (by omega)

theorem ranks_templateRest (quasi : NodeId) :
    AnswersIn Node.shape final c (templateRest inner quasi) fun parts =>
      final.Below (b + 3) quasi → final.AllBelow (b + 3) (parts.1 ++ parts.2) := by
  refine (AnswersIn.iterate
    (P := fun parts => final.AllBelow (b + 3) (parts.1 ++ parts.2.1)) ?_).bind ?_
  · rintro ⟨quasis, expressions, ended⟩
    refine .ite (.pure (by simp)) ?_
    refine (ranks_expression h).withReader.bind fun expression => ?_
    refine .quiet fun _ => .when (.quiet fun _ => .quiet fun _ => .quiet fun start => ?_)
    exact .quiet fun _ => (ranks_templateElement h _).bind fun quasi => .pure (by simp_all)
  · rintro ⟨quasis, expressions, ended⟩
    exact .pure (by simp_all)

theorem ranks_templateLiteral : RanksBelow final c (b + 4) (templateLiteral inner) := by
  refine .quiet fun start => .quiet fun head => .quiet fun _ => ?_
  refine (ranks_templateElement h _).bind fun quasi => ?_
  refine .join (fun parts => final.Below (b + 3) quasi →
    final.AllBelow (b + 3) (parts.1 ++ parts.2)) (ranks_templateRest h quasi) (.pure (by simp)) ?_
  rintro ⟨quasis, expressions⟩
  refine AnswersIn.listed.bind fun slot => ?_
  refine AnswersIn.listed.bind fun slot' => ?_
  exact .ranked (h.fits 3 rfl) (by simp_all)

theorem ranks_arrayLiteral : RanksBelow final c (b + 4) (arrayLiteral inner) := by
  have helement := (ranks_spreadOrAssignment h).withReader (c := c) (g := ({ · with noIn := false }))
  refine .quiet fun start => .quiet fun _ => (ranks_elements helement).bind fun nodes => ?_
  exact .quiet fun _ => .quiet fun stop => .ranked (h.fits 3 rfl) (by simp_all)

theorem ranks_propertyRest (start : Nat) (key : NodeId) (computed canBeShorthand : Bool) :
    AnswersIn Node.shape final c (propertyRest inner start key computed canBeShorthand) fun id =>
      final.Below (b + 2) key → final.Below (b + 6) id := by
  have hvalue := h.assignment.le (c := c) (n := b + 5) (by omega)
  refine .quiet fun _ => .ite ?_ (.quiet fun _ => .ite ?_ .fail)
  · refine hvalue.bind fun value => .rankedWith (h.fits 5 rfl) fun id hid hvalue hkey => ?_
    have hkey : final.Below (b + 5) key := hkey.mono (by omega)
    exact hid (by simp_all)
  · refine (ranks_shorthandDefault h start key).bind fun value => ?_
    refine .rankedWith (h.fits 5 rfl) fun id hid hvalue hkey => ?_
    have hvalue : final.Below (b + 5) value := (hvalue hkey).mono (by omega)
    exact hid (by simp_all)

theorem ranks_objectMember : RanksBelow final c (b + 6) (objectMember inner) := by
  refine .quiet fun _ => .ite ((ranks_spreadOrAssignment h).le (by omega)) ?_
  refine .quiet fun start => .quiet fun flags => .quiet fun flags => .quiet fun t => .when ?_
  refine .quiet fun _ => (ranks_propertyName h).bind ?_
  rintro ⟨key, computed⟩
  refine .quiet fun _ => .ite ?_ (.ite .fail (ranks_propertyRest h start key _ _))
  refine (ranks_methodFunction h _).bind fun value => ?_
  refine .rankedWith (h.fits 5 rfl) fun id hid hvalue hkey => ?_
  have hkey : final.Below (b + 5) key := hkey.mono (by omega)
  exact hid (by simp_all)

theorem ranks_objectLiteral : RanksBelow final c (b + 7) (objectLiteral inner) := by
  refine .quiet fun start => .quiet fun _ => ?_
  refine (RanksBelow.commaTerminated (ranks_objectMember h).withReader).bind fun ids => ?_
  refine .quiet fun _ => AnswersIn.listed.bind fun slot => ?_
  exact .ranked (h.fits 6 rfl) (by simp_all)

theorem ranks_primary {heritage : Parser NodeId} (hheritage : RanksBelow final c (b + 16) heritage) :
    RanksBelow final c (b + 7) (primary inner heritage) := by
  have hfirst := h.first
  have hliteral := (ranks_literal h).le (c := c) (n := b + 7) (by omega)
  have hname := (ranks_name h).le (c := c) (n := b + 7) (by omega)
  have hfunction : ∀ start,
      RanksBelow final c (b + 7) (function inner .functionExpression start true) :=
    fun start => (ranks_function h (h.fits 4 rfl) start true).le (by omega)
  refine .quiet fun start => .quiet fun t => ?_
  split
  · refine .quiet fun _ => RanksBelow.le (m := 17) ?_ (by omega)
    exact .ranked (by decide : NodeKind.thisExpression.fitsAt 16) (by simp_all)
  · exact hliteral
  · exact hliteral
  · exact hliteral
  · exact hliteral
  · exact hliteral
  · exact .quiet fun _ => hliteral
  · exact .quiet fun _ => hliteral
  · exact (ranks_templateLiteral h).le (by omega)
  · exact (ranks_templateLiteral h).le (by omega)
  · exact (ranks_parenthesizedExpression h).le (by omega)
  · exact (ranks_arrayLiteral h).le (by omega)
  · exact ranks_objectLiteral h
  · exact hfunction start
  · exact .quiet fun _ => .ite (hfunction start) hname
  · exact (ranks_classOf h hheritage (.inr rfl) start true).le (by omega)
  · exact .fail
  · exact .quiet fun _ => .ite hname .fail

/-! ### Member access and calls -/

theorem ranks_arguments : AllRankBelow final c (b + 3) (arguments inner) Slot.children := by
  refine .quiet fun start => .quiet fun _ => ?_
  refine (RanksBelow.commaTerminated (ranks_spreadOrAssignment h).withReader).bind fun ids => ?_
  exact .quiet fun _ => .listFrom (by simp_all)

/-- A chain that is all of one rank, at a stage for the links it may have. -/
theorem ranks_accessesAndCalls (start : Nat) {allowCall : Bool} {rank : Nat} (hle : b + 4 ≤ rank)
    (hmember : NodeKind.memberExpression.fitsAt rank)
    (htagged : NodeKind.taggedTemplateExpression.fitsAt rank)
    (hcall : allowCall → NodeKind.callExpression.fitsAt rank) (expression₀ : NodeId) :
    AnswersIn Node.shape final c (accessesAndCalls inner start allowCall expression₀) fun id =>
      final.Below (rank + 1) expression₀ → final.Below (rank + 1) id := by
  have hname := (ranks_word h).le (c := c) (n := rank) (by omega)
  have hexpression : ∀ c, RanksBelow final c rank (expression inner) :=
    fun _ => (ranks_expression h).le (by omega)
  have harguments := (ranks_arguments h).le (c := c) (n := rank) (by omega)
  have htemplate := (ranks_templateLiteral h).le (c := c) (n := rank) (by omega)
  -- Each link is a node with the chain so far in its first field.
  have hlink : ∀ (object : NodeId) (kind : NodeKind) slots details, kind.fitsAt rank →
      (∃ spec specs, kind.schema = spec :: specs ∧ kind.isLeftSpine spec.field) →
      AnswersIn Node.shape final c
        (some <$> finishWith kind start (.node object :: slots) details) fun r =>
          final.AllBelow rank (slots.flatMap Slot.children) → final.Below (rank + 1) object →
            ∀ id ∈ r, final.Below (rank + 1) id := by
    intro object kind slots details hfits hspine
    have hlink : AnswersIn Node.shape final c
        (finishWith kind start (.node object :: slots) details) fun id =>
          final.AllBelow rank (slots.flatMap Slot.children) → final.Below (rank + 1) object →
            final.Below (rank + 1) id :=
      .rankedLeft hfits hspine (by simp_all)
    exact hlink.map fun id hid hslots hobject => by simpa using hid hslots hobject
  refine .iterate fun object => .quiet fun t => ?_
  split
  · refine .quiet fun _ => hname.bind fun property => ?_
    exact (hlink object _ [.node property] {} hmember ⟨_, _, rfl, rfl⟩).mono (by simp_all)
  · refine .quiet fun _ => (hexpression _).withReader.bind fun property => .quiet fun _ => ?_
    exact (hlink object _ [.node property] _ hmember ⟨_, _, rfl, rfl⟩).mono (by simp_all)
  · split
    · rename_i hallow
      refine harguments.bind fun arguments => ?_
      exact (hlink object _ [arguments] {} (hcall hallow) ⟨_, _, rfl, rfl⟩).mono (by simp_all)
    · exact .pure (by simp)
  · refine htemplate.bind fun quasi => ?_
    exact (hlink object _ [.node quasi] {} htagged ⟨_, _, rfl, rfl⟩).mono (by simp_all)
  · refine htemplate.bind fun quasi => ?_
    exact (hlink object _ [.node quasi] {} htagged ⟨_, _, rfl, rfl⟩).mono (by simp_all)
  · exact .pure (by simp)

theorem ranks_newExpression {operand : Parser NodeId} (hoperand : RanksBelow final c (b + 7) operand) :
    RanksBelow final c (b + 9) (newExpression inner operand) := by
  have hconstruction := h.construction.le (c := c) (n := b + 8) (by omega)
  have harguments := (ranks_arguments h).le (c := c) (n := b + 8) (by omega)
  refine .quiet fun start => .quiet fun _ => .quiet fun calleeStart => .quiet fun _ => ?_
  refine .join (final.Below (b + 8)) hconstruction (hoperand.le (by omega)) fun callee => ?_
  refine (ranks_accessesAndCalls h calleeStart (by omega : b + 4 ≤ b + 7) (h.fits 7 rfl)
    (h.fits 7 rfl) (by simp) callee).bind fun callee => ?_
  refine .quiet fun _ => .join (fun arguments => final.AllBelow (b + 8) arguments.children)
    harguments (.pure (by simp)) fun arguments => ?_
  exact .ranked (h.fits 8 rfl) (by simp_all)

theorem ranks_leftHandSideWithin (bound : Nat) :
    RanksBelow final c (b + 10) (leftHandSideWithin inner bound) := by
  have hfirst := h.first
  induction bound with
  | zero => exact .fail (p := failUnexpected)
  | succ bound ih =>
      have hoperand := ranks_primary h (ih.le (c := c) (n := b + 16) (by omega))
      have hsuper : ∀ start, RanksBelow final c 17 (finish .super start []) := fun start =>
        .ranked (by decide : NodeKind.super.fitsAt 16) (by simp_all)
      refine .quiet fun start => .quiet fun t => ?_
      extract_lets rest
      have hrest : ∀ id, AnswersIn Node.shape final c (rest id) fun id' =>
          final.Below (b + 10) id → final.Below (b + 10) id' := fun id =>
        ranks_accessesAndCalls h start (by omega) (h.fits 9 rfl) (h.fits 9 rfl)
          (fun _ => h.fits 9 rfl) id
      split
      · exact ((ranks_newExpression h hoperand).le (by omega)).bind hrest
      · exact .quiet fun _ => ((hsuper start).le (by omega)).bind hrest
      · exact (hoperand.le (by omega)).bind hrest

theorem ranks_leftHandSide : RanksBelow final c (b + 10) (leftHandSide inner) :=
  .quiet fun _ => ranks_leftHandSideWithin h _

theorem ranks_construction : RanksBelow final c (b + 9) (construction inner) :=
  ranks_newExpression h (ranks_primary h ((ranks_leftHandSide h).le (by omega)))

/-! ### Operators -/

theorem ranks_postfixExpression : RanksBelow final c (b + 11) (postfixExpression inner) := by
  refine .quiet fun start => (ranks_leftHandSide h).bind fun operand => ?_
  refine .quiet fun t => .quiet fun _ => .ite (.quiet fun _ => ?_) (.pure ?_)
  · exact .rankedWith (h.fits 10 rfl) (by simp_all)
  · exact fun hid => hid.mono (by omega)

theorem ranks_prefixOperation {kind : NodeKind} {rank : Nat} (hfits : kind.fitsAt rank)
    (hle : b ≤ rank) : RanksBelow final c (rank + 1) (prefixOperation inner kind) := by
  refine .quiet fun start => .quiet fun t => .quiet fun _ => ?_
  exact (h.unary.le hle).bind fun argument => .rankedWith hfits (by simp_all)

theorem ranks_unary : RanksBelow final c (b + 11) (unary inner) := by
  have hunary := h.unary.le (c := c) (n := b + 2) (by omega)
  have hoperation : RanksBelow final c (b + 11) (prefixOperation inner .unaryExpression) :=
    (ranks_prefixOperation h (h.fits 2 rfl) (by omega)).le (by omega)
  have hupdate : RanksBelow final c (b + 11) (prefixOperation inner .updateExpression) :=
    ranks_prefixOperation h (h.fits 10 rfl) (by omega)
  refine .quiet fun t => ?_
  split
  · exact hoperation
  · exact hoperation
  · exact hoperation
  · exact hoperation
  · exact hoperation
  · exact hoperation
  · exact hoperation
  · exact hupdate
  · exact hupdate
  · refine .quiet fun _ => .ite ?_ (ranks_postfixExpression h)
    refine RanksBelow.le (m := b + 3) (.quiet fun start => .quiet fun _ => ?_) (by omega)
    exact hunary.bind fun argument => .ranked (h.fits 2 rfl) (by simp_all)
  · exact ranks_postfixExpression h

theorem ranks_binary (precedence : Nat) : RanksBelow final c (b + 12) (binary inner precedence) := by
  refine .quiet fun start => ((ranks_unary h).le (n := b + 12) (by omega)).bind fun first => ?_
  refine .iterate fun left => .quiet fun _ => .quiet fun t => .quiet fun next => ?_
  refine .ite (.pure (by simp)) (.quiet fun _ => ?_)
  refine ((h.binary next).le (n := b + 11) (by omega)).bind fun right => ?_
  have hkind : ∀ kind : NodeKind, kind = .logicalExpression ∨ kind = .binaryExpression →
      AnswersIn Node.shape final c
        (finishWith kind start [.node left, .node right] { token := t }) fun id =>
          final.Below (b + 11) right → final.Below (b + 12) left → final.Below (b + 12) id := by
    rintro kind (rfl | rfl)
    · exact .rankedLeft (h.fits 11 rfl) ⟨_, _, rfl, rfl⟩ (by simp_all)
    · exact .rankedLeft (h.fits 11 rfl) ⟨_, _, rfl, rfl⟩ (by simp_all)
  refine (hkind _ ?_).bind fun id => .pure (by simp_all)
  split
  · exact .inl rfl
  · exact .inr rfl

theorem ranks_conditional (tail : Bool) : RanksBelow final c (b + 13) (conditional inner tail) := by
  have hbranch : ∀ c, RanksBelow final c (b + 12) inner.assignment :=
    fun _ => h.assignment.le (by omega)
  refine .quiet fun start => (ranks_binary h 0).bind fun test => .quiet fun _ => ?_
  refine .ite (.pure fun hid => hid.mono (by omega)) (.quiet fun _ => ?_)
  refine (hbranch _).withReader.withReader.bind fun consequent => .quiet fun _ => ?_
  refine (hbranch _).withReader.bind fun alternate => .ranked (h.fits 12 rfl) ?_
  simp_all

/-! ### Arrow functions -/

theorem ranks_singleParameterHead (isAsync : Bool) :
    AllRankBelow final c (b + 4) (singleParameterHead isAsync) ArrowHead.nodes := by
  have hname := (ranks_name h).le (c := c) (n := b + 4) (by omega)
  refine .quiet fun start => hname.bind fun param => ?_
  refine AnswersIn.listed.bind fun params => .quiet fun _ => .pure ?_
  simp_all [ArrowHead.nodes]

theorem ranks_parameterListHead (isAsync : Bool) :
    AllRankBelow final c (b + 4) (parameterListHead inner isAsync) ArrowHead.nodes := by
  have hparams : ∀ c, AllRankBelow final c (b + 4) (parameterList inner) Slot.children :=
    fun _ => (ranks_parameterList h).le (by omega)
  have hascription := (ranks_ascription? h).le (c := c) (n := b + 4) (by omega)
  refine (ranks_typeParameters? h).bind fun typeParameters => ?_
  refine (hparams _).withReader.bind fun params => hascription.bind fun returnType => ?_
  exact .quiet fun _ => .pure (by simp_all [ArrowHead.nodes])

theorem ranks_arrowHead : AllRankBelow final c (b + 4) (arrowHead inner) ArrowHead.nodes := by
  refine .quiet fun _ => .ite (ranks_singleParameterHead h false) (.quiet fun _ => ?_)
  refine .either fun isAsync => .ite ?_ (ranks_parameterListHead h false)
  refine .quiet fun _ => .quiet fun _ => ?_
  exact .ite (ranks_singleParameterHead h true) (ranks_parameterListHead h true)

theorem ranks_tryArrowHead (tail : Bool) :
    AnswersIn Node.shape final c (tryArrowHead inner tail) fun head =>
      ∀ head' ∈ head, final.AllBelow (b + 4) head'.nodes := by
  refine .attempt (fun base => keeps_arrowHeadBefore (h.keeps base) tail) ?_
  exact (ranks_arrowHead h).bind fun head => .when (.pure fun hhead => hhead)

theorem ranks_arrowBody (isAsync tail : Bool) :
    RanksBelow final c (b + 3) (arrowBody inner isAsync tail) :=
  .quiet fun _ => .ite (ranks_functionBody h isAsync false)
    (h.assignment.le (by omega)).withReader.withReader

theorem ranks_arrowFunction? (tail : Bool) :
    AllRankBelow final c (b + 5) (arrowFunction? inner tail) Option.toList := by
  refine .quiet fun _ => .ite (.pure (by simp)) (.quiet fun start => ?_)
  refine (ranks_tryArrowHead h tail).bind fun head => ?_
  cases head with
  | none => exact .pure (by simp)
  | some head =>
      have hbody := (ranks_arrowBody h head.isAsync tail).le (c := c) (n := b + 4) (by omega)
      refine .quiet fun _ => hbody.bind fun body => ?_
      have harrow : ∀ flags, AnswersIn Node.shape final c (finishWith .arrowFunctionExpression start
          [.ofOption head.typeParameters, head.params, .ofOption head.returnType, .node body]
          { flags }) fun id =>
            final.Below (b + 4) body → final.AllBelow (b + 4) head.nodes → final.Below (b + 5) id :=
        fun flags => .rankedWith (h.fits 4 rfl) (by simp_all [ArrowHead.nodes])
      exact (harrow _).map (by simp_all)

/-! ### Assignments -/

theorem ranks_yieldExpression : RanksBelow final c (b + 3) (yieldExpression inner) := by
  have hargument := h.assignment.le (c := c) (n := b + 2) (by omega)
  have hnone : ∀ start, RanksBelow final c (b + 3) (finish .yieldExpression start [.absent]) :=
    fun start => .ranked (h.fits 2 rfl) (by simp_all)
  refine .quiet fun start => .quiet fun _ => .quiet fun _ => .ite (hnone start) ?_
  refine .quiet fun _ => .ite ?_ (.quiet fun _ => .ite (hnone start) ?_)
  · exact hargument.bind fun argument => .rankedWith (h.fits 2 rfl) (by simp_all)
  · exact hargument.bind fun argument => .ranked (h.fits 2 rfl) (by simp_all)

theorem ranks_assignmentTarget (id : NodeId) :
    AnswersIn Node.shape final c (assignmentTarget id) fun t =>
      final.Below (b + 13) id → final.Below (b + 13) t := by
  refine (converts_assignmentTarget id).mono fun t ht hid => ?_
  have hlevel := h.level
  have hall := ht (b + 13) (by omega) (by omega) (by simpa using hid)
  simpa using hall

theorem ranks_targetFor (operator : Token) (left : NodeId) :
    AnswersIn Node.shape final c (targetFor operator left) fun t =>
      final.Below (b + 13) left → final.Below (b + 13) t := by
  refine .ite (ranks_assignmentTarget h left) (AnswersIn.found fun node => ?_)
  split
  · exact .pure fun _ hleft => hleft
  · exact .pure fun _ hleft => hleft
  · exact .fail

theorem ranks_operation (tail : Bool) : RanksBelow final c (b + 14) (operation inner tail) := by
  have hvalue : ∀ c, RanksBelow final c (b + 13) inner.assignment :=
    fun _ => h.assignment.le (by omega)
  refine .quiet fun start => (ranks_conditional h tail).bind fun left => .quiet fun t => ?_
  refine .ite (.pure fun hid => hid.mono (by omega)) ?_
  refine (ranks_targetFor h t left).bind fun target => .quiet fun _ => ?_
  exact (hvalue _).withReader.bind fun right => .rankedWith (h.fits 13 rfl) (by simp_all)

theorem ranks_assignment : RanksBelow final c (b + 14) (assignment inner) := by
  have harrow : ∀ c tail, AllRankBelow final c (b + 14) (arrowFunction? inner tail) Option.toList :=
    fun _ tail => (ranks_arrowFunction? h tail).le (by omega)
  refine .quiet fun c => .withReader (.quiet fun _ => .quiet fun _ => ?_)
  refine .ite ((ranks_yieldExpression h).le (by omega)) ((harrow _ _).bind fun arrow => ?_)
  cases arrow with
  | none => exact (ranks_operation h _).mono fun id hid _ => hid
  | some arrow => exact .pure (by simp)

end FlowErasure.Grammar
