import FlowErasure.Proofs.Syntax.Growth
import FlowErasure.Proofs.Syntax.Removal
import Mathlib.Data.Nat.Count

/-!
# Ranks

How often a kind of node can occur on a way down a tree. The rules of one level of nesting are put
into an order of sixteen stages, each rule after those of its level it may call, so level and stage
together are a rank that falls from a node to the nodes below it. A kind stands at one stage of each
level, or at two, and so it occurs on a way down at most once or twice for each level.

There are two exceptions. Down a left spine the rank may stay the same: the chain has been read by a
loop, and the nodes in it are not counted. What a class extends and what a rest element holds may be
of any stage of the same level again, so nothing is said of ways that lead there.
-/

namespace FlowErasure

/-! ## Ways down a tree -/

/-- The field holds what stands to the left in a chain that is read by a loop. -/
def NodeKind.isLeftSpine : NodeKind → Field → Bool
  | .binaryExpression, .left | .logicalExpression, .left | .memberExpression, .object
  | .callExpression, .callee | .taggedTemplateExpression, .tag | .arrayType, .elementType
  | .qualifiedTypeIdentifier, .qualification => true
  | _, _ => false

/-- The field holds what a class extends or what a rest element is for. -/
def NodeKind.isUnguarded : NodeKind → Field → Bool
  | .classDeclaration, .superClass | .classExpression, .superClass | .restElement, .argument => true
  | _, _ => false

structure Step where
  holder : NodeKind
  field : Field
  entered : NodeKind
  deriving DecidableEq, Repr, Inhabited

namespace Step

def isUnguarded (step : Step) : Bool :=
  step.holder.isUnguarded step.field

/-- The step enters a node of the given kind, and not along a left spine. -/
def counts (kind : NodeKind) (step : Step) : Bool :=
  !step.holder.isLeftSpine step.field && step.entered == kind

end Step

inductive Tree.Leads (tree : Tree) : NodeId → List Step → NodeId → Prop
  | nil (id : NodeId) : tree.Leads id [] id
  | cons {a b c : NodeId} {holder entered : Node} {spec : FieldSpec} {slot : Slot}
      {steps : List Step} (holder_eq : tree.get? a = some holder)
      (mem_fields : (spec, slot) ∈ holder.fields) (mem_children : b ∈ slot.children)
      (entered_eq : tree.get? b = some entered) (rest : tree.Leads b steps c) :
      tree.Leads a (⟨holder.kind, spec.field, entered.kind⟩ :: steps) c

def Tree.walk? (tree : Tree) : NodeId → List Field → Option (List Step × NodeId)
  | a, [] => some ([], a)
  | a, field :: fields => do
    let holder ← tree.get? a
    let slot ← holder.slot? field
    let b ← slot.children.head?
    let entered ← tree.get? b
    let (steps, c) ← tree.walk? b fields
    return (⟨holder.kind, field, entered.kind⟩ :: steps, c)

theorem Node.exists_mem_fields {node : Node} {field : Field} {slot : Slot}
    (h : node.slot? field = some slot) : ∃ spec, (spec, slot) ∈ node.fields ∧ spec.field = field := by
  obtain ⟨index, hindex, hslot⟩ := Option.bind_eq_some_iff.mp h
  obtain ⟨spec, hspec, hfield⟩ := NodeKind.exists_of_fieldIndex? hindex
  exact ⟨spec, List.mem_of_getElem? (List.getElem?_zip_eq_some.mpr ⟨hspec, hslot⟩), hfield⟩

theorem Tree.leads_of_walk? {tree : Tree} {a c : NodeId} {fields : List Field} {steps : List Step}
    (h : tree.walk? a fields = some (steps, c)) : tree.Leads a steps c := by
  induction fields generalizing a steps with
  | nil =>
      obtain ⟨rfl, rfl⟩ : [] = steps ∧ a = c := by simpa [walk?] using h
      exact .nil a
  | cons field fields ih =>
      unfold walk? at h
      simp only [Option.bind_eq_bind, Option.bind_eq_some_iff] at h
      obtain ⟨holder, hholder, slot, hslot, b, hb, entered, hentered, ⟨rest, d⟩, hrest, heq⟩ := h
      obtain ⟨rfl, rfl⟩ : ⟨holder.kind, field, entered.kind⟩ :: rest = steps ∧ d = c := by
        simpa using heq
      obtain ⟨spec, hmem, rfl⟩ := Node.exists_mem_fields hslot
      exact .cons hholder hmem (List.mem_of_head? hb) hentered (ih hrest)

/-! ## The order of the rules -/

namespace NodeKind

/-- The stages of a level at which a node of the kind may be read. Stage 1 is for names without
anything; see `fitsAt`. -/
def stages : NodeKind → List Nat
  | .program | .emptyStatement | .debuggerStatement | .thisExpression | .super | .templateElement
  | .literal | .optionalMarker | .anyType | .mixedType | .voidType | .numberType | .stringType
  | .booleanType | .nullLiteralType | .stringLiteralType | .numberLiteralType
  | .booleanLiteralType | .existsType => [0]
  | .sequenceExpression | .spreadElement | .blockStatement | .classBody
  | .typeParameterInstantiation | .objectType | .tupleType | .nullableType | .typeofType
  | .typeParameter | .functionTypeParam | .objectTypeIndexer | .unaryExpression
  | .awaitExpression | .yieldExpression | .assignmentPattern | .restElement | .classProperty
  | .qualifiedTypeIdentifier | .labeledStatement | .breakStatement | .continueStatement
  | .importSpecifier | .importDefaultSpecifier | .importNamespaceSpecifier | .exportSpecifier
  | .exportAllDeclaration => [2]
  | .genericType | .typeParameterDeclaration | .classImplements | .interfaceExtends
  | .templateLiteral | .arrayExpression | .arrayPattern | .switchCase | .expressionStatement
  | .ifStatement | .whileStatement | .withStatement | .doWhileStatement | .returnStatement
  | .throwStatement | .declareModule | .importDeclaration => [3]
  | .functionType | .functionExpression | .functionDeclaration | .arrowFunctionExpression
  | .classExpression | .classDeclaration | .switchStatement | .interfaceDeclaration
  | .declareClass | .typeAlias => [4]
  | .arrayType | .property | .methodDefinition | .objectTypeProperty | .objectTypeCallProperty
  | .exportDefaultDeclaration => [5]
  | .intersectionType | .objectExpression | .objectPattern => [6]
  | .unionType => [7]
  | .ascription | .newExpression => [8]
  | .identifier | .callExpression => [9]
  -- Once in what `new` constructs, and once after that.
  | .memberExpression | .taggedTemplateExpression => [7, 9]
  | .updateExpression | .variableDeclarator | .catchClause | .declareVariable
  | .declareFunction => [10]
  | .binaryExpression | .logicalExpression | .variableDeclaration | .tryStatement => [11]
  | .conditionalExpression | .forStatement | .forInStatement | .forOfStatement
  | .exportNamedDeclaration => [12]
  | .assignmentExpression => [13]

/-- A node of the kind may have the given rank, sixteen times its level plus its stage. A name is of
rank 17, the least that leaves room for a mark, unless it has a type, and then it is not of the first
level. -/
def fitsAt (kind : NodeKind) (rank : Nat) : Bool :=
  if kind = .identifier then rank == 17 || (32 ≤ rank && rank % 16 == 9)
  else 16 ≤ rank && kind.stages.contains (rank % 16)

def limit (kind : NodeKind) (field : Field) (rank : Nat) : Nat :=
  if kind.isLeftSpine field then rank + 1
  else if kind.isUnguarded field then rank / 16 * 16 + 16
  else rank

/-- How many stages of a level a kind stands at. -/
def width : NodeKind → Nat
  | .memberExpression | .taggedTemplateExpression => 2
  | _ => 1

theorem le_limit (kind : NodeKind) (field : Field) (rank : Nat) : rank ≤ kind.limit field rank := by
  unfold limit
  split
  · omega
  · split <;> omega

theorem le_of_fitsAt {kind : NodeKind} {rank : Nat} (h : kind.fitsAt rank) : 16 ≤ rank := by
  unfold fitsAt at h
  split at h
  · simp only [Bool.or_eq_true, beq_iff_eq, Bool.and_eq_true, decide_eq_true_eq] at h
    omega
  · simp only [Bool.and_eq_true, decide_eq_true_eq] at h
    exact h.1

theorem fitsAt_of_stage {kind : NodeKind} {stage : Nat} (level : Nat)
    (hkind : (kind.stages.contains stage && kind != .identifier && stage < 16) = true) :
    kind.fitsAt (16 * level + 16 + stage) := by
  simp only [Bool.and_eq_true, bne_iff_ne, ne_eq, decide_eq_true_eq] at hkind
  have hstage : (16 * level + 16 + stage) % 16 = stage := by omega
  have hle : 16 ≤ 16 * level + 16 + stage := by omega
  simp only [fitsAt, if_neg hkind.1.2, hstage, hkind.1.1, hle, decide_true, Bool.and_true]

/-- The fields that are exceptions belong to kinds that do not stand at the start of a level. -/
theorem mod_ne_zero_of_isUnguarded {kind : NodeKind} {field : Field} {rank : Nat}
    (hfits : kind.fitsAt rank) (h : kind.isUnguarded field) : rank % 16 ≠ 0 := by
  unfold isUnguarded at h
  split at h
  · simp [fitsAt, stages] at hfits
    omega
  · simp [fitsAt, stages] at hfits
    omega
  · simp [fitsAt, stages] at hfits
    omega
  · cases h

theorem count_stages_le (kind : NodeKind) :
    Nat.count (fun stage => kind.stages.contains stage) 16 ≤ kind.width := by
  cases kind <;> decide

/-- A level has no more places for a kind than the kind has stages. -/
theorem count_level_le (kind : NodeKind) (level : Nat) :
    Nat.count (fun stage => kind.fitsAt (16 * level + 16 + stage)) 16 ≤ kind.width := by
  by_cases hkind : kind = .identifier
  · subst hkind
    -- The first level has the place for a name alone, the others that for a name with a type.
    by_cases hlevel : level = 0
    · subst hlevel
      decide
    · calc Nat.count (fun stage => NodeKind.identifier.fitsAt (16 * level + 16 + stage)) 16
          ≤ Nat.count (fun stage => stage = 9) 16 := by
            refine Nat.count_mono_left fun stage hstage hfits => ?_
            simp only [fitsAt, if_true, Bool.or_eq_true, beq_iff_eq, Bool.and_eq_true,
              decide_eq_true_eq] at hfits
            omega
        _ ≤ width .identifier := by decide
  · calc Nat.count (fun stage => kind.fitsAt (16 * level + 16 + stage)) 16
        ≤ Nat.count (fun stage => kind.stages.contains stage) 16 := by
          refine Nat.count_mono_left fun stage hstage hfits => ?_
          have hmod : (16 * level + 16 + stage) % 16 = stage := by omega
          simp only [fitsAt, if_neg hkind, Bool.and_eq_true, hmod] at hfits
          exact hfits.2
      _ ≤ kind.width := count_stages_le kind

theorem count_le (kind : NodeKind) (levels : Nat) :
    Nat.count (fun rank => kind.fitsAt rank) (16 * levels + 16) ≤ levels * kind.width := by
  induction levels with
  | zero =>
      have hnone : Nat.count (fun rank => kind.fitsAt rank) 16 ≤ Nat.count (fun _ => False) 16 := by
        refine Nat.count_mono_left fun rank hrank hfits => ?_
        have hle := le_of_fitsAt hfits
        omega
      simpa using hnone
  | succ levels ih =>
      calc Nat.count (fun rank => kind.fitsAt rank) (16 * (levels + 1) + 16)
          = Nat.count (fun rank => kind.fitsAt rank) (16 * levels + 16) +
              Nat.count (fun stage => kind.fitsAt (16 * levels + 16 + stage)) 16 :=
            Nat.count_add _ _ _
        _ ≤ levels * kind.width + kind.width := Nat.add_le_add ih (count_level_le kind levels)
        _ = (levels + 1) * kind.width := (Nat.succ_mul levels kind.width).symm

end NodeKind

/-! ## Nodes below a rank -/

namespace Tree

def shape? (tree : Tree) (id : NodeId) : Option (NodeKind × List Slot) :=
  (tree.get? id).map fun node => (node.kind, node.slots)

/-- The node and all below it can be given ranks, and its own is less than `bound`. -/
inductive Below (tree : Tree) : Nat → NodeId → Prop
  | intro {bound rank : Nat} {id : NodeId} {kind : NodeKind} {slots : List Slot}
      (lt : rank < bound) (shape : tree.shape? id = some (kind, slots)) (fits : kind.fitsAt rank)
      (children : ∀ spec slot, (spec, slot) ∈ kind.schema.zip slots → ∀ child ∈ slot.children,
        Below tree (kind.limit spec.field rank) child) : Below tree bound id

variable {tree : Tree} {bound bound' : Nat} {id : NodeId}

theorem Below.mono (h : tree.Below bound id) (hle : bound ≤ bound') : tree.Below bound' id := by
  cases h with
  | intro lt shape fits children => exact .intro (Nat.lt_of_lt_of_le lt hle) shape fits children

/-- No rank is less than that of the first level. -/
theorem Below.lt (h : tree.Below bound id) : 16 < bound := by
  cases h with
  | intro lt shape fits children => exact Nat.lt_of_le_of_lt (NodeKind.le_of_fitsAt fits) lt

theorem shape?_of_get? {node : Node} (hget : tree.get? id = some node) :
    tree.shape? id = some (node.kind, node.slots) := by
  simp [shape?, hget]

/-- Up to the start of a level is all that a node up to there leads to. -/
theorem Below.of_leads {levels : Nat} {steps : List Step} {a b : NodeId}
    (h : tree.Below (16 * levels + 16 + 1) a) (hpath : tree.Leads a steps b) :
    tree.Below (16 * levels + 16 + 1) b := by
  induction hpath with
  | nil id => exact h
  | @cons a b c holder entered spec slot steps hget hmem hchild _ _ ih =>
      refine ih ?_
      cases h with
      | @intro _ rank _ kind slots lt shape fits children =>
          obtain ⟨rfl, rfl⟩ : holder.kind = kind ∧ holder.slots = slots := by
            simpa [shape?_of_get? hget] using shape
          refine (children spec slot hmem b hchild).mono ?_
          unfold NodeKind.limit
          split
          · omega
          · split
            · rename_i hunguarded
              have hmod := NodeKind.mod_ne_zero_of_isUnguarded fits hunguarded
              omega
            · omega

/-- On a way down, the ranks of the nodes of a kind are different places for that kind. -/
theorem Below.exists_rank {steps : List Step} {a b : NodeId} (h : tree.Below bound a)
    (hpath : tree.Leads a steps b) (hguarded : ∀ step ∈ steps, step.isUnguarded = false)
    (kind : NodeKind) :
    ∃ node rank, tree.get? a = some node ∧ rank < bound ∧ node.kind.fitsAt rank ∧
      steps.countP (Step.counts kind) ≤ Nat.count (fun rank => kind.fitsAt rank) rank := by
  induction hpath generalizing bound with
  | nil id =>
      cases h with
      | intro lt shape fits children =>
          obtain ⟨node, hget, hshape⟩ := Option.map_eq_some_iff.mp shape
          cases hshape
          exact ⟨node, _, hget, lt, fits, Nat.zero_le _⟩
  | @cons a b c holder entered spec slot steps hget hmem hchild hentered _ ih =>
      cases h with
      | @intro _ rank _ kind' slots lt shape fits children =>
          obtain ⟨rfl, rfl⟩ : holder.kind = kind' ∧ holder.slots = slots := by
            simpa [shape?_of_get? hget] using shape
          obtain ⟨node, rank', hnode, hlt, hfits, hcount⟩ :=
            ih (children spec slot hmem b hchild) fun step hstep =>
              hguarded step (List.mem_cons_of_mem _ hstep)
          obtain rfl : entered = node := Option.some.inj (hentered.symm.trans hnode)
          have hmono := Nat.count_monotone fun rank => kind.fitsAt rank
          have hunguarded : holder.kind.isUnguarded spec.field = false :=
            hguarded _ (List.mem_cons_self ..)
          refine ⟨holder, rank, hget, lt, fits, ?_⟩
          rw [List.countP_cons]
          split
          · -- The step counts, so it is not along a left spine and the rank falls.
            rename_i hcounts
            obtain ⟨hspine, rfl⟩ : holder.kind.isLeftSpine spec.field = false ∧
                entered.kind = kind := by
              simpa [Step.counts] using hcounts
            have hfall : rank' < rank := by
              simpa [NodeKind.limit, hspine, hunguarded] using hlt
            calc steps.countP (Step.counts entered.kind) + 1
                ≤ Nat.count (fun rank => entered.kind.fitsAt rank) rank' + 1 :=
                  Nat.succ_le_succ hcount
              _ = Nat.count (fun rank => entered.kind.fitsAt rank) (rank' + 1) :=
                  (Nat.count_succ_eq_succ_count hfits).symm
              _ ≤ Nat.count (fun rank => entered.kind.fitsAt rank) rank := hmono hfall
          · have hle : rank' ≤ rank := by
              unfold NodeKind.limit at hlt
              rw [hunguarded] at hlt
              split at hlt
              · exact Nat.le_of_lt_succ hlt
              · exact Nat.le_of_lt hlt
            exact Nat.le_trans hcount (hmono hle)

/-- On a way down, a kind is entered at most as often as there are places for it. -/
theorem Below.countP_le {steps : List Step} {a b : NodeId} (h : tree.Below (bound + 1) a)
    (hpath : tree.Leads a steps b) (hguarded : ∀ step ∈ steps, step.isUnguarded = false)
    (kind : NodeKind) :
    steps.countP (Step.counts kind) ≤ Nat.count (fun rank => kind.fitsAt rank) bound := by
  obtain ⟨_, rank, -, hlt, -, hcount⟩ := h.exists_rank hpath hguarded kind
  exact Nat.le_trans hcount (Nat.count_monotone _ (Nat.le_of_lt_succ hlt))

end Tree

end FlowErasure
