import FlowErasure.Proofs.Grammar.Running

/-!
# Finishing nodes

A rule ends by putting the nodes it has read under a new one, which reaches from the first token of
the rule to the last token consumed.
-/

namespace FlowErasure

namespace NodeKind

def isInOrder (kind : NodeKind) : Bool :=
  kind != .templateLiteral && kind.schema.all (·.field != .implements)

/-- In order, without a colon that could be taken for another, and without operands that another
operator could take. -/
def isOrdinary (kind : NodeKind) : Bool :=
  kind.isInOrder && kind != .conditionalExpression && !kind.isOperation

def isBlockless (kind : NodeKind) : Bool :=
  kind.schema.all (·.shape != .block)

def isPlain (kind : NodeKind) : Bool :=
  kind.isOrdinary && !kind.schema.any kind.embeds && kind.isBlockless

def isListless (kind : NodeKind) : Bool :=
  kind.schema.all (·.shape == .node)

/-- Some of the children have to mean something when the program runs. -/
def asks (kind : NodeKind) : Bool :=
  !kind.isTypeOnly && kind.schema.any fun spec => spec.matters && !kind.embeds spec

theorem childrenWhere_eq_nil {kind : NodeKind} {p : FieldSpec → Bool}
    (h : kind.schema.any p = false) (slots : List Slot) : kind.childrenWhere p slots = [] := by
  refine List.eq_nil_iff_forall_not_mem.mpr fun id hid => ?_
  obtain ⟨spec, slot, hmem, hp, -⟩ := mem_childrenWhere.mp hid
  exact List.any_eq_false.mp h spec (List.of_mem_zip hmem).1 hp

theorem needed_eq_nil {kind : NodeKind} (h : kind.asks = false) (slots : List Slot) :
    kind.needed slots = [] := by
  unfold needed
  split
  · rfl
  · rename_i htype
    exact childrenWhere_eq_nil (by simpa [asks, htype] using h) slots

theorem embedded_eq_nil {kind : NodeKind} (h : kind.isPlain) (slots : List Slot) :
    kind.embedded slots = [] := by
  simp only [isPlain, Bool.and_eq_true, Bool.not_eq_true'] at h
  exact childrenWhere_eq_nil h.1.2 slots

theorem isOrdinary_of_isPlain {kind : NodeKind} (h : kind.isPlain) : kind.isOrdinary := by
  simp only [isPlain, Bool.and_eq_true] at h
  exact h.1.1

theorem isBlockless_of_isPlain {kind : NodeKind} (h : kind.isPlain) : kind.isBlockless := by
  simp only [isPlain, Bool.and_eq_true] at h
  exact h.2

theorem isBlockless_of_isListless {kind : NodeKind} (h : kind.isListless) : kind.isBlockless := by
  refine List.all_eq_true.mpr fun spec hspec => ?_
  have hnode := List.all_eq_true.mp h spec hspec
  simp_all

theorem Encloses.of_isBlockless {text : List Char} {kind : NodeKind} {start stop : Nat}
    {slots : List Slot} (h : kind.isBlockless) : kind.Encloses text start stop slots := by
  intro spec items hmem hshape
  have hblock := List.all_eq_true.mp h spec (List.of_mem_zip hmem).1
  simp [hshape] at hblock

theorem isInOrder_of_isOrdinary {kind : NodeKind} (h : kind.isOrdinary) : kind.isInOrder := by
  rw [isOrdinary, Bool.and_eq_true, Bool.and_eq_true] at h
  exact h.1.1

theorem ne_templateLiteral {kind : NodeKind} (h : kind.isInOrder) : kind ≠ .templateLiteral := by
  rintro rfl
  simp [isInOrder] at h

theorem ne_conditionalExpression {kind : NodeKind} (h : kind.isOrdinary) :
    kind ≠ .conditionalExpression := by
  rintro rfl
  simp [isOrdinary] at h

theorem isOperation_of_isOrdinary {kind : NodeKind} (h : kind.isOrdinary) :
    kind.isOperation = false := by
  rw [isOrdinary, Bool.and_eq_true] at h
  simpa using h.2

theorem within_of_isListless {kind : NodeKind} {slots : List Slot} (h : kind.isListless)
    (hadmits : kind.admits slots) (tree : Tree) (lo hi : Nat) :
    ∀ slot ∈ slots, tree.Within lo hi slot := by
  intro slot hslot
  cases slot with
  | absent => trivial
  | node id => trivial
  | list items =>
      obtain ⟨index, hindex⟩ := List.mem_iff_getElem?.mp hslot
      have hlt := List.getElem?_eq_some_iff.mp hindex |>.choose
      have hle := length_le_of_admits hadmits
      have hspec := List.getElem?_eq_getElem (Nat.lt_of_lt_of_le hlt hle)
      have hmem := List.mem_iff_getElem?.mpr
        ⟨index, List.getElem?_zip_eq_some (z := (_, _)).mpr ⟨hspec, hindex⟩⟩
      simp only [admits, Bool.and_eq_true] at hadmits
      have haccepts := List.all_eq_true.mp hadmits.1.2 _ hmem
      have hnode := List.all_eq_true.mp h _ (List.of_mem_zip hmem).1
      simp_all [FieldSpec.accepts]

end NodeKind

namespace Tree

variable {text : List Char} {tree : Tree}

theorem fitSlots_eq {kind : NodeKind} {slots : List Slot} (h : slots.length ≤ kind.schema.length) :
    fitSlots kind slots =
      slots ++ List.replicate (kind.schema.length - slots.length) .absent := by
  rw [fitSlots, List.take_append, List.take_of_length_le h, List.take_replicate]
  congr 2
  omega

theorem getD_fitSlots {kind : NodeKind} {slots : List Slot}
    (h : slots.length ≤ kind.schema.length) (i : Nat) :
    (fitSlots kind slots).getD i .absent = slots.getD i .absent := by
  rw [fitSlots_eq h, List.getD_eq_getElem?_getD, List.getD_eq_getElem?_getD, List.getElem?_append]
  split
  · rfl
  · rename_i hle
    rw [List.getElem?_eq_none (Nat.le_of_not_lt hle), List.getElem?_replicate]
    split <;> rfl

theorem flatMap_fitSlots {kind : NodeKind} {slots : List Slot} {α : Type}
    (h : slots.length ≤ kind.schema.length) (f : FieldSpec × Slot → List α)
    (hf : ∀ spec, f (spec, .absent) = []) :
    (kind.schema.zip (fitSlots kind slots)).flatMap f = (kind.schema.zip slots).flatMap f := by
  rw [fitSlots_eq h]
  generalize kind.schema.length - slots.length = missing
  generalize kind.schema = specs at h
  induction slots generalizing specs with
  | nil =>
      rw [List.zip_nil_right, List.nil_append]
      refine List.flatMap_eq_nil_iff.mpr fun field hfield => ?_
      obtain ⟨spec, slot⟩ := field
      obtain rfl := List.eq_of_mem_replicate (List.of_mem_zip hfield).2
      exact hf spec
  | cons slot slots ih =>
      cases specs with
      | nil => simp at h
      | cons spec specs => simp [ih specs (by simpa using h)]

theorem children_fitted {node : Node} (h : node.slots.length ≤ node.kind.schema.length) :
    (fitted node).children = node.slots.flatMap Slot.children := by
  simp [Node.children, fitted, fitSlots_eq h, List.flatMap_append, List.flatMap_replicate]

theorem childrenWhere_fitSlots {kind : NodeKind} {slots : List Slot}
    (h : slots.length ≤ kind.schema.length) (p : FieldSpec → Bool) :
    kind.childrenWhere p (fitSlots kind slots) = kind.childrenWhere p slots := by
  have hfilter : ∀ fields : List (FieldSpec × Slot),
      (fields.filter fun field => p field.1).flatMap (fun field => field.2.children) =
        fields.flatMap fun field => if p field.1 then field.2.children else [] := by
    intro fields
    induction fields with
    | nil => rfl
    | cons field fields ih => by_cases hp : p field.1 <;> simp [hp, ih]
  simp only [NodeKind.childrenWhere, hfilter]
  exact flatMap_fitSlots h _ fun spec => by simp [Slot.children]

theorem needed_fitSlots {kind : NodeKind} {slots : List Slot}
    (h : slots.length ≤ kind.schema.length) :
    kind.needed (fitSlots kind slots) = kind.needed slots := by
  unfold NodeKind.needed
  rw [childrenWhere_fitSlots h]

theorem reading_fitSlots {kind : NodeKind} {slots : List Slot}
    (h : slots.length ≤ kind.schema.length) :
    kind.reading (fitSlots kind slots) = kind.reading slots := by
  unfold NodeKind.reading
  rw [getD_fitSlots h, getD_fitSlots h]
  split
  · rfl
  · simp [fitSlots_eq h, List.flatMap_append, List.flatMap_replicate, Slot.children]

theorem mem_zip_of_fitSlots {kind : NodeKind} {slots : List Slot} {spec : FieldSpec} {slot : Slot}
    (h : slots.length ≤ kind.schema.length)
    (hmem : (spec, slot) ∈ kind.schema.zip (fitSlots kind slots)) :
    slot = .absent ∨ (spec, slot) ∈ kind.schema.zip slots := by
  obtain ⟨index, hindex⟩ := List.mem_iff_getElem?.mp hmem
  obtain ⟨hspec, hslot⟩ := List.getElem?_zip_eq_some.mp hindex
  rw [fitSlots_eq h] at hslot
  by_cases hlt : index < slots.length
  · rw [List.getElem?_append_left hlt] at hslot
    exact .inr (List.mem_iff_getElem?.mpr ⟨index, List.getElem?_zip_eq_some.mpr ⟨hspec, hslot⟩⟩)
  · rw [List.getElem?_append_right (Nat.le_of_not_lt hlt)] at hslot
    exact .inl (List.eq_of_mem_replicate (List.mem_of_getElem? hslot))

theorem admits_fitSlots {kind : NodeKind} {slots : List Slot} (h : kind.admits slots) :
    kind.admits (fitSlots kind slots) := by
  have hle := NodeKind.length_le_of_admits h
  simp only [NodeKind.admits, Bool.and_eq_true, length_fitSlots, List.drop_length, List.all_nil,
    decide_eq_true_eq, Nat.le_refl, true_and, and_true] at h ⊢
  refine List.all_eq_true.mpr ?_
  rintro ⟨spec, slot⟩ hmem
  obtain ⟨index, hindex⟩ := List.mem_iff_getElem?.mp hmem
  obtain ⟨hspec, hslot⟩ := List.getElem?_zip_eq_some.mp hindex
  rw [fitSlots_eq hle] at hslot
  by_cases hlt : index < slots.length
  · rw [List.getElem?_append_left hlt] at hslot
    exact List.all_eq_true.mp h.1.2 (spec, slot)
      (List.mem_iff_getElem?.mpr ⟨index, List.getElem?_zip_eq_some.mpr ⟨hspec, hslot⟩⟩)
  · rw [List.getElem?_append_right (Nat.le_of_not_lt hlt)] at hslot
    obtain rfl := List.eq_of_mem_replicate (List.mem_of_getElem? hslot)
    refine List.all_eq_true.mp h.2 spec (List.mem_iff_getElem?.mpr ⟨index - slots.length, ?_⟩)
    rw [List.getElem?_drop, Nat.add_sub_cancel' (Nat.le_of_not_lt hlt)]
    exact hspec

def rangesOf (tree : Tree) (kind : NodeKind) (slots : List Slot) : List (Nat × Nat) :=
  (kind.schema.zip slots).flatMap fun field => tree.rangesIn field.1 field.2

theorem ranges_fitted {node : Node} (h : node.slots.length ≤ node.kind.schema.length) :
    tree.ranges (fitted node) = tree.rangesOf node.kind node.slots :=
  flatMap_fitSlots h _ fun _ => rfl

theorem rangesOf_eq {kind : NodeKind} {slots : List Slot}
    (h : slots.length ≤ kind.schema.length) (hkind : kind.isInOrder) :
    tree.rangesOf kind slots = (slots.flatMap Slot.children).filterMap tree.range? := by
  have hfield : ∀ field ∈ kind.schema.zip slots,
      tree.rangesIn field.1 field.2 = field.2.children.filterMap tree.range? := by
    intro field hmem
    have hspec : field.1.field ≠ .implements := by
      have := List.all_eq_true.mp (Bool.and_eq_true_iff.mp hkind).2 _ (List.of_mem_zip hmem).1
      simpa using this
    obtain ⟨spec, slot⟩ := field
    cases slot <;> simp [rangesIn, hspec]
  calc tree.rangesOf kind slots
      = (kind.schema.zip slots).flatMap fun field => field.2.children.filterMap tree.range? :=
        List.flatMap_congr hfield
    _ = ((kind.schema.zip slots).map Prod.snd).flatMap fun slot =>
          slot.children.filterMap tree.range? := by rw [List.flatMap_map]
    _ = (slots.flatMap Slot.children).filterMap tree.range? := by
        rw [List.map_snd_zip h, List.filterMap_flatMap]

theorem Laid.chain {hi lo : Nat} {ids : List NodeId} (hlaid : tree.Laid hi lo ids)
    (h : ∀ id ∈ ids, ∀ node, tree.get? id = some node → NodeSound text tree id node) :
    Chain text hi lo (ids.filterMap tree.range?) := by
  induction ids generalizing lo with
  | nil => trivial
  | cons id ids ih =>
      obtain ⟨face, hface, hle, hlt, hstop, hrest⟩ := hlaid
      obtain ⟨node, hget, rfl⟩ := get?_of_face? hface
      have hnode := h id (by simp) node hget
      have hrange : tree.range? id = some (node.start, node.stop) := by
        simp [range?, hface, Node.face]
      rw [List.filterMap_cons_some hrange]
      exact ⟨hle, hlt, hstop, hnode.start, hnode.stop,
        ih hrest fun other hother => h other (List.mem_cons_of_mem _ hother)⟩

theorem Sound.chain (h : tree.Sound text) {hi lo : Nat} {ids : List NodeId}
    (hlaid : tree.Laid hi lo ids) : Chain text hi lo (ids.filterMap tree.range?) :=
  hlaid.chain fun _ _ _ => h.node

def SlotsKeepColon (text : List Char) (tree : Tree) (kind : NodeKind) (slots : List Slot) : Prop :=
  ∀ node : Node, node.kind = kind → node.slots = fitSlots kind slots →
    tree.KeepsColon text NodeKind.HandsOn node

theorem slotsKeepColon_of_ne {kind : NodeKind} (h : kind ≠ .conditionalExpression)
    (slots : List Slot) : tree.SlotsKeepColon text kind slots :=
  fun _ hkind _ hconditional => absurd (hkind.symm.trans hconditional) h

structure Fills (text : List Char) (tree : Tree) (kind : NodeKind) (start stop : Nat)
    (slots : List Slot) : Prop where
  admitted : kind.admits slots
  reading : tree.Laid stop start (kind.reading slots)
  turns : kind = .templateLiteral →
    (slots.getD 0 .absent).children.length = (slots.getD 1 .absent).children.length + 1
  lists : ∀ slot ∈ slots, tree.Within start stop slot
  ranges : kind ≠ .templateLiteral → Chain text stop start (tree.rangesOf kind slots)
  needed : ∀ c ∈ kind.needed slots, tree.IsValue c
  embedded : ∀ c ∈ kind.embedded slots, tree.IsValue c ∨ tree.IsExportedType c
  encloses : kind.Encloses text start stop slots
  colon : tree.SlotsKeepColon text kind slots

/-- In a node that is in order the ranges are those of the children. -/
theorem Fills.ofInOrder {kind : NodeKind} {start stop : Nat} {slots : List Slot}
    (hs : tree.Sound text) (hkind : kind.isInOrder) (hadmits : kind.admits slots)
    (hlaid : tree.Laid stop start (slots.flatMap Slot.children))
    (hlists : ∀ slot ∈ slots, tree.Within start stop slot)
    (hneeded : ∀ c ∈ kind.needed slots, tree.IsValue c)
    (hembedded : ∀ c ∈ kind.embedded slots, tree.IsValue c ∨ tree.IsExportedType c)
    (hencloses : kind.Encloses text start stop slots)
    (hcolon : tree.SlotsKeepColon text kind slots) : Fills text tree kind start stop slots where
  admitted := hadmits
  reading := by rwa [NodeKind.reading_of_ne (NodeKind.ne_templateLiteral hkind)]
  turns h := absurd h (NodeKind.ne_templateLiteral hkind)
  lists := hlists
  ranges _ := by
    rw [rangesOf_eq (NodeKind.length_le_of_admits hadmits) hkind]
    exact hs.chain hlaid
  needed := hneeded
  embedded := hembedded
  encloses := hencloses
  colon := hcolon

theorem Fills.ofOrdinary {kind : NodeKind} {start stop : Nat} {slots : List Slot}
    (hs : tree.Sound text) (hkind : kind.isOrdinary) (hadmits : kind.admits slots)
    (hlaid : tree.Laid stop start (slots.flatMap Slot.children))
    (hlists : ∀ slot ∈ slots, tree.Within start stop slot)
    (hneeded : ∀ c ∈ kind.needed slots, tree.IsValue c)
    (hembedded : ∀ c ∈ kind.embedded slots, tree.IsValue c ∨ tree.IsExportedType c)
    (hencloses : kind.Encloses text start stop slots) : Fills text tree kind start stop slots :=
  .ofInOrder hs (NodeKind.isInOrder_of_isOrdinary hkind) hadmits hlaid hlists hneeded hembedded
    hencloses (slotsKeepColon_of_ne (NodeKind.ne_conditionalExpression hkind) slots)

theorem Fills.lt_size {kind : NodeKind} {start stop : Nat} {slots : List Slot}
    (h : Fills text tree kind start stop slots) {id : NodeId}
    (hid : id ∈ slots.flatMap Slot.children) : id < tree.size := by
  have hperm := NodeKind.reading_perm (NodeKind.length_le_of_admits h.admitted)
  obtain ⟨face, hface, -⟩ := h.reading.face? (hperm.mem_iff.mpr hid)
  exact lt_size_of_face? hface

theorem Fills.nodeShape (node : Node)
    (h : Fills text tree node.kind node.start node.stop node.slots)
    (hmarks : node.marks = {} ∧ node.before = none) (hstop : Text.Seam text node.stop) :
    NodeShape text tree tree.size (fitted node) := by
  have hle := NodeKind.length_le_of_admits h.admitted
  exact {
    fits := length_fitSlots _ _
    admitted := admits_fitSlots h.admitted
    below := fun child hchild => by
      rw [children_fitted hle] at hchild
      exact h.lt_size hchild
    unmarked := hmarks
    stop := hstop
    reading := by
      rw [Node.reading, fitted, reading_fitSlots hle]
      exact h.reading
    turns := fun hkind => by
      simp only [fitted, getD_fitSlots hle]
      exact h.turns hkind
    lists := fun slot hslot => by
      simp only [fitted, fitSlots_eq hle, List.mem_append] at hslot
      rcases hslot with hslot | hslot
      · exact h.lists slot hslot
      · rw [List.eq_of_mem_replicate hslot]
        trivial
    ranges := fun hkind => by
      rw [ranges_fitted hle]
      exact h.ranges hkind
    needed := by
      simp only [fitted, needed_fitSlots hle]
      exact h.needed
    embedded := by
      simp only [fitted, NodeKind.embedded, childrenWhere_fitSlots hle]
      exact h.embedded
    encloses := fun spec items hmem =>
      h.encloses spec items ((mem_zip_of_fitSlots hle hmem).resolve_left (by simp)) }

end Tree

namespace Grammar

variable {text : List Char} {c : Context} {s s₀ : State} {ids : List NodeId} {v w : Bool}
  {kind : NodeKind} {start : Nat} {slots : List Slot} {details : Details}

theorem Reads.add (h : Reads text w s₀ ids s) {node : Node}
    (hstart : node.start = s₀.lexer.start) (hstop : node.stop = s.lastEnd)
    (hfills : s.tree.Fills text node.kind node.start node.stop node.slots)
    (hgrouped : s.tree.Grouped (Tree.fitted node))
    (hids : node.kind.reading node.slots = ids) (hmarks : node.marks = {} ∧ node.before = none)
    (hparent : node.parent = none) :
    Builds text s₀ [s.tree.size] { s with tree := (s.tree.add node).2 } := by
  have hle := NodeKind.length_le_of_admits hfills.admitted
  have hshape := hfills.nodeShape node hmarks (hstop ▸ h.good.stop)
  have hperm : ids.Perm (Tree.fitted node).children := by
    rw [Tree.children_fitted hle, ← hids]
    exact NodeKind.reading_perm hle
  have hlt : node.start < node.stop := by
    rw [hstart, hstop]
    exact h.lt
  have hface := Tree.face?_of_get? (Tree.get?_add_self s.tree node)
  have hgood : Good text { s with tree := (s.tree.add node).2 } :=
    h.good.withTree (h.good.tree.add ⟨hshape, hstart ▸ h.origin.tokenStart, hlt⟩
      (hfills.colon (Tree.fitted node) rfl rfl) hgrouped hparent)
  exact {
    origin := h.origin
    good := hgood
    size := by simpa using Nat.le_succ_of_le h.size
    frame := fun i hi => by
      have hmem : i ∉ (Tree.fitted node).children := fun hin =>
        Nat.not_lt_of_le (h.owned i (hperm.mem_iff.mpr hin)).le hi
      have hi' : i < s.tree.size := Nat.lt_of_lt_of_le hi h.size
      exact (Tree.get?_add_of_not_mem node hi' hshape.fits hmem).trans (h.frame i hi)
    start := h.start
    stop := h.stop
    laid := ⟨_, hface, Nat.le_of_eq hstart.symm, hlt, Nat.le_of_eq hstop, trivial⟩
    owned := fun id hid => by
      rw [List.mem_singleton] at hid
      subst hid
      exact Tree.owned_add h.good.tree hshape hperm h.laid h.owned h.size
    tokens := by
      obtain ⟨tokens, htokens⟩ := h.tokens
      refine ⟨tokens, htokens.lexer, htokens.lastEnd, fun i face hi hface' => ?_⟩
      by_cases hlast : i = s.tree.size
      · subst hlast
        obtain rfl := Option.some.inj (hface.symm.trans hface')
        obtain ⟨hfirst, hlast⟩ := h.ends htokens
        exact ⟨by rwa [← hstart] at hfirst, by rwa [← hstop] at hlast⟩
      · have hlt := Tree.lt_size_of_lt_size_add (Tree.lt_size_of_face? hface') hlast
        rw [Tree.face?_add node hlt] at hface'
        exact htokens.nodes i face hi hface'
    covered := fun i hi hsize => by
      by_cases hlast : i = s.tree.size
      · exact hlast ▸ .of_mem (by simp)
      · have hi' := Tree.lt_size_of_lt_size_add hsize hlast
        exact Tree.covers_add h.good.tree (fun id hid => hperm.mem_iff.mp hid)
          (fun id hid => h.lt_size hid) hi' (h.covered i hi hi') }

theorem run_addNode {node : Node} {Q : NodeId → State → Prop} :
    Run (addNode node) c s Q ↔ Q s.tree.size { s with tree := (s.tree.add node).2 } := by
  constructor
  · intro h
    exact h _ _ rfl
  · rintro h _ _ ⟨⟩
    exact h

structure Finishes (text : List Char) (s₀ : State) (kind : NodeKind) (exported : Bool) (s : State)
    (id : NodeId) (s' : State) : Prop extends Builds text s₀ [id] s' where
  face : s'.tree.face? id = some ⟨kind, s₀.lexer.start, s.lastEnd, exported⟩
  last : s'.tree.size = id + 1
  lexer : s'.lexer = s.lexer
  lastEnd : s'.lastEnd = s.lastEnd

theorem Finishes.yields {exported : Bool} {id : NodeId} {s' : State}
    (h : Finishes text s₀ kind exported s id s') (hv : (v && kind.isTypeOnly) = false) :
    Yields text v s₀ [id] s' where
  toBuilds := h.toBuilds
  values htrue i hi := by
    rw [List.mem_singleton] at hi
    subst hi
    exact ⟨_, h.face, by simpa [htrue] using hv⟩

theorem Finishes.isExportedType {id : NodeId} {s' : State} (h : Finishes text s₀ kind true s id s')
    (hkind : kind = .typeAlias ∨ kind = .interfaceDeclaration) : s'.tree.IsExportedType id :=
  ⟨_, h.face, rfl, hkind⟩

def finished (s : State) (kind : NodeKind) (start : Nat) (slots : List Slot) (details : Details) :
    Node :=
  Tree.fitted
    { kind, start, stop := s.lastEnd, slots
      flags := details.flags, token := details.token, name := details.name }

theorem run_finishFilled (h : Reads text w s₀ ids s) (hstart : start = s₀.lexer.start)
    (hids : kind.reading slots = ids)
    (hfills : s.tree.Fills text kind s₀.lexer.start s.lastEnd slots)
    (hgrouped : s.tree.Grouped (finished s kind s₀.lexer.start slots details)) :
    Run (finishWith kind start slots details) c s
      (Finishes text s₀ kind details.flags.exported s) := by
  subst hstart
  simp only [finishWith, run_bind, run_steps, run_addNode]
  refine ⟨h.add rfl rfl hfills hgrouped hids ⟨rfl, rfl⟩ rfl, ?_, Tree.size_add s.tree _, rfl, rfl⟩
  exact Tree.face?_of_get? (Tree.get?_add_self s.tree _)

theorem run_finishOrdinary (h : Reads text w s₀ ids s) (hstart : start = s₀.lexer.start)
    (hslots : slots.flatMap Slot.children = ids) (hadmits : kind.admits slots)
    (hkind : kind.isOrdinary) (hlists : ∀ slot ∈ slots, s.tree.Within s₀.lexer.start s.lastEnd slot)
    (hneeded : ∀ c ∈ kind.needed slots, s.tree.IsValue c)
    (hembedded : ∀ c ∈ kind.embedded slots, s.tree.IsValue c ∨ s.tree.IsExportedType c)
    (hencloses : kind.Encloses text s₀.lexer.start s.lastEnd slots) :
    Run (finishWith kind start slots details) c s
      (Finishes text s₀ kind details.flags.exported s) := by
  refine run_finishFilled h hstart ?_
    (.ofOrdinary h.good.tree hkind hadmits ?_ hlists hneeded hembedded hencloses)
    (.of_not (NodeKind.isOperation_of_isOrdinary hkind))
  · have hinOrder := NodeKind.isInOrder_of_isOrdinary hkind
    rw [NodeKind.reading_of_ne (NodeKind.ne_templateLiteral hinOrder), hslots]
  · rw [hslots]
    exact h.laid

/-- Where all nodes that have been read mean something, those that have to do. -/
theorem Yields.needed (h : Yields text w s₀ ids s) (hslots : slots.flatMap Slot.children = ids)
    (hkind : (w || !kind.asks) = true) : ∀ c ∈ kind.needed slots, s.tree.IsValue c := by
  intro child hchild
  rw [Bool.or_eq_true, Bool.not_eq_true'] at hkind
  rcases hkind with hw | hkind
  · exact h.values hw child (hslots ▸ NodeKind.mem_of_mem_needed hchild)
  · simp [NodeKind.needed_eq_nil hkind] at hchild

theorem run_finishLists (h : Reads text w s₀ ids s) (hstart : start = s₀.lexer.start)
    (hslots : slots.flatMap Slot.children = ids) (hadmits : kind.admits slots)
    (hlists : ∀ slot ∈ slots, s.tree.Within s₀.lexer.start s.lastEnd slot)
    (hkind : (kind.isPlain && (w || !kind.asks)) = true) :
    Run (finishWith kind start slots details) c s
      (Finishes text s₀ kind details.flags.exported s) := by
  rw [Bool.and_eq_true] at hkind
  refine run_finishOrdinary h hstart hslots hadmits (NodeKind.isOrdinary_of_isPlain hkind.1) hlists
    (h.toYields.needed hslots hkind.2) ?_
    (.of_isBlockless (NodeKind.isBlockless_of_isPlain hkind.1))
  simp [NodeKind.embedded_eq_nil hkind.1]

theorem run_finishWith (h : Reads text w s₀ ids s) (hstart : start = s₀.lexer.start)
    (hslots : slots.flatMap Slot.children = ids) (hadmits : kind.admits slots)
    (hkind : (kind.isPlain && (w || !kind.asks) && kind.isListless) = true) :
    Run (finishWith kind start slots details) c s
      (Finishes text s₀ kind details.flags.exported s) := by
  rw [Bool.and_eq_true] at hkind
  exact run_finishLists h hstart hslots hadmits
    (NodeKind.within_of_isListless hkind.2 hadmits s.tree _ _) hkind.1

theorem run_finishList (h : Reads text w s₀ ids s) (hstart : start = s₀.lexer.start)
    (hslots : slots.flatMap Slot.children = ids) (hadmits : kind.admits slots)
    (hlists : ∀ slot ∈ slots, s.tree.Within s₀.lexer.start s.lastEnd slot)
    (hkind : (kind.isPlain && (w || !kind.asks) && !(v && kind.isTypeOnly)) = true) :
    Run (finishWith kind start slots details) c s fun id s' => Yields text v s₀ [id] s' := by
  rw [Bool.and_eq_true] at hkind
  refine (run_finishLists h hstart hslots hadmits hlists hkind.1).mono fun id s' hid => ?_
  exact hid.yields (by simpa only [Bool.not_eq_true'] using hkind.2)

/-- The end of a rule for a node with statements or class members. -/
theorem run_finishBlock (h : Reads text w s₀ ids s) (hstart : start = s₀.lexer.start)
    (hslots : slots.flatMap Slot.children = ids) (hadmits : kind.admits slots)
    (hlists : ∀ slot ∈ slots, s.tree.Within s₀.lexer.start s.lastEnd slot)
    (hencloses : kind.Encloses text s₀.lexer.start s.lastEnd slots)
    (hkind : (kind.isOrdinary && !kind.schema.any kind.embeds && (w || !kind.asks) &&
      !(v && kind.isTypeOnly)) = true) :
    Run (finishWith kind start slots details) c s fun id s' => Yields text v s₀ [id] s' := by
  simp only [Bool.and_eq_true, Bool.not_eq_true'] at hkind
  obtain ⟨⟨⟨hordinary, hembeds⟩, hasks⟩, htype⟩ := hkind
  have hembedded : kind.embedded slots = [] := NodeKind.childrenWhere_eq_nil hembeds slots
  have hneeded := h.toYields.needed hslots (by simpa using hasks)
  refine (run_finishOrdinary h hstart hslots hadmits hordinary hlists hneeded
    (by simp [hembedded]) hencloses).mono fun id s' hid => ?_
  exact hid.yields htype

theorem run_finishWhole {nodes : List (Option NodeId)} (h : Reads text w s₀ ids s)
    (hnodes : nodes.filterMap id = ids)
    (hadmits : kind.admits [.list ⟨nodes, s₀.lexer.start, s.lastEnd⟩])
    (hkind : (kind.isPlain && (w || !kind.asks) && !(v && kind.isTypeOnly)) = true) :
    Run (finishWith kind s₀.lexer.start [.list ⟨nodes, s₀.lexer.start, s.lastEnd⟩] details) c s
      fun id s' => Yields text v s₀ [id] s' := by
  subst hnodes
  refine run_finishList h rfl (by simp) hadmits ?_ hkind
  simpa using h.within nodes (List.Subset.refl _)

theorem run_finish (h : Reads text w s₀ ids s) (hstart : start = s₀.lexer.start)
    (hslots : slots.flatMap Slot.children = ids) (hadmits : kind.admits slots)
    (hkind : (kind.isPlain && (w || !kind.asks) && !(v && kind.isTypeOnly) && kind.isListless) =
      true) :
    Run (finishWith kind start slots details) c s fun id s' => Yields text v s₀ [id] s' := by
  rw [Bool.and_eq_true] at hkind
  exact run_finishList h hstart hslots hadmits
    (NodeKind.within_of_isListless hkind.2 hadmits s.tree _ _) hkind.1

/-- The range of the last node may grow to all that has been read. -/
theorem run_stretch {id : NodeId} {f : Node → Node} {face : Face} (h : Builds text s₀ [id] s)
    (hlast : s.tree.size = id + 1) (hface : s.tree.face? id = some face)
    (hf : ∀ node, node.face = face →
      f node = { node with start := s₀.lexer.start, stop := s.lastEnd })
    (hkind : face.kind.isPattern = false) (hoperation : face.kind.isOperation = false) :
    Run (updateNode id f) c s fun _ s' => Builds text s₀ [id] s' ∧
      s'.tree.face? id = some ⟨face.kind, s₀.lexer.start, s.lastEnd, face.exported⟩ := by
  obtain ⟨node, hget, rfl⟩ := Tree.get?_of_face? hface
  have hf := hf node rfl
  obtain ⟨face, hface', hge, hlt, hle, -⟩ := h.laid
  obtain rfl := Option.some.inj (hface.symm.trans hface')
  have hread := (Yields.mk (v := false) h (by simp)).reads id (by simp)
  rintro _ _ ⟨⟩
  have hnew : (s.tree.modify id f).face? id =
      some ⟨node.kind, s₀.lexer.start, s.lastEnd, node.flags.exported⟩ := by
    simp [Tree.face?, hget, hf, Node.face]
  have hold : ∀ i, i ≠ id → (s.tree.modify id f).face? i = s.tree.face? i := fun i hi => by
    simp [Tree.face?, hi]
  have hgood : Good text { s with tree := s.tree.modify id f } :=
    h.good.withTree (h.good.tree.stretch hget hoperation hlast hf hge hle h.origin.tokenStart h.good.stop)
  refine ⟨?_, hnew⟩
  exact {
    origin := h.origin
    good := hgood
    size := by simpa using h.size
    frame := fun i hi => by
      have hne : i ≠ id := Nat.ne_of_lt (Nat.lt_of_lt_of_le hi (h.owned id (by simp)).le)
      simpa [hne] using h.frame i hi
    start := h.start
    stop := h.stop
    laid := ⟨_, hnew, Nat.le_refl _, hread.lt, Nat.le_refl _, trivial⟩
    owned := fun i hi => by simpa using (h.owned i hi).stretch hget hf
    tokens := by
      obtain ⟨tokens, htokens⟩ := h.tokens
      refine ⟨tokens, htokens.lexer, htokens.lastEnd, fun i face hi hface => ?_⟩
      by_cases hid : i = id
      · subst hid
        obtain rfl := Option.some.inj (hnew.symm.trans hface)
        exact hread.ends htokens
      · rw [hold i hid] at hface
        exact htokens.nodes i face hi hface
    covered := fun i hi hsize => by
      -- The node itself is no pattern, so nothing that it stands for is lost.
      rw [Tree.size_modify] at hsize
      by_cases hid : i = id
      · exact .of_mem (by simp [hid])
      · obtain ⟨first, hfirst, b, hreach, hb⟩ := h.covered i hi hsize
        have hreach' : (s.tree.modify id f).Reaches first b :=
          (h.good.tree.reaches_of_children (fun i _ => Tree.children_stretch hget hf i)
            (h.lt_size hfirst)).mpr hreach
        refine ⟨first, hfirst, b, hreach', hb.imp_right fun hstands => ?_⟩
        have hne : b ≠ id := by
          rintro rfl
          obtain ⟨face, face', hface, -, hpattern, -⟩ := hstands
          obtain rfl := Option.some.inj (hface.symm.trans hface')
          exact absurd (NodeKind.isPattern_of_pattern? hpattern) (by simp [hkind])
        exact hstands.congr (hold b hne) (hold i hid) }

/-! ## Names and literals -/

theorem ne_endOfFile (accepts : Token → Bool) {t : Token} (h : accepts t)
    (hend : accepts .endOfFile = false) : t ≠ .endOfFile := by
  rintro rfl
  simp [hend] at h

theorem identifierName_rule : Rule text true identifierName := by
  intro c s hs
  simp only [identifierName, run_bind, run_steps, run_ite]
  split
  · trivial
  · rename_i hword
    have ht : s.lexer.token ≠ .endOfFile :=
      ne_endOfFile Token.isWord (by simpa using hword) rfl
    refine (run_tokenAtom hs).mono fun name s₁ h₁ => ?_
    refine (run_advance h₁.1.good (h₁.2 ▸ ht)).mono fun _ s₂ h₂ => ?_
    exact run_finish (h₁.1.transReads h₂) rfl rfl rfl (by decide)

theorem identifier_rule : Rule text true identifier := by
  intro c s hs
  simp only [identifier, run_bind, run_ite, run_steps]
  refine run_isIdentifier fun b _ => ?_
  split
  · exact identifierName_rule c s hs
  · trivial

theorem run_literal (hs : Good text s) (ht : s.lexer.token ≠ .endOfFile) :
    Run literal c s fun id s' => Yields text true s [id] s' := by
  simp only [literal, run_bind, run_steps]
  refine (run_advance hs ht).mono fun _ s₁ h₁ => ?_
  exact run_finish h₁ rfl rfl rfl (by decide)

theorem stringLiteral_rule : Rule text true stringLiteral := by
  intro c s hs
  simp only [stringLiteral, run_bind, run_ite, run_steps]
  split
  · rename_i ht
    exact run_literal hs (by simp_all)
  · trivial

end Grammar

end FlowErasure
