import FlowErasure.Proofs.Frame.Parsers
import FlowErasure.Proofs.Syntax.Coverage
import FlowErasure.Proofs.Token.Consuming

/-!
# Running parsers

`Run p c s Q` says that `Q` holds of whatever the parser `p` answers from the state `s`. It says
nothing of a parser that fails. `Builds` is what the rules of the grammar have in common: from a state
on, some nodes have been read one after the other, nobody holds them yet, and all that was in the
table before is as it was. `Yields` adds what kinds the nodes have, and `Reads` that a token has been
consumed.
-/

namespace FlowErasure.Grammar

variable {α β : Type} {text : List Char} {c : Context} {s s₀ s₁ s₂ : State}

def Run (p : Parser α) (c : Context) (s : State) (Q : α → State → Prop) : Prop :=
  ∀ a s', p c s = .ok a s' → Q a s'

theorem Run.mono {p : Parser α} {P Q : α → State → Prop} (h : Run p c s P)
    (himp : ∀ a s', P a s' → Q a s') : Run p c s Q :=
  fun a s' hrun => himp a s' (h a s' hrun)

theorem Run.and {p : Parser α} {P Q : α → State → Prop} (h : Run p c s P) (h' : Run p c s Q) :
    Run p c s fun a s' => P a s' ∧ Q a s' :=
  fun a s' hrun => ⟨h a s' hrun, h' a s' hrun⟩

theorem run_bind {p : Parser α} {f : α → Parser β} {Q : β → State → Prop} :
    Run (p >>= f) c s Q ↔ Run p c s fun a s' => Run (f a) c s' Q := by
  unfold Run
  cases h : p c s with
  | ok a s' =>
      rw [bind_ok h]
      constructor
      · rintro hrun _ _ ⟨rfl, rfl⟩
        exact hrun
      · intro hrun
        exact hrun a s' rfl
  | error e s' =>
      rw [bind_error h]
      simp

theorem run_pure {a : α} {Q : α → State → Prop} : Run (pure a) c s Q ↔ Q a s := by
  constructor
  · intro h
    exact h a s rfl
  · rintro h _ _ ⟨rfl, rfl⟩
    exact h

theorem run_map {p : Parser α} {f : α → β} {Q : β → State → Prop} :
    Run (f <$> p) c s Q ↔ Run p c s fun a s' => Q (f a) s' := by
  have hmap : f <$> p = p >>= fun a => pure (f a) := rfl
  rw [hmap, run_bind]
  simp only [run_pure]

/-- A parser that only looks answers from the state and leaves it. -/
theorem run_of_eq {p : Parser α} {a : α} {Q : α → State → Prop} (h : p c s = .ok a s) :
    Run p c s Q ↔ Q a s := by
  constructor
  · intro hrun
    exact hrun a s h
  · intro hq _ _ hrun
    rw [h] at hrun
    cases hrun
    exact hq

theorem run_of_error {p : Parser α} {e : Failure} {s' : State} {Q : α → State → Prop}
    (h : p c s = .error e s') : Run p c s Q ↔ True := by
  refine iff_true_intro fun _ _ hrun => ?_
  rw [h] at hrun
  cases hrun

theorem run_ite {q : Prop} [Decidable q] {p p' : Parser α} {Q : α → State → Prop} :
    Run (if q then p else p') c s Q ↔ if q then Run p c s Q else Run p' c s Q := by
  split <;> rfl

theorem run_steps :
    (∀ {c s} {Q : Token → State → Prop}, Run token c s Q ↔ Q s.lexer.token s) ∧
    (∀ {c s} {Q : Nat → State → Prop}, Run tokenStart c s Q ↔ Q s.lexer.start s) ∧
    (∀ {c s} {Q : String → State → Prop}, Run tokenValue c s Q ↔ Q s.lexer.value s) ∧
    (∀ {c s t} {Q : Bool → State → Prop}, Run (isAt t) c s Q ↔ Q (s.lexer.token == t) s) ∧
    (∀ {c s ts} {Q : Bool → State → Prop}, Run (isAtAny ts) c s Q ↔
      Q (ts.contains s.lexer.token) s) ∧
    (∀ {c s} {Q : Bool → State → Prop}, Run afterLineBreak c s Q ↔
      Q s.lexer.flags.lineBreakBefore s) ∧
    (∀ {c s} {Q : Nat → State → Prop}, Run lastEnd c s Q ↔ Q s.lastEnd s) ∧
    (∀ {c s} {Q : State → State → Prop}, Run get c s Q ↔ Q s s) ∧
    (∀ {c s} {Q : Context → State → Prop}, Run read c s Q ↔ Q c s) ∧
    (∀ {c s id} {Q : Option Node → State → Prop}, Run (getNode? id) c s Q ↔
      Q (s.tree.get? id) s) ∧
    (∀ {c s accepts} {Q : Bool → State → Prop}, Run (lookAhead accepts) c s Q ↔
      Q (accepts s.lexer.next.token) s) ∧
    (∀ {c s accepts} {Q : Bool → State → Prop}, Run (lookAheadOnLine accepts) c s Q ↔
      Q (!s.lexer.next.flags.lineBreakBefore && accepts s.lexer.next.token) s) ∧
    (∀ {α : Type} {c s f} {p : Parser α} {Q : α → State → Prop}, Run (withReader f p) c s Q ↔
      Run p (f c) s Q) ∧
    (∀ {α : Type} {c s start length message} {Q : α → State → Prop},
      Run (failAt start length message) c s Q ↔ True) ∧
    (∀ {α : Type} {c s message arguments} {Q : α → State → Prop},
      Run (failAtTokenWith message arguments) c s Q ↔ True) ∧
    (∀ {α : Type} {c s message} {Q : α → State → Prop},
      Run (failAtToken message) c s Q ↔ True) ∧
    (∀ {α : Type} {c s t} {Q : α → State → Prop}, Run (failExpecting t) c s Q ↔ True) :=
  ⟨run_of_eq rfl, run_of_eq rfl, run_of_eq rfl, run_of_eq rfl, run_of_eq rfl, run_of_eq rfl,
    run_of_eq rfl, run_of_eq rfl, run_of_eq rfl, run_of_eq rfl, run_of_eq rfl, run_of_eq rfl,
    Iff.rfl, run_of_error rfl, run_of_error rfl, run_of_error rfl, run_of_error rfl⟩

theorem run_failUnexpected {Q : α → State → Prop} : Run failUnexpected c s Q ↔ True := by
  simp only [failUnexpected, run_bind, run_steps, run_ite, ite_self]

/-! ## States -/

/-- A state in the middle of reading a text. The current token is the one that comes after the last
token that was consumed. -/
structure Good (text : List Char) (s : State) : Prop where
  lexer : s.lexer.Settled text
  order : s.lastEnd ≤ s.lexer.start
  stop : Text.Seam text s.lastEnd
  tree : s.tree.Sound text
  follows : ∃ rest, Text.At text s.lastEnd rest ∧
    (Lexer.skipGap .blank s.lastEnd false rest).rest = s.lexer.startRest

theorem Good.tokenStart (h : Good text s) : TokenStart text s.lexer.start :=
  ⟨_, h.lexer.start, h.lexer.clear⟩

/-- What comes next, if the current token is known by its first character. -/
theorem Good.followedBy (h : Good text s) {ch : Char} (hmark : (ch, s.lexer.token) ∈ Lexer.marks) :
    FollowedBy text s.lastEnd ch := by
  obtain ⟨rest, hat, hrest⟩ := h.follows
  obtain ⟨cs, hcs⟩ := h.lexer.mark ch hmark
  exact ⟨rest, hat, by rw [hrest, hcs, List.head?_cons]⟩

theorem good_next {l : Lexer} {tree : Tree} (h : l.Placed text) (htree : tree.Sound text) :
    Good text ⟨l.next, l.pos, tree⟩ :=
  ⟨h.next.1, h.next.2, h.seam, htree, l.rest, h.rest, (Lexer.SameStart.next l).startRest.symm⟩

theorem Good.withTree (h : Good text s) {tree : Tree} (htree : tree.Sound text) :
    Good text { s with tree } :=
  ⟨h.lexer, h.order, h.stop, htree, h.follows⟩

structure Spends (s₀ : State) (tokens : List (Nat × Nat)) (s : State) : Prop where
  lexer : s₀.lexer.Consumes tokens s.lexer
  lastEnd : s.lastEnd = (tokens.getLast?.map Prod.snd).getD s₀.lastEnd
  nodes : ∀ i face, s₀.tree.size ≤ i → s.tree.face? i = some face →
    face.start ∈ tokens.map Prod.fst ∧ face.stop ∈ tokens.map Prod.snd

namespace Spends

variable {tokens tokens' : List (Nat × Nat)}

theorem of_size (hlexer : s₀.lexer.Consumes tokens s.lexer)
    (hlast : s.lastEnd = (tokens.getLast?.map Prod.snd).getD s₀.lastEnd)
    (hsize : s.tree.size ≤ s₀.tree.size) : Spends s₀ tokens s where
  lexer := hlexer
  lastEnd := hlast
  nodes i face hi hface := by
    have hlt := Tree.lt_size_of_face? hface
    exact absurd (Nat.lt_of_lt_of_le hlt hsize) (Nat.not_lt_of_le hi)

theorem trans (h : Spends s₀ tokens s₁) (h' : Spends s₁ tokens' s₂)
    (hfaces : ∀ i < s₁.tree.size, s₂.tree.face? i = s₁.tree.face? i) :
    Spends s₀ (tokens ++ tokens') s₂ where
  lexer := h.lexer.trans h'.lexer
  lastEnd := by
    rw [h'.lastEnd, h.lastEnd, List.getLast?_append]
    cases tokens'.getLast? <;> rfl
  nodes i face hi hface := by
    simp only [List.map_append, List.mem_append]
    by_cases hlt : i < s₁.tree.size
    · exact (h.nodes i face hi ((hfaces i hlt).symm.trans hface)).imp .inl .inl
    · exact (h'.nodes i face (Nat.le_of_not_lt hlt) hface).imp .inr .inr

end Spends

/-- From `s₀` to `s` the nodes `ids` have been read one after the other, and they have not been
put anywhere yet. What was in the table is as it was, and what is new in it has been read. -/
structure Builds (text : List Char) (s₀ : State) (ids : List NodeId) (s : State) : Prop where
  origin : Good text s₀
  good : Good text s
  size : s₀.tree.size ≤ s.tree.size
  frame : ∀ i < s₀.tree.size, s.tree.get? i = s₀.tree.get? i
  start : s₀.lexer.start ≤ s.lexer.start
  stop : s₀.lastEnd ≤ s.lastEnd
  laid : s.tree.Laid s.lastEnd s₀.lexer.start ids
  owned : ∀ id ∈ ids, s.tree.Owned s₀.tree.size id
  tokens : ∃ tokens, Spends s₀ tokens s
  covered : ∀ i, s₀.tree.size ≤ i → i < s.tree.size → s.tree.Covers ids i

structure Yields (text : List Char) (v : Bool) (s₀ : State) (ids : List NodeId) (s : State) :
    Prop extends Builds text s₀ ids s where
  values : v = true → ∀ id ∈ ids, s.tree.IsValue id

structure Reads (text : List Char) (v : Bool) (s₀ : State) (ids : List NodeId) (s : State) :
    Prop extends Yields text v s₀ ids s where
  lt : s₀.lexer.start < s.lastEnd

namespace Builds

variable {ids ids' : List NodeId}

theorem of_tree (h : Good text s) (h' : Good text s₁) (hget : ∀ i, s₁.tree.get? i = s.tree.get? i)
    (hsize : s₁.tree.size = s.tree.size) (hstart : s.lexer.start ≤ s₁.lexer.start)
    (hstop : s.lastEnd ≤ s₁.lastEnd) {tokens : List (Nat × Nat)}
    (hlexer : s.lexer.Consumes tokens s₁.lexer)
    (hlast : s₁.lastEnd = (tokens.getLast?.map Prod.snd).getD s.lastEnd) :
    Builds text s [] s₁ where
  origin := h
  good := h'
  size := Nat.le_of_eq hsize.symm
  frame i _ := hget i
  start := hstart
  stop := hstop
  laid := trivial
  owned := by simp
  tokens := ⟨tokens, .of_size hlexer hlast (Nat.le_of_eq hsize)⟩
  covered i hi hlt := by omega

theorem refl (h : Good text s) : Builds text s [] s :=
  .of_tree h h (fun _ => rfl) rfl (Nat.le_refl _) (Nat.le_refl _) .refl rfl

theorem face? (h : Builds text s₀ ids s) {i : NodeId} (hi : i < s₀.tree.size) :
    s.tree.face? i = s₀.tree.face? i := by
  simp [Tree.face?, h.frame i hi]

theorem lt_size (h : Builds text s₀ ids s) {id : NodeId} (hid : id ∈ ids) : id < s.tree.size := by
  obtain ⟨face, hface, -⟩ := h.laid.face? hid
  exact Tree.lt_size_of_face? hface

theorem isValue (h : Builds text s₀ ids s) {id : NodeId} (hid : s₀.tree.IsValue id) :
    s.tree.IsValue id := by
  obtain ⟨face, hface, hkind⟩ := hid
  exact ⟨face, (h.face? (Tree.lt_size_of_face? hface)).trans hface, hkind⟩

theorem isExportedType (h : Builds text s₀ ids s) {id : NodeId} (hid : s₀.tree.IsExportedType id) :
    s.tree.IsExportedType id := by
  obtain ⟨face, hface, hkind⟩ := hid
  exact ⟨face, (h.face? (Tree.lt_size_of_face? hface)).trans hface, hkind⟩

theorem stays (h : Builds text s₀ ids s) {id : NodeId}
    (hid : s₀.tree.IsValue id ∨ s₀.tree.IsExportedType id) :
    s.tree.IsValue id ∨ s.tree.IsExportedType id :=
  hid.imp h.isValue h.isExportedType

theorem kept (h : Builds text s₀ ids s₁) (h' : Builds text s₁ ids' s₂) :
    s₂.tree.Laid s₁.lastEnd s₀.lexer.start ids :=
  h.laid.congr fun _ hid => h'.face? (h.lt_size hid)

theorem trans (h : Builds text s₀ ids s₁) (h' : Builds text s₁ ids' s₂) :
    Builds text s₀ (ids ++ ids') s₂ where
  origin := h.origin
  good := h'.good
  size := Nat.le_trans h.size h'.size
  frame i hi := (h'.frame i (Nat.lt_of_lt_of_le hi h.size)).trans (h.frame i hi)
  start := Nat.le_trans h.start h'.start
  stop := Nat.le_trans h.stop h'.stop
  laid := (h.kept h').append h'.laid h.good.order h.start h'.stop
  owned id hid := by
    rcases List.mem_append.mp hid with hid | hid
    · exact (h.owned id hid).frame h.good.tree h'.frame (h.lt_size hid)
    · exact (h'.owned id hid).mono h.size
  tokens := by
    obtain ⟨tokens, htokens⟩ := h.tokens
    obtain ⟨tokens', htokens'⟩ := h'.tokens
    exact ⟨tokens ++ tokens', htokens.trans htokens' fun _ => h'.face?⟩
  covered i hi hlt := by
    by_cases hold : i < s₁.tree.size
    · have hcovers := (h.covered i hi hold).congr h.good.tree (fun _ => h'.face?)
        (fun i hi => by simp [Tree.children, h'.frame i hi]) (fun _ => h.lt_size) hold
      exact hcovers.mono (List.subset_append_left _ _)
    · exact (h'.covered i (Nat.le_of_not_lt hold) hlt).mono (List.subset_append_right _ _)

theorem within (h : Builds text s₀ ids s) {nodes : List (Option NodeId)}
    (hsub : nodes.filterMap id ⊆ ids) (hle : s₀.lexer.start ≤ s.lastEnd) :
    s.tree.Within s₀.lexer.start s.lastEnd (.list ⟨nodes, s₀.lexer.start, s.lastEnd⟩) := by
  refine ⟨Nat.le_refl _, hle, Nat.le_refl _, fun child hchild => ?_⟩
  obtain ⟨face, hface, hge, -, hle⟩ := h.laid.face? (hsub hchild)
  exact ⟨face, hface, hge, hle⟩

theorem keptWithin (h : Builds text s₀ ids s) {slot : Slot} {lo hi lo' hi' : Nat}
    (hslot : s₀.tree.Within lo hi slot) (hlo : lo' ≤ lo) (hhi : hi ≤ hi') :
    s.tree.Within lo' hi' slot := by
  refine Tree.Within.mono ?_ hlo hhi
  cases slot with
  | absent => trivial
  | node id => trivial
  | list items =>
      refine hslot.congr fun id hid => h.face? ?_
      obtain ⟨face, hface, -⟩ := hslot.2.2.2 id hid
      exact Tree.lt_size_of_face? hface

end Builds

namespace Yields

variable {v v' : Bool} {ids ids' : List NodeId}

theorem refl (h : Good text s) : Yields text v s [] s where
  toBuilds := .refl h
  values := by simp

theorem trans (h : Yields text v s₀ ids s₁) (h' : Yields text v' s₁ ids' s₂) :
    Yields text (v && v') s₀ (ids ++ ids') s₂ where
  toBuilds := h.toBuilds.trans h'.toBuilds
  values hv id hid := by
    rw [Bool.and_eq_true] at hv
    rcases List.mem_append.mp hid with hid | hid
    · exact h'.isValue (h.values hv.1 id hid)
    · exact h'.values hv.2 id hid

theorem weaken (h : Yields text v s₀ ids s) : Yields text false s₀ ids s :=
  ⟨h.toBuilds, by simp⟩

theorem andThen (h : Yields text v s₀ ids s₁) (h' : Yields text true s₁ [] s₂) :
    Yields text v s₀ ids s₂ := by
  have htrans := h.trans h'
  rwa [List.append_nil, Bool.and_true] at htrans

theorem before (h : Yields text true s₀ [] s₁) (h' : Yields text v s₁ ids s₂) :
    Yields text v s₀ ids s₂ :=
  h.trans h'

theorem reads (h : Yields text v s₀ ids s) (id : NodeId) (hid : id ∈ ids) :
    Reads text v s₀ ids s where
  toYields := h
  lt := by
    obtain ⟨face, -, hge, hlt, hle⟩ := h.laid.face? hid
    omega

theorem transReads (h : Yields text v s₀ ids s₁) (h' : Reads text v' s₁ ids' s₂) :
    Reads text (v && v') s₀ (ids ++ ids') s₂ where
  toYields := h.trans h'.toYields
  lt := Nat.lt_of_le_of_lt h.start h'.lt

end Yields

namespace Reads

variable {v v' : Bool} {ids ids' : List NodeId}

theorem trans (h : Reads text v s₀ ids s₁) (h' : Yields text v' s₁ ids' s₂) :
    Reads text (v && v') s₀ (ids ++ ids') s₂ where
  toYields := h.toYields.trans h'
  lt := Nat.lt_of_lt_of_le h.lt h'.stop

theorem andThen (h : Reads text v s₀ ids s₁) (h' : Yields text true s₁ [] s₂) :
    Reads text v s₀ ids s₂ where
  toYields := h.toYields.andThen h'
  lt := Nat.lt_of_lt_of_le h.lt h'.stop

theorem ends (h : Reads text v s₀ ids s) {tokens : List (Nat × Nat)} (htokens : Spends s₀ tokens s) :
    s₀.lexer.start ∈ tokens.map Prod.fst ∧ s.lastEnd ∈ tokens.map Prod.snd := by
  have hlt := h.lt
  have horder := h.origin.order
  have hlast := htokens.lastEnd
  rcases htokens.lexer.head h.origin.lexer with ⟨rfl, -⟩ | ⟨stop, rest, rfl⟩
  · have hsame : s.lastEnd = s₀.lastEnd := hlast
    omega
  · refine ⟨by simp, ?_⟩
    rw [List.getLast?_cons, Option.map_some, Option.getD_some] at hlast
    rw [hlast]
    exact List.mem_map_of_mem (List.mem_of_getLast? (List.getLast?_cons (l := rest)))

theorem within (h : Reads text v s₀ ids s) (nodes : List (Option NodeId))
    (hsub : nodes.filterMap id ⊆ ids) :
    s.tree.Within s₀.lexer.start s.lastEnd (.list ⟨nodes, s₀.lexer.start, s.lastEnd⟩) :=
  h.toBuilds.within hsub (Nat.le_of_lt h.lt)

end Reads

/-! ## Tokens -/

theorem run_raiseFault {Q : Unit → State → Prop} :
    Run raiseFault c s Q ↔ (s.lexer.fault = none → Q () s) := by
  simp only [raiseFault, run_bind, run_steps]
  cases h : s.lexer.fault with
  | none => simp [run_pure]
  | some fault =>
      simp only [run_bind, reduceCtorEq, false_implies, iff_true]
      rintro _ _ ⟨⟩
      exact (run_of_error rfl).mpr trivial

theorem run_advance (h : Good text s) (ht : s.lexer.token ≠ .endOfFile) :
    Run advance c s fun _ s' => Reads text true s [] s' := by
  unfold advance
  rw [run_bind]
  rintro _ _ ⟨⟩
  rw [run_raiseFault]
  intro _
  refine ⟨⟨.of_tree h (good_next h.lexer.placed h.tree) (fun _ => rfl) rfl ?_ ?_
    (Lexer.Consumes.refl.next ht) rfl, by simp⟩, h.lexer.lt ht⟩
  · exact Nat.le_trans h.lexer.le h.lexer.placed.next.2
  · exact Nat.le_trans h.order h.lexer.le

theorem run_advance_next : Run advance c s fun _ s' => s'.lexer = s.lexer.next := by
  unfold advance
  rw [run_bind]
  rintro _ _ ⟨⟩
  rw [run_raiseFault]
  intro _
  rfl

theorem run_expect (h : Good text s) {t : Token} (hne : t ≠ .endOfFile) :
    Run (expect t) c s fun _ s' => Reads text true s [] s' := by
  simp only [expect, run_bind, run_steps, run_ite]
  split
  · rename_i ht
    exact run_advance h (by simp_all)
  · trivial

theorem run_accept (h : Good text s) {t : Token} (hne : t ≠ .endOfFile) :
    Run (accept t) c s fun b s' => Yields text true s [] s' ∧ (b = true → Reads text true s [] s') := by
  simp only [accept, run_bind, run_steps, run_ite, run_pure]
  split
  · rename_i ht
    refine (run_advance h (by simp_all)).mono fun _ s' h' => ?_
    exact ⟨h'.toYields, fun _ => h'⟩
  · exact ⟨.refl h, by simp⟩

theorem run_canEndStatement {Q : Bool → State → Prop} (h : ∀ b, Q b s) :
    Run canEndStatement c s Q := by
  simp only [canEndStatement, run_bind, run_steps, run_ite, run_pure]
  split <;> exact h _

theorem run_endStatement (h : Good text s) :
    Run endStatement c s fun _ s' => Yields text true s [] s' := by
  simp only [endStatement, run_bind, run_steps, run_ite]
  split
  · exact (run_advance h (by simp_all)).mono fun _ _ h' => h'.toYields
  · refine run_canEndStatement fun b => ?_
    split
    · exact run_pure.mpr (.refl h)
    · trivial

theorem Good.reread {l : Lexer} (h : Good text s) (hl : l.Settled text ∧ l.start = s.lexer.start)
    (hlexer : s.lexer.Consumes [] l) : Yields text true s [] { s with lexer := l } where
  toBuilds := by
    have hrest : l.startRest = s.lexer.startRest := (hl.2 ▸ hl.1.start).unique h.lexer.start
    obtain ⟨rest, hat, hskip⟩ := h.follows
    have hgood : Good text { s with lexer := l } :=
      ⟨hl.1, Nat.le_trans h.order (Nat.le_of_eq hl.2.symm), h.stop, h.tree, rest, hat,
        hskip.trans hrest.symm⟩
    exact .of_tree h hgood (fun _ => rfl) rfl (Nat.le_of_eq hl.2.symm) (Nat.le_refl _) hlexer rfl
  values := by simp

theorem run_rereadSlash (h : Good text s) :
    Run rereadSlash c s fun _ s' => Yields text true s [] s' ∧ s'.lexer = s.lexer.rereadSlash := by
  unfold rereadSlash
  rw [run_bind]
  rintro _ _ ⟨⟩
  rw [run_raiseFault]
  intro _
  exact ⟨h.reread h.lexer.rereadSlash (.rereadSlash .refl), rfl⟩

theorem run_rereadBrace (h : Good text s) :
    Run rereadBrace c s fun _ s' => Yields text true s [] s' ∧ s'.lexer = s.lexer.rereadBrace := by
  unfold rereadBrace
  rw [run_bind]
  rintro _ _ ⟨⟩
  rw [run_raiseFault]
  intro _
  exact ⟨h.reread h.lexer.rereadBrace (.rereadBrace .refl), rfl⟩

theorem run_isIdentifier {Q : Bool → State → Prop}
    (h : ∀ b, (b = true → s.lexer.token ≠ .endOfFile) → Q b s) : Run isIdentifier c s Q := by
  simp only [isIdentifier, run_bind, run_steps]
  split
  · rename_i ht
    exact run_pure.mpr (h _ fun _ => by simp [ht])
  · rename_i ht
    exact run_pure.mpr (h _ fun _ => by simp [ht])
  · refine run_pure.mpr (h _ ?_)
    intro hname heq
    rw [heq] at hname
    exact absurd hname (by decide)

/-! ## Names -/

theorem Good.renamed (h : Good text s) (names : Names) :
    Yields text true s [] { s with tree := { s.tree with names } } where
  toBuilds := .of_tree h (h.withTree (h.tree.congr fun _ => rfl)) (fun _ => rfl) rfl
    (Nat.le_refl _) (Nat.le_refl _) .refl rfl
  values := by simp

theorem run_tokenAtom (h : Good text s) :
    Run tokenAtom c s fun _ s' => Yields text true s [] s' ∧ s'.lexer = s.lexer := by
  rintro _ _ ⟨⟩
  exact ⟨h.renamed _, rfl⟩

/-- A failed attempt leaves nothing but names. -/
theorem run_attempt {p : Parser α} {nodes : α → List NodeId} {Q : Option α → State → Prop}
    (hkeeps : Keeps s.tree p nodes) (hok : Run p c s fun a s' => Q (some a) s')
    (herror : ∀ names, Q none { s with tree := { s.tree with names } }) :
    Run (attempt p) c s Q := by
  intro a s' hrun
  cases a with
  | none =>
      obtain ⟨names, -, rfl⟩ := sameButNames_of_attempt hkeeps hrun
      exact herror names
  | some a => exact hok a s' (of_attempt_some hrun)

/-! ## Loops -/

/-- What is known is about the state. -/
def running (c : Context) : Logic (State → Prop) where
  Holds I p Q := ∀ s, I s → Run p c s Q
  pure _ _ _ ha := run_pure.mpr ha
  bind hp hf s hs := run_bind.mpr ((hp s hs).mono fun a s' ha => hf a s' ha)
  mono hp hI hQ s hs := (hp s (hI s hs)).mono fun a s' ha => hQ a s' ha
  get _ _ hs := (run_of_eq (p := (get : Parser State)) rfl).mpr hs
  stuck _ _ _ _ := run_failUnexpected.mpr trivial

theorem run_iterate {step : α → Parser (Option α)} {a : α} {Q : α → State → Prop}
    (inv : α → State → Prop) (hinit : inv a s)
    (hstep : ∀ a s, inv a s → Run (step a) c s fun r s' =>
      match r with
      | none => Q a s'
      | some b => inv b s') :
    Run (iterate step a) c s Q := by
  refine (running c).iterate (I := inv) (E := Q) (fun a s hinv => ?_) a s hinit
  refine (hstep a s hinv).mono fun r s' hr => ?_
  cases r <;> exact hr

def Rule (text : List Char) (v : Bool) (p : Parser NodeId) : Prop :=
  ∀ c s, Good text s → Run p c s fun id s' => Yields text v s [id] s'

/-- A rule that is only used where there is a token. -/
def TokenRule (text : List Char) (v : Bool) (p : Parser NodeId) : Prop :=
  ∀ c s, Good text s → s.lexer.token ≠ .endOfFile →
    Run p c s fun id s' => Yields text v s [id] s'

def OptionalRule (text : List Char) (v : Bool) (p : Parser (Option NodeId)) : Prop :=
  ∀ c s, Good text s → Run p c s fun id s' => Yields text v s id.toList s'

def RoundUntil (text : List Char) (v : Bool) (nodes : α → List NodeId) (stops : State → Prop)
    (s : State) : Option α → State → Prop
  | none, s' => Yields text true s [] s' ∧ stops s'
  | some a, s' => Yields text v s (nodes a) s'

def Round (text : List Char) (v : Bool) (nodes : α → List NodeId) (s : State) :
    Option α → State → Prop
  | none, s' => Yields text true s [] s'
  | some a, s' => Yields text v s (nodes a) s'

theorem run_collectUntil {item : Parser (Option α)} {v : Bool} (nodes : α → List NodeId)
    (stops : State → Prop) (hs : Good text s)
    (hitem : ∀ s, Good text s → Run item c s (RoundUntil text v nodes stops s)) :
    Run (collect item) c s fun items s' =>
      Yields text v s (items.flatMap nodes) s' ∧ stops s' := by
  unfold collect
  rw [run_map]
  refine run_iterate (fun items s' => Yields text v s (items.reverse.flatMap nodes) s') (.refl hs) ?_
  intro items s₁ hinv
  simp only [run_bind, run_pure]
  refine (hitem s₁ hinv.good).mono fun r s₂ hr => ?_
  cases r with
  | none => exact ⟨hinv.andThen hr.1, hr.2⟩
  | some a =>
      simp only [Option.map_some, List.reverse_cons, List.flatMap_append, List.flatMap_cons,
        List.flatMap_nil, List.append_nil]
      have htrans := hinv.trans hr
      rwa [Bool.and_self] at htrans

theorem run_collect {item : Parser (Option α)} {v : Bool} {nodes : α → List NodeId}
    (hs : Good text s) (hitem : ∀ s, Good text s → Run item c s (Round text v nodes s)) :
    Run (collect item) c s fun items s' => Yields text v s (items.flatMap nodes) s' := by
  have hround : ∀ s, Good text s → Run item c s (RoundUntil text v nodes (fun _ => True) s) := by
    intro s hs
    refine (hitem s hs).mono fun r s' hr => ?_
    cases r with
    | none => exact ⟨hr, trivial⟩
    | some a => exact hr
  exact (run_collectUntil nodes _ hs hround).mono fun _ _ h => h.1

theorem run_collect_nodes {item : Parser (Option NodeId)} {v : Bool} (hs : Good text s)
    (hitem : ∀ s, Good text s → Run item c s (Round text v (fun id => [id]) s)) :
    Run (collect item) c s fun ids s' => Yields text v s ids s' := by
  refine (run_collect hs hitem).mono fun ids s' h => ?_
  rwa [List.flatMap_singleton'] at h

theorem run_commaTerminated {v : Bool} {close : Token} {item : Parser NodeId} (hs : Good text s)
    (hitem : ∀ s, Good text s → Run item c s fun id s' => Yields text v s [id] s') :
    Run (commaTerminated close item) c s fun ids s' => Yields text v s ids s' := by
  unfold commaTerminated
  refine run_collect_nodes hs fun s hs => ?_
  simp only [run_bind, run_steps, run_ite, run_pure]
  split
  · exact .refl hs
  · refine (hitem s hs).mono fun id s₁ h₁ => ?_
    split
    · exact h₁
    · exact (run_expect h₁.good (by decide)).mono fun _ s₂ h₂ => h₁.andThen h₂.toYields

theorem run_collect_afterComma {v : Bool} {item : Parser NodeId} (hs : Good text s)
    (hitem : ∀ s, Good text s → Run item c s fun id s' => Yields text v s [id] s') :
    Run (collect do if ← accept .comma then some <$> item else return none) c s fun ids s' =>
      Yields text v s ids s' := by
  refine run_collect_nodes hs fun s hs => ?_
  simp only [run_bind, run_ite, run_map, run_pure]
  refine (run_accept hs (by decide)).mono fun b s₁ h₁ => ?_
  split
  · exact (hitem s₁ h₁.1.good).mono fun id s₂ h₂ => h₁.1.before h₂
  · exact h₁.1

theorem run_commaSeparated {v : Bool} {item : Parser NodeId} (hs : Good text s)
    (hitem : ∀ s, Good text s → Run item c s fun id s' => Yields text v s [id] s') :
    Run (commaSeparated item) c s fun ids s' => Yields text v s ids s' := by
  unfold commaSeparated
  simp only [run_bind, run_pure]
  refine (hitem s hs).mono fun first s₁ h₁ => ?_
  refine (run_collect_afterComma h₁.good hitem).mono fun more s₂ h₂ => ?_
  have htrans := h₁.trans h₂
  rwa [Bool.and_self] at htrans

theorem run_commaSeparated_ne {item : Parser α} :
    Run (commaSeparated item) c s fun items _ => items ≠ [] := by
  unfold commaSeparated
  simp only [run_bind, run_pure]
  intro first s₁ _ more s₂ _
  exact List.cons_ne_nil first more

theorem run_commaDelimited {v : Bool} {close : Token} {item : Parser NodeId} (hs : Good text s)
    (hitem : ∀ s, Good text s → Run item c s fun id s' => Yields text v s [id] s') :
    Run (commaDelimited close item) c s fun ids s' => Yields text v s ids s' := by
  unfold commaDelimited
  simp only [run_bind, run_pure]
  refine run_iterate (fun a s' => Yields text v s a.1.reverse s') (.refl hs) ?_
  rintro ⟨ids, more⟩ s₁ hinv
  simp only [run_bind, run_steps, run_ite, run_pure]
  split
  · exact hinv
  · refine (hitem s₁ hinv.good).mono fun id s₂ h₂ => ?_
    refine (run_accept h₂.good (by decide)).mono fun b s₃ h₃ => ?_
    have htrans := hinv.trans (h₂.andThen h₃.1)
    rwa [Bool.and_self, ← List.reverse_cons] at htrans

end FlowErasure.Grammar
