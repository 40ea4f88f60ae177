import FlowErasure.Proofs.Frame.Parsers
import FlowErasure.Proofs.Token.Faults

/-!
# Where parsers fail

`Usable` is what holds of every state a parser leaves, be it after an answer or after an error, and
`State.Blames` says where an error may point: at the current token, as its lexer does, or at a node.
`Safe text a e p e'` says that `p` keeps to this from a state whose token starts at `a` or later and
whose last token ended at `e` or later, and that the last token it consumed ended at `e'` or later.
The offsets are those a rule remembers: a node may start at `a` once a token has been consumed. A
parser may be run anywhere if it is `Calm`, and consumes a token if it `Eats`.
-/

namespace FlowErasure

open Text (Boundary)

/-! ## Tables -/

def Tree.Spanning (text : List Char) (bound : Nat) (tree : Tree) : Prop :=
  ∀ id node, tree.get? id = some node →
    Boundary text node.start ∧ Boundary text node.stop ∧ node.start ≤ node.stop ∧
      node.start ≤ bound

namespace Tree.Spanning

variable {text : List Char} {bound bound' : Nat} {tree tree' : Tree}

theorem empty : Tree.empty.Spanning text bound := by
  intro id node hget
  simp [Tree.get?, Tree.empty] at hget

theorem mono (h : tree.Spanning text bound) (hle : bound ≤ bound') : tree.Spanning text bound' := by
  intro id node hget
  obtain ⟨hstart, hstop, hspan, hbound⟩ := h id node hget
  exact ⟨hstart, hstop, hspan, hbound.trans hle⟩

theorem congr (h : tree.Spanning text bound) (hget : ∀ id, tree'.get? id = tree.get? id) :
    tree'.Spanning text bound :=
  fun id node hnode => h id node ((hget id).symm.trans hnode)

theorem add (h : tree.Spanning text bound) {node : Node} (hstart : Boundary text node.start)
    (hstop : Boundary text node.stop) (hspan : node.start ≤ node.stop)
    (hbound : node.start ≤ bound) : (tree.add node).2.Spanning text bound := by
  intro id other hget
  rw [get?_add] at hget
  split at hget
  · obtain rfl := Option.some.inj hget
    exact ⟨hstart, hstop, hspan, hbound⟩
  · obtain ⟨old, hold, rfl⟩ := Option.map_eq_some_iff.mp hget
    exact h id old hold

theorem modify (h : tree.Spanning text bound) {id : NodeId} {f : Node → Node}
    (hf : ∀ node, tree.get? id = some node →
      Boundary text (f node).start ∧ Boundary text (f node).stop ∧ (f node).start ≤ (f node).stop ∧
        (f node).start ≤ bound) : (tree.modify id f).Spanning text bound := by
  intro i other hget
  rw [get?_modify] at hget
  split at hget
  · rename_i hi
    obtain ⟨old, hold, rfl⟩ := Option.map_eq_some_iff.mp hget
    exact hf old (hi ▸ hold)
  · exact h i other hget

end Tree.Spanning

namespace Grammar

variable {α β : Type} {text : List Char} {a b e e' : Nat} {c : Context} {s s' : State}

/-! ## States -/

/-- A state that reading can go on from. No error of the lexer is waiting. -/
structure Usable (text : List Char) (s : State) : Prop where
  lexer : s.lexer.Settled text
  fault : s.lexer.fault = none
  order : s.lastEnd ≤ s.lexer.start
  stop : Boundary text s.lastEnd
  nodes : s.tree.Spanning text s.lastEnd

inductive State.Blames (text : List Char) (s : State) : Nat → Nat → Prop
  | lexer {start stop : Nat} : s.lexer.Blames text start stop → State.Blames text s start stop
  | node {id : NodeId} {node : Node} : s.tree.get? id = some node →
      State.Blames text s node.start node.stop

namespace Usable

theorem withTree (h : Usable text s) {tree : Tree} (htree : tree.Spanning text s.lastEnd) :
    Usable text { s with tree } :=
  ⟨h.lexer, h.fault, h.order, h.stop, htree⟩

theorem blames_token (h : Usable text s) :
    s.Blames text s.lexer.start (s.lexer.start + (s.lexer.pos - s.lexer.start)) := by
  rw [Nat.add_sub_cancel' h.lexer.le]
  exact .lexer .token

end Usable

/-! ## Safe parsers -/

/-- The run leaves a state that can be used on. After an answer the state satisfies `Q`; an error is
one the state may be blamed for. -/
def Leaves (text : List Char) (Q : State → Prop) : EStateM.Result Failure State α → Prop
  | .ok _ s => Usable text s ∧ Q s
  | .error f s => Usable text s ∧ s.Blames text f.start (f.start + f.length)

namespace Leaves

variable {Q Q' : State → Prop} {p : Parser α} {f : α → Parser β}

theorem mono {r : EStateM.Result Failure State α} (h : Leaves text Q r)
    (himp : ∀ s, Usable text s → Q s → Q' s) : Leaves text Q' r := by
  cases r with
  | ok x s => exact ⟨h.1, himp s h.1 h.2⟩
  | error f s => exact h

theorem bind (h : Leaves text Q (p c s))
    (hf : ∀ x s', Usable text s' → Q s' → Leaves text Q' (f x c s')) :
    Leaves text Q' ((p >>= f) c s) := by
  cases hrun : p c s with
  | ok x s' =>
      rw [hrun] at h
      rw [bind_ok hrun]
      exact hf x s' h.1 h.2
  | error err s' =>
      rw [hrun] at h
      rw [bind_error hrun]
      exact h

end Leaves

/-- The parser may be run where the token starts at `a` or later, and the last one ended at `e` or
later. Afterwards the last token ended at `e'` or later. -/
def Safe (text : List Char) (a e : Nat) (p : Parser α) (e' : Nat) : Prop :=
  ∀ c s, Usable text s → a ≤ s.lexer.start → e ≤ s.lastEnd →
    Leaves text (fun s' => a ≤ s'.lexer.start ∧ e' ≤ s'.lastEnd) (p c s)

class Calm (text : List Char) (p : Parser α) : Prop where
  safe : ∀ a e, Safe text a e p e

class Eats (text : List Char) (p : Parser α) : Prop where
  safe : ∀ a e, Safe text a e p a

class Rejects (text : List Char) (p : Parser α) : Prop where
  safe : ∀ a e e', Safe text a e p e'

namespace Safe

variable {p p' : Parser α} {f : α → Parser β} {m : Nat}

theorem mono (h : Safe text a e p m) (hle : e' ≤ m) : Safe text a e p e' :=
  fun c s hs ha he => (h c s hs ha he).mono fun _ _ hends => ⟨hends.1, hle.trans hends.2⟩

theorem pure {x : α} (hle : e' ≤ e) : Safe text a e (pure x) e' :=
  fun _ _ hs ha he => ⟨hs, ha, hle.trans he⟩

theorem bind (hp : Safe text a e p m) (hf : ∀ x, Safe text a m (f x) e') :
    Safe text a e (p >>= f) e' :=
  fun c s hs ha he => (hp c s hs ha he).bind fun x s' hs' hends => hf x c s' hs' hends.1 hends.2

theorem map {g : α → β} (hp : Safe text a e p e') : Safe text a e (g <$> p) e' :=
  hp.bind fun _ => .pure (Nat.le_refl _)

theorem lift (h : Safe text (max a e) e p e') : Safe text a e p e' := by
  intro c s hs ha he
  refine (h c s hs (Nat.max_le.mpr ⟨ha, he.trans hs.order⟩) he).mono fun s' _ hends => ?_
  exact ⟨(Nat.le_max_left a e).trans hends.1, hends.2⟩

/-! ### Steps -/

theorem calm [hp : Calm text p] (hf : ∀ x, Safe text a e (f x) e') : Safe text a e (p >>= f) e' :=
  (hp.safe a e).bind hf

theorem eat [hp : Eats text p] (hf : ∀ x, Safe text a a (f x) e') : Safe text a e (p >>= f) e' :=
  (hp.safe a e).bind hf

theorem start {f : Nat → Parser β}
    (hf : ∀ b, a ≤ b → e ≤ b → Boundary text b → Safe text b e (f b) e') :
    Safe text a e (tokenStart >>= f) e' := by
  intro c s hs ha he
  have hboundary := hs.lexer.start.boundary
  have hrest := hf s.lexer.start ha (he.trans hs.order) hboundary c s hs (Nat.le_refl _) he
  exact hrest.mono fun s' _ hends => ⟨ha.trans hends.1, hends.2⟩

theorem fail [hp : Rejects text p] : Safe text a e p e' :=
  hp.safe a e e'

theorem ite {q : Prop} [Decidable q] (h : Safe text a e p e') (h' : Safe text a e p' e') :
    Safe text a e (if q then p else p') e' :=
  iteInduction (motive := fun p => Safe text a e p e') (fun _ => h) fun _ => h'

/-- A step that is taken on one of two ways to what comes next. -/
theorem when {q : Prop} [Decidable q] {p : Parser Unit} {f : Unit → Parser β} [Calm text p]
    (hf : Safe text a e (f ()) e') : Safe text a e (if q then p >>= f else f ()) e' :=
  .ite (.calm fun _ => hf) hf

theorem whenNot {q : Prop} [Decidable q] {p : Parser Unit} {f : Unit → Parser β} [Calm text p]
    (hf : Safe text a e (f ()) e') : Safe text a e (if q then f () else p >>= f) e' :=
  .ite hf (.calm fun _ => hf)

theorem join {q : Prop} [Decidable q] (hp : Safe text a e p m) (hp' : Safe text a e p' m)
    (hf : ∀ x, Safe text a m (f x) e') :
    Safe text a e (if q then p >>= f else p' >>= f) e' :=
  .ite (hp.bind hf) (hp'.bind hf)

theorem either {q : Prop} [Decidable q] [Calm text p] [Calm text p']
    (hf : ∀ x, Safe text a e (f x) e') :
    Safe text a e (if q then p >>= f else p' >>= f) e' :=
  .ite (.calm hf) (.calm hf)

theorem withReader {g : Context → Context} (h : Safe text a e p e') :
    Safe text a e (withReader g p) e' :=
  fun c s hs ha he => h (g c) s hs ha he

end Safe

theorem Calm.bind {p : Parser α} {f : α → Parser β} (hp : Calm text p)
    (hf : ∀ x, Safe text a e (f x) e') : Safe text a e (p >>= f) e' :=
  .calm hf

theorem Eats.bind {p : Parser α} {f : α → Parser β} (hp : Eats text p)
    (hf : ∀ x, Safe text a a (f x) e') : Safe text a e (p >>= f) e' :=
  .eat hf

theorem Eats.calm {p : Parser α} (h : Eats text p) : Calm text p where
  safe a e := .lift ((h.safe (max a e) e).mono (Nat.le_max_right a e))

theorem Eats.withReader {p : Parser α} {g : Context → Context} (h : Eats text p) :
    Eats text (withReader g p) :=
  ⟨fun a e => (h.safe a e).withReader⟩

instance calm_of_rejects (p : Parser α) [hp : Rejects text p] : Calm text p :=
  ⟨fun a e => hp.safe a e e⟩

instance (priority := low) calm_of_looks (p : Parser α) [hp : Looks p] : Calm text p where
  safe a e c s hs ha he := by
    obtain ⟨x, h⟩ := hp.ok c s
    rw [h]
    exact ⟨hs, ha, he⟩

instance calm_bind (p : Parser α) (f : α → Parser β) [Calm text p] [hf : ∀ x, Calm text (f x)] :
    Calm text (p >>= f) :=
  ⟨fun a e => .calm fun x => (hf x).safe a e⟩

instance calm_ite (q : Prop) [Decidable q] (p p' : Parser α) [hp : Calm text p]
    [hp' : Calm text p'] : Calm text (if q then p else p') :=
  ⟨fun a e => .ite (hp.safe a e) (hp'.safe a e)⟩

/-! ### Failing -/

instance rejects_failAtTokenWith (message : Message) (arguments : List String) :
    Rejects text (failAtTokenWith message arguments : Parser α) :=
  ⟨fun _ _ _ _ _ hs _ _ => ⟨hs, hs.blames_token⟩⟩

instance rejects_failAtToken (message : Message) : Rejects text (failAtToken message : Parser α) :=
  rejects_failAtTokenWith message []

instance rejects_failExpecting (t : Token) : Rejects text (failExpecting t : Parser α) :=
  rejects_failAtTokenWith .tokenExpected [t.description]

instance rejects_failUnexpected : Rejects text (failUnexpected : Parser α) :=
  ⟨fun _ _ _ => .calm fun _ => .ite .fail .fail⟩

/-! ### Tokens -/

structure Ready (text : List Char) (s : State) : Prop where
  lexer : s.lexer.Placed text
  fault : s.lexer.fault = none
  nodes : s.tree.Spanning text s.lexer.pos

theorem Usable.ready (h : Usable text s) : Ready text s where
  lexer := h.lexer.placed
  fault := h.fault
  nodes := h.nodes.mono (h.order.trans h.lexer.le)

/-- The lexer may be blamed whether or not its error is still waiting. -/
theorem blames_unfaulted {l : Lexer} {start stop : Nat} (h : l.Blames text start stop) :
    Lexer.Blames text { l with fault := none } start stop := by
  cases h with
  | token => exact .token
  | escape hstart hstop hge hlt hle => exact .escape hstart hstop hge hlt hle
  | after hbetween hlength => exact .after hbetween hlength

theorem leaves_raiseFault (c : Context)
    (hs : Usable text { s with lexer := { s.lexer with fault := none } })
    (hfault : s.lexer.BlamesFault text) : Leaves text (fun s' => s' = s) (raiseFault c s) := by
  rcases raiseFault_cases c s with ⟨hnone, hrun⟩ | ⟨f, hsome, hrun⟩
  · rw [hrun]
    have hsame : { s with lexer := { s.lexer with fault := none } } = s := by
      rw [← hnone]
    exact ⟨hsame ▸ hs, rfl⟩
  · rw [hrun]
    exact ⟨hs, .lexer (blames_unfaulted (hfault f hsome))⟩

theorem leaves_advance (c : Context) (h : Ready text s) :
    Leaves text (fun s' => s'.lastEnd = s.lexer.pos) (advance c s) := by
  obtain ⟨hsettled, hle⟩ := h.lexer.next
  have hraise := leaves_raiseFault (s := { s with lastEnd := s.lexer.pos, lexer := s.lexer.next }) c
    ⟨hsettled.noted _ _, rfl, hle, h.lexer.seam.boundary, h.nodes⟩
    (Lexer.blamesFault_next h.lexer h.fault)
  refine Leaves.mono (r := advance c s) hraise fun s' _ hsame => ?_
  rw [hsame]

instance eats_advance : Eats text advance where
  safe a e c s hs ha he := by
    refine (leaves_advance c hs.ready).mono fun s' hs' hlast => ?_
    have hge : a ≤ s'.lastEnd := hlast ▸ ha.trans hs.lexer.le
    exact ⟨hge.trans hs'.order, hge⟩

instance calm_advance : Calm text advance :=
  Eats.calm inferInstance

instance eats_expect (t : Token) : Eats text (expect t) :=
  ⟨fun a e => .calm fun _ => .ite (Eats.safe a e) .fail⟩

instance calm_expect (t : Token) : Calm text (expect t) :=
  Eats.calm inferInstance

instance calm_accept (t : Token) : Calm text (accept t) := by
  unfold accept; infer_instance

instance calm_endStatement : Calm text endStatement := by
  unfold endStatement; infer_instance

theorem calm_reread {reread : Lexer → Lexer}
    (hreread : ∀ l, l.Settled text → (reread l).Settled text ∧ (reread l).start = l.start)
    (hfault : ∀ l : Lexer, l.fault = none → (reread l).BlamesFault text) :
    Calm text (do
      modify fun s => { s with lexer := reread s.lexer }
      raiseFault) where
  safe a e c s hs ha he := by
    obtain ⟨hsettled, hstart⟩ := hreread s.lexer hs.lexer
    have hraise := leaves_raiseFault (s := { s with lexer := reread s.lexer }) c
      ⟨hsettled.noted _ _, rfl, hs.order.trans hstart.ge, hs.stop, hs.nodes⟩
      (hfault s.lexer hs.fault)
    have hmodify : (modify fun s => { s with lexer := reread s.lexer } : Parser PUnit) c s =
        .ok () { s with lexer := reread s.lexer } := rfl
    rw [bind_ok hmodify]
    refine hraise.mono fun s' _ hsame => ?_
    rw [hsame]
    exact ⟨ha.trans hstart.ge, he⟩

instance calm_rereadSlash : Calm text rereadSlash :=
  calm_reread (fun _ h => h.rereadSlash) fun _ h => Lexer.blamesFault_rereadSlash h

instance calm_rereadBrace : Calm text rereadBrace :=
  calm_reread (fun _ h => h.rereadBrace) fun _ h => Lexer.blamesFault_rereadBrace h

instance calm_rereadGreater : Calm text rereadGreater where
  safe a e c s hs ha he := by
    obtain ⟨hsettled, hstart⟩ := hs.lexer.rereadGreater
    have hfault : s.lexer.rereadGreater.fault = none := by
      unfold Lexer.rereadGreater
      split
      · exact hs.fault
      · exact hs.fault
    exact ⟨⟨hsettled, hfault, hs.order.trans hstart.ge, hs.stop, hs.nodes⟩, ha.trans hstart.ge, he⟩

/-! ### Nodes -/

namespace Safe

theorem finishWith {kind : NodeKind} {slots : List Slot} {details : Details}
    (hb : Boundary text b) (hle : b ≤ e) (he' : e' ≤ e) :
    Safe text a e (finishWith kind b slots details) e' := by
  intro c s hs ha he
  have hbound := hle.trans he
  exact ⟨hs.withTree (hs.nodes.add hb hs.stop hbound hbound), ha, he'.trans he⟩

theorem finish {kind : NodeKind} {slots : List Slot} (hb : Boundary text b) (hle : b ≤ e)
    (he' : e' ≤ e) : Safe text a e (finish kind b slots) e' :=
  .finishWith hb hle he'

end Safe

instance calm_tokenAtom : Calm text tokenAtom :=
  ⟨fun _ _ _ _ hs ha he => ⟨hs.withTree (hs.nodes.congr fun _ => rfl), ha, he⟩⟩

instance eats_identifierName : Eats text identifierName where
  safe a e := by
    refine .calm fun _ => .when (.start fun b hab _ hb => .calm fun name => .eat fun _ => ?_)
    exact .finishWith hb (Nat.le_refl b) hab

instance eats_identifier : Eats text identifier :=
  ⟨fun a e => .calm fun _ => .ite (Eats.safe a e) .fail⟩

instance eats_literal : Eats text literal where
  safe a e := by
    refine .start fun b hab _ hb => .calm fun t => .eat fun _ => ?_
    exact .finishWith hb (Nat.le_refl b) hab

instance eats_stringLiteral : Eats text stringLiteral :=
  ⟨fun a e => .calm fun _ => .ite (Eats.safe a e) .fail⟩

/-! ### Speculation and loops -/

/-- A part of a loop may be run wherever the loop starts, whatever is known. -/
def safety (text : List Char) (a e : Nat) : Logic Prop where
  Holds _ p _ := Safe text a e p e
  pure _ _ := .pure le_rfl
  bind hp hf := .bind hp hf
  mono hp _ _ := hp
  get _ := Calm.safe a e
  stuck _ _ := .fail

namespace Safe

variable {p : Parser α} {nodes : α → List NodeId}

theorem attempt (hkeeps : ∀ base, Keeps base p nodes) (h : Safe text a e p e) :
    Safe text a e (attempt p) e := by
  intro c s hs ha he
  have hp := h c s hs ha he
  cases hrun : p c s with
  | ok x s' =>
      rw [hrun] at hp
      rw [attempt_ok hrun]
      exact hp
  | error f s' =>
      have hattempt := attempt_error hrun
      obtain ⟨names, -, hsame⟩ := sameButNames_of_attempt (hkeeps s.tree) hattempt
      rw [hattempt, hsame]
      exact ⟨hs.withTree (hs.nodes.congr fun _ => rfl), ha, he⟩

theorem mapM {γ : Type} {g : γ → Parser α} (h : ∀ item, Safe text a e (g item) e)
    (items : List γ) : Safe text a e (items.mapM g) e :=
  (safety text a e).mapM (I := fun _ _ => True) (fun item _ _ _ => h item) [] []

variable {step : α → Parser (Option α)} {item : Parser (Option α)} {one : Parser α}

theorem iterate (h : ∀ x, Safe text a e (step x) e) (x : α) :
    Safe text a e (iterate step x) e :=
  (safety text a e).iterate (I := fun _ => True) (E := fun _ => True) h x

theorem collect (h : Safe text a e item e) : Safe text a e (collect item) e :=
  (safety text a e).collect (I := fun _ => True) (E := fun _ => True) fun _ => h

theorem afterComma (h : Safe text a e one e) :
    Safe text a e (Grammar.collect do if ← accept .comma then some <$> one else return none) e :=
  (safety text a e).afterComma (I := fun _ => True) (J := fun _ => True) (fun _ => h)
    fun _ => Calm.safe a e

end Safe

theorem Eats.commaTerminated {close : Token} {one : Parser α} (h : Eats text one) :
    Calm text (commaTerminated close one) where
  safe a e := (safety text a e).commaTerminated (I := fun _ => True) (J := fun _ => True)
    (fun _ => h.calm.safe a e) (fun _ => Calm.safe a e) fun _ => Calm.safe a e

theorem Eats.commaSeparated {one : Parser α} (h : Eats text one) :
    Eats text (commaSeparated one) where
  safe a e := by
    refine h.bind fun first => ?_
    exact (Safe.afterComma (h.safe a a)).bind fun more => .pure (Nat.le_refl a)

theorem Eats.commaDelimited {close : Token} {one : Parser α} (h : Eats text one) :
    Calm text (commaDelimited close one) where
  safe a e := (safety text a e).commaDelimited (I := fun _ => True) (J := fun _ => True)
    (fun _ => h.calm.safe a e) fun _ => Calm.safe a e

/-! ### Nodes that change -/

/-- The node in the answer ends where the last token does. -/
def EndsLast (p : Parser NodeId) : Prop :=
  ∀ c s id s', p c s = .ok id s' → ∀ node, s'.tree.get? id = some node → node.stop = s'.lastEnd

theorem endsLast_finishWith {kind : NodeKind} {start : Nat} {slots : List Slot}
    {details : Details} : EndsLast (finishWith kind start slots details) := by
  rintro c s id s' ⟨⟩ node hget
  obtain rfl := Option.some.inj ((Tree.get?_add_self _ _).symm.trans hget)
  rfl

namespace Safe

/-- A node that ends with the last token gets another start. -/
theorem updateStart {p : Parser NodeId} {e₁ : Nat} (hp : Safe text a e p e₁) (hends : EndsLast p)
    (hb : Boundary text b) (hle : b ≤ e₁) :
    Safe text a e (do
      let id ← p
      updateNode id fun node => { node with start := b }
      return id) e₁ := by
  intro c s hs ha he
  have hfirst := hp c s hs ha he
  cases hrun : p c s with
  | error f s' =>
      rw [hrun] at hfirst
      rw [bind_error hrun]
      exact hfirst
  | ok id s' =>
      rw [hrun] at hfirst
      rw [bind_ok hrun]
      obtain ⟨hs', ha', he'⟩ := hfirst
      refine ⟨hs'.withTree (hs'.nodes.modify fun node hnode => ?_), ha', he'⟩
      have hstop : b ≤ node.stop := hends c s id s' hrun node hnode ▸ hle.trans he'
      exact ⟨hb, (hs'.nodes id node hnode).2.1, hstop, hle.trans he'⟩

theorem updateStop (id : NodeId) (he' : e' ≤ e) :
    Safe text a e (do
      let stop ← lastEnd
      updateNode id ({ · with stop })
      return id) e' := by
  intro c s hs ha he
  refine ⟨hs.withTree (hs.nodes.modify fun node hnode => ?_), ha, he'.trans he⟩
  obtain ⟨hstart, -, -, hbound⟩ := hs.nodes id node hnode
  exact ⟨hstart, hs.stop, hbound, hbound⟩

end Safe

end Grammar

end FlowErasure
