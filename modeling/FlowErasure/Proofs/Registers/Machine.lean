import FlowErasure.Proofs.Frame.Parsers
import FlowErasure.Registers.Program

/-!
# Registers

A rule that keeps what it was handed in registers has to put them back: after a part in other
surroundings, after a level of nesting, and after an attempt that failed. `Restores q` says that it
does so from wherever it starts, whether it answers or fails. `Follows levels q p` says that where
`levels` more levels may be opened it does what a rule of the grammar does. `Mirrors` is both, and the
instances here and in the modules that come after this one say it of the rules one by one.
-/

namespace FlowErasure.Grammar

variable {α β : Type} {levels : Nat}

namespace Registers

/-- The current token is the one that the lexer has read. -/
def Agrees (r : Registers) : Prop :=
  r.current = r.lexer.token

structure Restored (r r' : Registers) : Prop where
  context : r'.context = r.context
  depth : r'.depth = r.depth
  agrees : r'.Agrees

theorem Restored.trans {r r' r'' : Registers} (h : r.Restored r') (h' : r'.Restored r'') :
    r.Restored r'' :=
  ⟨h'.context.trans h.context, h'.depth.trans h.depth, h'.agrees⟩

end Registers

/-! ## Putting registers back -/

def Restores (q : Machine α) : Prop :=
  ∀ r : Registers, r.Agrees → r.Restored (Registers.final (q r))

namespace Restores

open Registers (final)

variable {q : Machine α} {g : α → Machine β}

theorem bind (hq : Restores q) (hg : ∀ a, Restores (g a)) : Restores (q >>= g) := by
  intro r hr
  have hfirst := hq r hr
  cases hrun : q r with
  | ok a r' =>
      have hbind : (q >>= g) r = g a r' := by simp [Bind.bind, EStateM.bind, hrun]
      rw [hrun] at hfirst
      rw [hbind]
      exact hfirst.trans (hg a r' hfirst.agrees)
  | error e r' =>
      have hbind : (q >>= g) r = .error e r' := by simp [Bind.bind, EStateM.bind, hrun]
      rw [hrun] at hfirst
      rw [hbind]
      exact hfirst

/-- A step that leaves everything but the nodes, the names and the end of the last token. -/
theorem step {a : Registers → α} {f : Registers → Registers}
    (hlexer : ∀ r, (f r).lexer.token = r.lexer.token) (hcurrent : ∀ r, (f r).current = r.current)
    (hcontext : ∀ r, (f r).context = r.context) (hdepth : ∀ r, (f r).depth = r.depth) :
    Restores (modifyGet fun r => (a r, f r) : Machine α) :=
  fun r hr => ⟨hcontext r, hdepth r, (hcurrent r).trans (hr.trans (hlexer r).symm)⟩

theorem withContext {change : Context → Context} (h : Restores q) :
    Restores (Machine.withContext change q) := by
  intro r hr
  have hpart := h { r with context := change r.context } hr
  unfold Machine.withContext
  dsimp only
  cases hrun : q { r with context := change r.context } with
  | ok a r' =>
      rw [hrun] at hpart
      exact ⟨rfl, hpart.depth, hpart.agrees⟩
  | error e r' =>
      rw [hrun] at hpart
      exact ⟨rfl, hpart.depth, hpart.agrees⟩

/-- The level that is counted down is the one that was counted up, because the part between has put
the depth back. -/
theorem guarded (hdeep : Restores (Machine.failTooDeep : Machine α)) (h : Restores q) :
    Restores (Machine.guarded q) := by
  intro r hr
  unfold Machine.guarded
  split
  · exact hdeep r hr
  · have hpart := h { r with depth := r.depth + 1 } hr
    cases hrun : q { r with depth := r.depth + 1 } with
    | ok a r' =>
        rw [hrun] at hpart
        have hdepth : r'.depth = r.depth + 1 := hpart.depth
        exact ⟨hpart.context, by simp [final, hdepth], hpart.agrees⟩
    | error e r' =>
        rw [hrun] at hpart
        have hdepth : r'.depth = r.depth + 1 := hpart.depth
        exact ⟨hpart.context, by simp [final, hdepth], hpart.agrees⟩

theorem attempt (h : Restores q) : Restores (Machine.attempt q) := by
  intro r hr
  have hpart := h r hr
  unfold Machine.attempt
  dsimp only
  cases hrun : q r with
  | ok a r' =>
      rw [hrun] at hpart
      exact ⟨hpart.context, hpart.depth, hpart.agrees⟩
  | error e r' => exact ⟨rfl, rfl, hr⟩

/-- However far the lexer goes ahead, the current token is the lexer's again when it is back. -/
theorem lookThrough (look : StateM Lexer α) : Restores (Machine.lookThrough look) :=
  fun _ hr => ⟨rfl, rfl, hr⟩

end Restores

/-! ## Doing what a rule of the grammar does -/

/-- The outcome of a parser, in the registers. The current token is the one that the lexer has
read. -/
def Registers.after (r : Registers) :
    EStateM.Result Failure State α → EStateM.Result Failure Registers α
  | .ok a s => .ok a { r with toState := s, current := s.lexer.token }
  | .error e s => .error e { r with toState := s, current := s.lexer.token }

def Follows (levels : Nat) (q : Machine α) (p : Parser α) : Prop :=
  ∀ r : Registers, r.Agrees → r.depth + levels = nestingLimit →
    q r = r.after (p r.context r.toState)

namespace Follows

variable {q : Machine α} {p : Parser α} {g : α → Machine β} {f : α → Parser β}

/-- It is enough to look at registers whose current token is the lexer's. -/
theorem of_agreeing
    (h : ∀ (s : State) (c : Context) (depth : Nat), depth + levels = nestingLimit →
      q ⟨s, s.lexer.token, c, depth⟩ =
        Registers.after ⟨s, s.lexer.token, c, depth⟩ (p c s)) : Follows levels q p := by
  rintro ⟨s, current, c, depth⟩ hagrees hdepth
  obtain rfl : current = s.lexer.token := hagrees
  exact h s c depth hdepth

theorem bind (hp : Follows levels q p) (hf : ∀ a, Follows levels (g a) (f a)) :
    Follows levels (q >>= g) (p >>= f) := by
  intro r hr hdepth
  have hfirst := hp r hr hdepth
  cases hrun : p r.context r.toState with
  | error e s =>
      rw [hrun] at hfirst
      rw [bind_error hrun]
      simp [Bind.bind, EStateM.bind, hfirst, Registers.after]
  | ok a s =>
      rw [hrun] at hfirst
      rw [bind_ok hrun]
      have hrest := hf a { r with toState := s, current := s.lexer.token } rfl hdepth
      have hbind : (q >>= g) r = g a { r with toState := s, current := s.lexer.token } := by
        simp [Bind.bind, EStateM.bind, hfirst, Registers.after]
      rw [hbind, hrest]
      cases f a r.context s <;> rfl

theorem withContext {change : Context → Context} (h : Follows levels q p) :
    Follows levels (Machine.withContext change q) (withReader change p) := by
  refine .of_agreeing fun s c depth hdepth => ?_
  have hpart := h ⟨s, s.lexer.token, change c, depth⟩ rfl hdepth
  unfold Machine.withContext
  dsimp only
  rw [hpart]
  show _ = Registers.after _ (p (change c) s)
  cases p (change c) s <;> rfl

theorem attempt (h : Follows levels q p) :
    Follows levels (Machine.attempt q) (attempt p) := by
  refine .of_agreeing fun s c depth hdepth => ?_
  have hpart := h ⟨s, s.lexer.token, c, depth⟩ rfl hdepth
  dsimp only at hpart
  unfold Machine.attempt Grammar.attempt
  dsimp only
  rw [hpart]
  cases p c s <;> rfl

theorem guarded (h : Follows levels q p) : Follows (levels + 1) (Machine.guarded q) p := by
  refine .of_agreeing fun s c depth hdepth => ?_
  have hdeeper : depth + 1 + levels = nestingLimit := by omega
  have hpart := h ⟨s, s.lexer.token, c, depth + 1⟩ rfl hdeeper
  have hlt : ¬nestingLimit ≤ depth := by omega
  unfold Machine.guarded
  rw [if_neg hlt]
  dsimp only
  rw [hpart]
  dsimp only
  cases p c s <;> rfl

theorem guarded_zero (q : Machine NodeId) : Follows 0 (Machine.guarded q) failTooDeep := by
  refine .of_agreeing fun s c depth hdepth => ?_
  have hle : nestingLimit ≤ depth := hdepth.ge
  unfold Machine.guarded
  rw [if_pos hle]
  rfl

/-- The lexer that goes on and comes back tells what the rule computes from the lexer it has. -/
theorem lookThrough {look : StateM Lexer α} {rest : State → Parser α}
    (h : ∀ s, rest s = pure (look s.lexer).1) :
    Follows levels (Machine.lookThrough look) (get >>= rest) := by
  refine .of_agreeing fun s c depth _ => ?_
  have hget : (get : Parser State) c s = .ok s s := rfl
  show _ = Registers.after _ ((get >>= rest) c s)
  rw [bind_ok hget, h s]
  rfl

end Follows

/-- The rule puts the registers back, and does what the rule of the grammar does. -/
class Mirrors (levels : Nat) (q : Machine α) (p : Parser α) : Prop where
  restores : Restores q
  follows : Follows levels q p

end FlowErasure.Grammar
