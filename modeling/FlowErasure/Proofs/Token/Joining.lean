import FlowErasure.Token.Lexer

/-!
# Joined tokens

A `>` is read alone, and in an expression it is read again together with what comes after it. Whoever
reads the pieces one at a time comes to the same place, unless the last one is an `=` that starts a
longer token.
-/

namespace FlowErasure

namespace Lexer

structure SameText (l l' : Lexer) : Prop where
  size : l.size = l'.size
  rest : l.rest = l'.rest
  pos : l.pos = l'.pos
  fault : l.fault = l'.fault

variable {l l' : Lexer} {cs : List Char}

theorem readToken_congr (h : l = { l' with token := l.token, value := l.value }) :
    l.readToken = l'.readToken := by
  rw [h]
  obtain ⟨_, _, _, _, _, startRest, _, _, _, _⟩ := l'
  cases startRest with
  | nil => rfl
  | cons c cs =>
      unfold readToken
      dsimp only
      split
      · rfl
      · split
        · rfl
        · split
          · rfl
          · split
            · rfl
            · split <;> rfl

theorem SameText.next (h : l.SameText l') : l.next = l'.next := by
  unfold Lexer.next
  rw [h.rest, h.pos, h.size, h.fault]
  dsimp only
  split <;> exact readToken_congr rfl

def skipped (l : Lexer) (n : Nat) : Lexer :=
  { l with pos := l.pos + n, rest := l.rest.drop n }

theorem SameText.skipped (h : l.SameText l') (n : Nat) : (l.skipped n).SameText (l'.skipped n) :=
  ⟨h.size, congrArg (List.drop n) h.rest, congrArg (· + n) h.pos, h.fault⟩

theorem skipped_skipped (l : Lexer) (n m : Nat) : (l.skipped n).skipped m = l.skipped (n + m) := by
  simp [Lexer.skipped, Nat.add_assoc]

theorem SameText.trans {l'' : Lexer} (h : l.SameText l') (h' : l'.SameText l'') : l.SameText l'' :=
  ⟨h.size.trans h'.size, h.rest.trans h'.rest, h.pos.trans h'.pos, h.fault.trans h'.fault⟩

theorem SameText.symm (h : l.SameText l') : l'.SameText l :=
  ⟨h.size.symm, h.rest.symm, h.pos.symm, h.fault.symm⟩

theorem next_of_greater (hrest : l.rest = '>' :: cs) :
    l.next.token = .greaterThan ∧ l.next.SameText (l.skipped 1) := by
  unfold Lexer.next
  rw [hrest]
  exact ⟨rfl, rfl, by simp [skipped, hrest]; rfl, rfl, rfl⟩

theorem rereadGreater_eq (hl : l.token ≠ .greaterThan) : l.rereadGreater = l := by
  unfold rereadGreater
  simp [hl]

/-- Tokens that come from an `=` or a `>`, as no operand does. -/
def startsNoOperand (t : Token) : Bool :=
  [.equals, .equalsEquals, .equalsEqualsEquals, .arrow, .greaterThan].contains t

/-- Operators that a `>` and the characters after it are joined to. -/
def joinsGreater (t : Token) : Bool :=
  [.greaterThanEquals, .shiftRight, .shiftRightEquals, .shiftRightUnsigned,
    .shiftRightUnsignedEquals].contains t

/-- A `>` is joined with all that comes after it of a `>>>=` that ends early or at its `=`. -/
theorem rereadGreater_cases (hl : l.token = .greaterThan) :
    l.rereadGreater = l ∨
      (joinsGreater l.rereadGreater.token ∧ ∃ n tail cs,
        (tail = [] ∨ tail = ['=']) ∧ l.rest = List.replicate n '>' ++ (tail ++ cs) ∧
          l.rereadGreater.SameText (l.skipped (n + tail.length))) := by
  unfold rereadGreater
  simp only [hl, beq_self_eq_true, if_true]
  split
  · rename_i cs hrest
    exact .inr ⟨rfl, 2, ['='], cs, .inr rfl, hrest, rfl, rfl, rfl, rfl⟩
  · rename_i cs _ hrest
    exact .inr ⟨rfl, 2, [], cs, .inl rfl, hrest, rfl, rfl, rfl, rfl⟩
  · rename_i cs hrest
    exact .inr ⟨rfl, 1, ['='], cs, .inr rfl, hrest, rfl, rfl, rfl, rfl⟩
  · rename_i cs _ _ _ hrest
    exact .inr ⟨rfl, 1, [], cs, .inl rfl, hrest, rfl, rfl, rfl, rfl⟩
  · rename_i cs hrest
    exact .inr ⟨rfl, 0, ['='], cs, .inr rfl, hrest, rfl, rfl, rfl, rfl⟩
  · refine .inl ?_
    rw [← hl]
    rfl

/-- Where a `>` is joined with what comes after it, the next token is another one. -/
theorem rereadGreater_eq_or (l : Lexer) :
    l.rereadGreater = l ∨ (l.token = .greaterThan ∧ joinsGreater l.rereadGreater.token) := by
  by_cases hl : l.token = .greaterThan
  · exact (rereadGreater_cases hl).imp_right fun h => ⟨hl, h.1⟩
  · exact .inl (rereadGreater_eq hl)

theorem rereadGreater_idem (l : Lexer) : l.rereadGreater.rereadGreater = l.rereadGreater := by
  obtain h | ⟨-, h⟩ := rereadGreater_eq_or l
  · rw [h, h]
  · refine rereadGreater_eq fun heq => ?_
    rw [heq] at h
    cases h

/-- Punctuation that starts with an equals sign starts no operand, and if it is longer, neither does
what comes after the sign. -/
theorem equals_punctuation : ∀ entry ∈ punctuation, entry.1 ≠ [] ∧ (entry.1.head? = some '=' →
    startsNoOperand entry.2 ∧ (entry = (['='], .equals) ∨
      entry.1.tail.head? = some '=' ∨ entry.1.tail.head? = some '>')) := by
  decide +kernel

theorem exists_punctuator?_equals (cs : List Char) :
    ∃ entry, punctuator? ('=' :: cs) = some entry ∧ startsNoOperand entry.2 ∧
      (entry = (['='], .equals) ∨ ∃ cs', cs = '=' :: cs' ∨ cs = '>' :: cs') := by
  have hfound : (punctuator? ('=' :: cs)).isSome := by
    refine List.find?_isSome.mpr ⟨(['='], .equals), by decide, ?_⟩
    simp
  obtain ⟨⟨spelling, token⟩, hentry⟩ := Option.isSome_iff_exists.mp hfound
  obtain ⟨hne, hequals⟩ := equals_punctuation _ (List.mem_of_find?_eq_some hentry)
  have hprefix : spelling.isPrefixOf ('=' :: cs) := by simpa using List.find?_some hentry
  obtain ⟨rest, hrest⟩ := List.isPrefixOf_iff_prefix.mp hprefix
  cases spelling with
  | nil => exact absurd rfl hne
  | cons c spelling =>
      obtain ⟨rfl, rfl⟩ := List.cons.inj hrest
      obtain ⟨hstarts, hlonger⟩ := hequals rfl
      refine ⟨_, hentry, hstarts, hlonger.imp_right fun hlonger => ?_⟩
      cases spelling with
      | nil => simp at hlonger
      | cons d spelling =>
          refine ⟨spelling ++ rest, hlonger.imp (fun hd => ?_) fun hd => ?_⟩
          · exact congrArg (· :: (spelling ++ rest)) (Option.some.inj hd)
          · exact congrArg (· :: (spelling ++ rest)) (Option.some.inj hd)

/-- What starts with an `=` starts no operand. It is an `=` alone, or neither does what comes after
the `=`. -/
theorem next_of_equals (hrest : l.rest = '=' :: cs) :
    startsNoOperand l.next.token ∧ ((l.next.token = .equals ∧ l.next.SameText (l.skipped 1)) ∨
      ∃ cs', cs = '=' :: cs' ∨ cs = '>' :: cs') := by
  obtain ⟨entry, hentry, hstarts, hequals⟩ := exists_punctuator?_equals cs
  have hgap : skipGap .blank l.pos false ('=' :: cs) = ⟨'=' :: cs, l.pos, false, false⟩ := rfl
  have hdigit : Token.isAsciiDigit '=' = false := by decide
  have hname : Token.isNameStart '=' = false := by decide
  have hread : l.next =
      { l with
        fullStart := l.pos, start := l.pos, startRest := '=' :: cs, flags := {}, token := entry.2,
        pos := l.pos + entry.1.length, rest := ('=' :: cs).drop entry.1.length, value := "" } := by
    unfold Lexer.next
    rw [hrest, hgap]
    simp [readToken, hdigit, hname, hentry, finish]
  rw [hread]
  refine ⟨hstarts, hequals.imp_left fun h => ?_⟩
  rw [h]
  exact ⟨rfl, rfl, by simp [skipped, hrest], rfl, rfl⟩

/-- What starts with the last character of a joined token starts no operand. -/
theorem startsNoOperand_next (hrest : l.rest = '=' :: cs ∨ l.rest = '>' :: cs) :
    startsNoOperand l.next.token := by
  obtain hrest | hrest := hrest
  · exact (next_of_equals hrest).1
  · rw [(next_of_greater hrest).1]
    rfl

theorem token_rereadSlash_eq (hl : l.token == .slash || l.token == .slashEquals) :
    l.rereadSlash.token = .regex := by
  unfold rereadSlash
  simp only [hl, if_true]
  split <;> rfl

theorem token_rereadBrace_eq_or (hl : l.token = .closeBrace) :
    l.rereadBrace.token = .templateTail ∨ l.rereadBrace.token = .templateMiddle := by
  unfold rereadBrace readTemplate
  simp only [hl, beq_self_eq_true, if_true]
  split
  · exact .inl rfl
  · exact .inr rfl
  · exact .inl rfl

end Lexer

end FlowErasure
