import FlowErasure.Token.Lexer

/-!
# Reading a known text

`Ready l cs` says that the lexer `l` stands before the text `cs` with no error waiting. What comes
next can then be told from the first characters of `cs` alone, whatever the characters after them.
-/

namespace FlowErasure.Lexer

structure Ready (l : Lexer) (cs : List Char) : Prop where
  rest : l.rest = cs
  fault : l.fault = none
  size : l.pos + cs.length ≤ l.size

variable {l : Lexer} {cs rest : List Char} {token : Token}

def past (l : Lexer) (token : Token) (length : Nat) (rest : List Char) (value : String) : Lexer :=
  { l with
    fullStart := l.pos, start := l.pos, startRest := l.rest, flags := {}, token
    pos := l.pos + length, rest, value }

theorem Ready.past (h : l.Ready cs) {length : Nat} (hlength : length + rest.length ≤ cs.length)
    (hnext : ∃ value, l.next = l.past token length rest value) :
    l.next.token = token ∧ l.next.Ready rest := by
  obtain ⟨value, hnext⟩ := hnext
  have hsize := h.size
  rw [hnext]
  refine ⟨rfl, rfl, h.fault, ?_⟩
  show l.pos + length + rest.length ≤ l.size
  omega

theorem Ready.string (h : l.Ready ('\x27' :: '\x27' :: cs)) :
    l.next.token = .string ∧ l.next.Ready cs := by
  refine h.past (by simp; omega : 2 + cs.length ≤ _) ?_
  unfold next Lexer.past
  rw [h.rest]
  exact ⟨_, rfl⟩

/-- A bracket is a token of its own, whatever comes next. -/
theorem Ready.bracket {c : Char} (h : l.Ready (c :: cs)) (token : Token)
    (hc : (c, token) ∈ [('[', Token.openBracket), (']', .closeBracket), ('(', .openParen),
      (')', .closeParen)]) : l.next.token = token ∧ l.next.Ready cs := by
  refine h.past (by simp; omega : 1 + cs.length ≤ _) ⟨"", ?_⟩
  unfold next Lexer.past
  rw [h.rest]
  simp only [List.mem_cons, Prod.mk.injEq, List.not_mem_nil, or_false] at hc
  obtain ⟨rfl, rfl⟩ | ⟨rfl, rfl⟩ | ⟨rfl, rfl⟩ | ⟨rfl, rfl⟩ := hc
  · rfl
  · rfl
  · rfl
  · rfl

theorem Ready.dot (h : l.Ready ('.' :: 'n' :: cs)) :
    l.next.token = .dot ∧ l.next.Ready ('n' :: cs) := by
  refine h.past (by simp; omega : 1 + ('n' :: cs).length ≤ _) ⟨"", ?_⟩
  unfold next Lexer.past
  rw [h.rest]
  rfl

theorem Ready.endOfFile (h : l.Ready []) : l.next.token = .endOfFile ∧ l.next.Ready [] := by
  refine h.past (by simp : 0 + ([] : List Char).length ≤ _) ⟨"", ?_⟩
  unfold next Lexer.past
  rw [h.rest]
  rfl

/-- A word ends where the text does or at a character that no name has in it. -/
theorem Ready.new (h : l.Ready ('n' :: 'e' :: 'w' :: cs))
    (hcs : cs = [] ∨ ∃ rest, cs = '\x27' :: rest ∨ cs = ']' :: rest) :
    l.next.token = .newKeyword ∧ l.next.Ready cs := by
  refine h.past (by simp; omega : 3 + cs.length ≤ _) ⟨"new", ?_⟩
  have hsize := h.size
  obtain ⟨bound, hbound⟩ : ∃ bound, l.size - l.pos + 1 = bound + 4 := by
    refine ⟨l.size - l.pos - 3, ?_⟩
    simp only [List.length_cons] at hsize
    omega
  have hname : nameEnd (bound + 4) true { place := ⟨l.pos, 'n' :: 'e' :: 'w' :: cs⟩ } =
      { place := ⟨l.pos + 3, cs⟩, reversed := ['w', 'e', 'n'] } := by
    obtain rfl | ⟨rest, rfl | rfl⟩ := hcs
    · rfl
    · rfl
    · rfl
  have hread : l.next = readName { l with
      fullStart := l.pos, start := l.pos, startRest := 'n' :: 'e' :: 'w' :: cs, flags := {} } := by
    unfold next
    rw [h.rest]
    rfl
  rw [hread]
  unfold readName Lexer.past
  simp only
  rw [hbound, hname, h.rest]
  have hkeyword : Token.keyword? (String.ofList ['n', 'e', 'w']) = some .newKeyword := by decide
  simp [finish, withFault, hkeyword]

theorem ready_ofText (text : List Char) : (Lexer.ofText text).Ready text := by
  refine ⟨rfl, rfl, ?_⟩
  show 0 + text.length ≤ Text.byteLength text
  induction text with
  | nil => exact Nat.le_refl _
  | cons c cs ih =>
      have hpos := Char.utf8Size_pos c
      simp only [List.length_cons, Text.byteLength_cons]
      omega

end FlowErasure.Lexer
