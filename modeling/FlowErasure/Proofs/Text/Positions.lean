import FlowErasure.Proofs.Text.Offset
import FlowErasure.Text.Lines

/-!
# Positions along a text

The position of an offset is looked up in a table of line starts. It can also be found by going over
the text one character after the other, which needs to know the next character only where a line may
end in two.
-/

namespace FlowErasure

namespace Text

/-- A line ends after `c`, if `next` comes after it. -/
def breaks (c : Char) (next : Option Char) : Bool :=
  isLineBreak c && !(c == '\r' && next == some '\n')

def offsetsFrom (offset : Nat) : List Char → List Nat
  | [] => []
  | c :: cs => offset :: offsetsFrom (offset + c.utf8Size) cs

theorem offsetsFrom_append (offset : Nat) (as bs : List Char) :
    offsetsFrom offset (as ++ bs) =
      offsetsFrom offset as ++ offsetsFrom (offset + byteLength as) bs := by
  induction as generalizing offset with
  | nil => rfl
  | cons a as ih => simp [offsetsFrom, ih, Nat.add_assoc]

@[simp] theorem length_offsetsFrom (offset : Nat) (cs : List Char) :
    (offsetsFrom offset cs).length = cs.length := by
  induction cs generalizing offset with
  | nil => rfl
  | cons c cs ih => simp [offsetsFrom, ih]

theorem le_of_mem_offsetsFrom {offset x : Nat} {cs : List Char} (h : x ∈ offsetsFrom offset cs) :
    offset ≤ x := by
  induction cs generalizing offset with
  | nil => simp [offsetsFrom] at h
  | cons c cs ih =>
      rcases List.mem_cons.mp h with rfl | h
      · exact Nat.le_refl _
      · have := ih h
        omega

theorem nodup_offsetsFrom (offset : Nat) (cs : List Char) : (offsetsFrom offset cs).Nodup := by
  induction cs generalizing offset with
  | nil => exact .nil
  | cons c cs ih =>
      refine List.nodup_cons.mpr ⟨fun hmem => ?_, ih _⟩
      have hle := le_of_mem_offsetsFrom hmem
      have hpos := c.utf8Size_pos
      omega

theorem units_pos (c : Char) : 0 < units c := by
  unfold units
  split <;> decide

theorem units_le (c : Char) : units c ≤ c.utf8Size := by
  have hpos := c.utf8Size_pos
  unfold units
  split
  · exact hpos
  · rename_i h
    have hval : 0x10000 ≤ c.val.toNat := Nat.le_of_not_lt h
    unfold Char.utf8Size
    simp only
    split
    · rename_i hle
      have : c.val.toNat ≤ 0x7f := hle
      omega
    · split
      · decide
      · split <;> decide

/-- Only the first of the two characters of a line end does not end the line. -/
theorem breaks_of_not_pair {c : Char} {cs : List Char} (h : ¬(c = '\r' ∧ cs.head? = some '\n')) :
    breaks c cs.head? = isLineBreak c := by
  simp only [breaks, Bool.and_eq_left_iff_imp, Bool.not_eq_true', Bool.and_eq_false_imp,
    beq_iff_eq, beq_eq_false_iff_ne]
  exact fun _ hc hhead => h ⟨hc, hhead⟩

/-- The line starts of a text, one character at a time: the second character of a line end ends a line
also by itself. -/
theorem lineStartsFrom_cons (offset : Nat) (c : Char) (cs : List Char) :
    lineStartsFrom offset (c :: cs) =
      (if breaks c cs.head? then [offset + c.utf8Size] else []) ++
        lineStartsFrom (offset + c.utf8Size) cs := by
  by_cases hpair : c = '\r' ∧ cs.head? = some '\n'
  · obtain ⟨rfl, hhead⟩ := hpair
    obtain ⟨ds, rfl⟩ := List.head?_eq_some_iff.mp hhead
    rfl
  · have hsingle : lineStartsFrom offset (c :: cs) =
        if isLineBreak c then (offset + c.utf8Size) :: lineStartsFrom (offset + c.utf8Size) cs
        else lineStartsFrom (offset + c.utf8Size) cs := by
      rw [lineStartsFrom]
      rintro ds rfl rfl
      exact hpair ⟨rfl, rfl⟩
    rw [hsingle, breaks_of_not_pair hpair]
    split <;> rfl

theorem lt_of_mem_lineStartsFrom {offset start : Nat} {cs : List Char}
    (h : start ∈ lineStartsFrom offset cs) : offset < start := by
  induction cs generalizing offset with
  | nil => simp [lineStartsFrom] at h
  | cons c cs ih =>
      have hpos := c.utf8Size_pos
      rw [lineStartsFrom_cons] at h
      rcases List.mem_append.mp h with h | h
      · split at h
        · obtain rfl := List.mem_singleton.mp h
          omega
        · simp at h
      · have := ih h
        omega

end Text

open Text

namespace Position

def step (p : Position) (c : Char) (next : Option Char) : Position :=
  if breaks c next then ⟨p.line + 1, 0⟩ else ⟨p.line, p.column + units c⟩

def along (p : Position) : List Char → List Char → Position
  | [], _ => p
  | c :: cs, rest => (p.step c (cs ++ rest).head?).along cs rest

def track (p : Position) : List Char → List Position
  | [] => []
  | c :: cs => p :: (p.step c cs.head?).track cs

def Before (p q : Position) : Prop :=
  p.line < q.line ∨ p.line = q.line ∧ p.column < q.column

theorem Before.trans {p q r : Position} (h : p.Before q) (h' : q.Before r) : p.Before r := by
  unfold Before at *
  omega

theorem Before.ne {p q : Position} (h : p.Before q) : p ≠ q := by
  rintro rfl
  unfold Before at h
  omega

theorem before_step (p : Position) (c : Char) (next : Option Char) : p.Before (p.step c next) := by
  have hpos := units_pos c
  unfold step Before
  split
  · exact .inl (Nat.lt_succ_self _)
  · exact .inr ⟨rfl, Nat.lt_add_of_pos_right hpos⟩

theorem along_append (p : Position) (as bs rest : List Char) :
    p.along (as ++ bs) rest = (p.along as (bs ++ rest)).along bs rest := by
  induction as generalizing p with
  | nil => rfl
  | cons a as ih => simp only [List.cons_append, along, ih, List.append_assoc]

theorem before_along_cons (p : Position) (c : Char) (cs rest : List Char) :
    p.Before (p.along (c :: cs) rest) := by
  induction cs generalizing p c with
  | nil => exact before_step _ _ _
  | cons d cs ih => exact (before_step _ _ _).trans (ih _ d)

theorem before_along {p q : Position} {cs : List Char} (h : q ∈ p.track cs) :
    q.Before (p.along cs []) := by
  induction cs generalizing p with
  | nil => simp [track] at h
  | cons c cs ih =>
      rcases List.mem_cons.mp h with rfl | h
      · exact before_along_cons _ _ _ _
      · rw [along, List.append_nil]
        exact ih h

/-- What comes after a text matters only if it goes on with a line end that has begun. -/
theorem along_of_not_divides {as bs : List Char} (h : ¬Divides as bs) (p : Position) :
    p.along as bs = p.along as [] := by
  induction as generalizing p with
  | nil => rfl
  | cons a as ih =>
      cases as with
      | nil =>
          have hbreaks : breaks a bs.head? = breaks a none := by
            by_cases ha : a = '\r'
            · have hhead : bs.head? ≠ some '\n' := fun hhead => h ⟨by rw [ha]; rfl, hhead⟩
              simp [breaks, hhead]
            · simp [breaks, ha]
          simp [along, step, hbreaks]
      | cons a' as =>
          have hrest : ¬Divides (a' :: as) bs := by
            rwa [← List.singleton_append, divides_append_left (by simp)] at h
          exact ih hrest _

theorem along_le (p : Position) (as bs : List Char) :
    (p.along as bs).line + (p.along as bs).column ≤ p.line + p.column + byteLength as := by
  induction as generalizing p with
  | nil => exact Nat.le_refl _
  | cons a as ih =>
      have hstep := ih (p.step a (as ++ bs).head?)
      have hpos := a.utf8Size_pos
      have hunits := units_le a
      have hbound : (p.step a (as ++ bs).head?).line + (p.step a (as ++ bs).head?).column ≤
          p.line + p.column + a.utf8Size := by
        unfold step
        split <;> simp only <;> omega
      simp only [along, byteLength_cons]
      omega

end Position

namespace Lines

/-- The line starts up to an offset: those in `front`, one of each line before, and the one of the
line itself. -/
private theorem lineOf_eq {lines : Lines} {front back : List Nat} {start offset : Nat}
    (hstarts : lines.starts = front ++ start :: back) (hfront : ∀ x ∈ front, x ≤ offset)
    (hstart : start ≤ offset) (hback : ∀ x ∈ back, offset < x) :
    lines.lineOf offset = front.length := by
  have hnone : back.takeWhile (· ≤ offset) = [] := by
    cases back with
    | nil => rfl
    | cons x back =>
        have := hback x List.mem_cons_self
        simp [this]
  rw [lineOf, hstarts, List.takeWhile_append_of_pos fun x hx => by simpa using hfront x hx]
  simp [hstart, hnone]

/-- The table of line starts gives the same position as going over the text. The part of the text
before the current line is `done`, and `current` is the part of this line that has been passed. -/
private theorem position_of_starts {done current pre rest : List Char} {front : List Nat}
    (hstarts : (ofText (done ++ current ++ pre ++ rest)).starts =
      front ++ byteLength done ::
        lineStartsFrom (byteLength (done ++ current)) (pre ++ rest))
    (hfront : ∀ x ∈ front, x ≤ byteLength done) :
    (ofText (done ++ current ++ pre ++ rest)).position (byteLength (done ++ current ++ pre)) =
      Position.along ⟨front.length, unitLength current⟩ pre rest := by
  induction pre generalizing done current front with
  | nil =>
      simp only [List.append_nil, List.nil_append] at hstarts ⊢
      have hoffset : min (byteLength (done ++ current)) (ofText (done ++ current ++ rest)).size =
          byteLength (done ++ current) := by
        simp [ofText]
      have hline : (ofText (done ++ current ++ rest)).lineOf (byteLength (done ++ current)) =
          front.length := by
        refine lineOf_eq hstarts (fun x hx => ?_) (by simp) fun x hx => lt_of_mem_lineStartsFrom hx
        have := hfront x hx
        simp only [byteLength_append]
        omega
      have hstart : (ofText (done ++ current ++ rest)).start? front.length =
          some (byteLength done) := by
        rw [start?, hstarts]
        simp
      have hdrop : drop? (ofText (done ++ current ++ rest)).text (byteLength done) =
          some (current ++ rest) := by
        simp only [ofText, List.append_assoc]
        exact drop?_append done (current ++ rest)
      have hcurrent : byteLength (done ++ current) - byteLength done = byteLength current := by
        simp
      simp only [position, hoffset, hline, hstart, Option.getD_some, hdrop, Option.bind_some,
        hcurrent, unitsBefore?_eq, take?_append, Option.map_some, Position.along]
  | cons c pre ih =>
      have htext : done ++ current ++ c :: pre ++ rest = done ++ (current ++ [c]) ++ pre ++ rest := by
        simp
      have hoffset : byteLength (done ++ current ++ c :: pre) =
          byteLength (done ++ (current ++ [c]) ++ pre) := by
        simp
      have hsize : byteLength (done ++ current) + c.utf8Size =
          byteLength (done ++ (current ++ [c])) := by
        simp [Nat.add_assoc]
      rw [List.cons_append, lineStartsFrom_cons, hsize, htext] at hstarts
      rw [htext, hoffset, Position.along, Position.step]
      by_cases hbreaks : breaks c (pre ++ rest).head?
      · rw [if_pos hbreaks] at hstarts ⊢
        have hnew := @ih (done ++ (current ++ [c])) [] (front ++ [byteLength done])
        simp only [List.append_nil] at hnew
        rw [hnew]
        · simp
        · simpa using hstarts
        · intro x hx
          rcases List.mem_append.mp hx with hx | hx
          · have := hfront x hx
            simp only [byteLength_append]
            omega
          · obtain rfl := List.mem_singleton.mp hx
            simp
      · rw [if_neg hbreaks] at hstarts ⊢
        rw [ih hstarts hfront]
        simp

/-- The position of an offset is where going over the text before it leads. -/
theorem position_append (pre rest : List Char) :
    (ofText (pre ++ rest)).position (byteLength pre) = Position.along ⟨0, 0⟩ pre rest := by
  have hstarts : (ofText ([] ++ [] ++ pre ++ rest)).starts =
      [] ++ byteLength [] :: lineStartsFrom (byteLength ([] ++ [])) (pre ++ rest) := rfl
  exact position_of_starts hstarts (by simp)

theorem map_position_offsetsFrom (pre cs rest : List Char) :
    (offsetsFrom (byteLength pre) cs).map (ofText (pre ++ cs ++ rest)).position =
      Position.track (Position.along ⟨0, 0⟩ pre (cs ++ rest)) cs := by
  induction cs generalizing pre with
  | nil => rfl
  | cons c cs ih =>
      have hnext := ih (pre ++ [c])
      have htext : pre ++ [c] ++ cs ++ rest = pre ++ c :: cs ++ rest := by simp
      have hsize : byteLength (pre ++ [c]) = byteLength pre + c.utf8Size := by simp
      have hstep : Position.along ⟨0, 0⟩ (pre ++ [c]) (cs ++ rest) =
          (Position.along ⟨0, 0⟩ pre (c :: cs ++ rest)).step c (cs ++ rest).head? :=
        Position.along_append _ _ _ _
      rw [htext, hsize, hstep] at hnext
      rw [offsetsFrom, List.map_cons, hnext, List.append_assoc, position_append, Position.track]
      cases cs <;> rfl

end Lines

end FlowErasure
