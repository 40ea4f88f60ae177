import FlowErasure.Proofs.Layout.Cuts
import FlowErasure.Proofs.SourceMap.Tracing

/-!
# Texts written one after the other

A layout writes parts of its source and separators between them. Where no write goes on with a line
end that the one before it has begun, the mappings that are recorded on the way trace every character
that was copied.
-/

namespace FlowErasure

namespace Layout

open Text

def copiesFrom (out offset : Nat) (cs : List Char) : List (Nat × Nat) :=
  (offsetsFrom out cs).zip (offsetsFrom offset cs)

theorem mem_copiesFrom {out offset p o : Nat} {cs : List Char} :
    (p, o) ∈ copiesFrom out offset cs ↔
      ∃ as c bs, cs = as ++ c :: bs ∧ p = out + byteLength as ∧ o = offset + byteLength as := by
  induction cs generalizing out offset with
  | nil => simp [copiesFrom, offsetsFrom]
  | cons d cs ih =>
      have hcons : copiesFrom out offset (d :: cs) =
          (out, offset) :: copiesFrom (out + d.utf8Size) (offset + d.utf8Size) cs := rfl
      rw [hcons, List.mem_cons, ih]
      constructor
      · rintro (heq | ⟨as, c, bs, rfl, rfl, rfl⟩)
        · obtain ⟨rfl, rfl⟩ := Prod.mk.inj heq
          exact ⟨[], d, cs, rfl, rfl, rfl⟩
        · exact ⟨d :: as, c, bs, rfl, by simp [Nat.add_assoc], by simp [Nat.add_assoc]⟩
      · rintro ⟨as, c, bs, hcs, rfl, rfl⟩
        cases as with
        | nil => exact .inl rfl
        | cons a as =>
            obtain ⟨rfl, rfl⟩ := List.cons.inj hcs
            exact .inr ⟨as, c, bs, rfl, by simp [Nat.add_assoc], by simp [Nat.add_assoc]⟩

theorem copiesFrom_append (out offset : Nat) (as bs : List Char) :
    copiesFrom out offset (as ++ bs) =
      copiesFrom out offset as ++ copiesFrom (out + byteLength as) (offset + byteLength as) bs := by
  simp only [copiesFrom, offsetsFrom_append]
  exact List.zip_append (by simp)

/-- A text that is written, with its offset in the source if it was copied from there. -/
structure Write where
  text : List Char
  offset : Option Nat

namespace Write

def separator (c : Char) : Write :=
  ⟨[c], none⟩

/-- What is written is a separator or a part of the source that does not end inside a line end. -/
inductive Sound (text : List Char) : Write → Prop
  | separator {c : Char} (h : c = ' ' ∨ c = ';') : Sound text (.separator c)
  | copied {a b : Nat} {cs : List Char} (h : Between text a cs b) (hne : cs ≠ [])
    (hseam : Seam text b) : Sound text ⟨cs, some a⟩

def copied (out : Nat) (write : Write) : List (Nat × Nat) :=
  match write.offset with
  | some offset => copiesFrom out offset write.text
  | none => []

/-- Offsets of the characters that are copied to the output from `out` on. -/
def copies (out : Nat) : List Write → List (Nat × Nat)
  | [] => []
  | write :: writes => write.copied out ++ copies (out + byteLength write.text) writes

theorem copies_append (out : Nat) (writes writes' : List Write) :
    copies out (writes ++ writes') =
      copies out writes ++ copies (out + byteLength (writes.flatMap Write.text)) writes' := by
  induction writes generalizing out with
  | nil => rfl
  | cons write writes ih => simp [copies, ih, Nat.add_assoc]

@[simp] theorem flatMap_separators (cs : List Char) :
    (cs.map separator).flatMap Write.text = cs := by
  induction cs with
  | nil => rfl
  | cons c cs ih => simp [separator, ih]

theorem copies_separators (out : Nat) (cs : List Char) (writes : List Write) :
    copies out (cs.map separator ++ writes) = copies (out + byteLength cs) writes := by
  induction cs generalizing out with
  | nil => rfl
  | cons c cs ih => simp [copies, separator, copied, ih, Nat.add_assoc]

theorem mem_copies {out : Nat} {writes : List Write} {copy : Nat × Nat} :
    copy ∈ copies out writes ↔ ∃ front a cs back, writes = front ++ ⟨cs, some a⟩ :: back ∧
      copy ∈ copiesFrom (out + byteLength (front.flatMap Write.text)) a cs := by
  constructor
  · intro h
    induction writes generalizing out with
    | nil => simp [copies] at h
    | cons write writes ih =>
        obtain ⟨cs, offset⟩ := write
        rcases List.mem_append.mp h with h | h
        · cases offset with
          | none => simp [copied] at h
          | some a => exact ⟨[], a, cs, writes, rfl, h⟩
        · obtain ⟨front, a, ds, back, rfl, hcopy⟩ := ih h
          exact ⟨⟨cs, offset⟩ :: front, a, ds, back, rfl, by simpa [Nat.add_assoc] using hcopy⟩
  · rintro ⟨front, a, cs, back, rfl, h⟩
    rw [copies_append]
    exact List.mem_append_right _ (List.mem_append_left _ h)

theorem nodup_copies (out : Nat) (writes : List Write) :
    ((copies out writes).map Prod.fst).Nodup := by
  have hsublist : ((copies out writes).map Prod.fst).Sublist
      (offsetsFrom out (writes.flatMap Write.text)) := by
    induction writes generalizing out with
    | nil => exact .refl _
    | cons write writes ih =>
        obtain ⟨cs, offset⟩ := write
        rw [copies, List.map_append, List.flatMap_cons, offsetsFrom_append]
        refine List.Sublist.append ?_ (ih _)
        cases offset with
        | none => exact List.nil_sublist _
        | some a =>
            have hfst : (copiesFrom out a cs).map Prod.fst = offsetsFrom out cs :=
              List.map_fst_zip (by simp)
            rw [copied, hfst]
  exact hsublist.nodup (nodup_offsetsFrom _ _)

theorem Sound.ne_nil {text : List Char} {write : Write} (h : write.Sound text) : write.text ≠ [] := by
  cases h with
  | @separator c _ => exact List.cons_ne_nil c []
  | copied _ hne _ => exact hne

theorem Sound.between {text cs : List Char} {a : Nat} (h : Sound text ⟨cs, some a⟩) :
    Between text a cs (a + byteLength cs) ∧ Seam text (a + byteLength cs) := by
  cases h with
  | copied h _ hseam =>
      obtain ⟨rest, hat, rfl⟩ := h
      exact ⟨⟨rest, hat, rfl⟩, hseam⟩

end Write

end Layout

open Text Layout

def Writer.writeAll (lines : Lines) (w : Writer) (writes : List Write) : Writer :=
  writes.foldl (fun w write => w.write write.text (write.offset.map lines.position)) w

def spotOf (code text : List Char) : Nat × Nat → Spot :=
  Prod.map (Lines.ofText code).position (Lines.ofText text).position

namespace Writer

theorem writeAll_append (lines : Lines) (w : Writer) (writes writes' : List Write) :
    w.writeAll lines (writes ++ writes') = (w.writeAll lines writes).writeAll lines writes' :=
  List.foldl_append

@[simp] theorem output_writeAll (lines : Lines) (w : Writer) (writes : List Write) :
    (w.writeAll lines writes).output = w.output ++ writes.flatMap Write.text := by
  induction writes generalizing w with
  | nil => simp [writeAll]
  | cons write writes ih =>
      have hrest := ih (w.write write.text (write.offset.map lines.position))
      rw [output_write] at hrest
      rw [List.flatMap_cons, ← List.append_assoc, ← hrest]
      rfl

/-- No write goes on with a line end that has begun. -/
def Undivided (out : List Char) (writes : List Write) : Prop :=
  ∀ front write back, writes = front ++ write :: back →
    ¬Divides (out ++ front.flatMap Write.text) write.text

theorem Undivided.tail {out : List Char} {write : Write} {writes : List Write}
    (h : Undivided out (write :: writes)) : Undivided (out ++ write.text) writes := by
  rintro front next back rfl
  simpa using h (write :: front) next back rfl

theorem spots_eq {out cs back text : List Char} {a b : Nat} (h : Between text a cs b)
    (hdivides : ¬Divides out (cs ++ back)) :
    ((Position.along ⟨0, 0⟩ out []).track cs).zip
        (((Lines.ofText text).position a).track cs) =
      (copiesFrom (byteLength out) a cs).map (spotOf (out ++ cs ++ back) text) := by
  obtain ⟨rest, ⟨pre, rfl, rfl⟩, -⟩ := h
  have hout := Lines.map_position_offsetsFrom out cs back
  have hsource := Lines.map_position_offsetsFrom pre cs rest
  rw [Position.along_of_not_divides hdivides] at hout
  rw [← Lines.position_append, List.append_assoc] at hsource
  rw [← hout, ← hsource, List.zip_map, copiesFrom, spotOf]

/-- The mappings of a writer trace spots, all of them before its position, which is the one at the end
of what has been written. -/
structure Tracks (w : Writer) (name : String) (spots : List Spot) : Prop where
  records : w.Records name spots
  below : ∀ spot ∈ spots, spot.1.Before w.position
  position : w.position = Position.along ⟨0, 0⟩ w.output []

section

variable {text : List Char} {w : Writer} {name : String} {spots : List Spot}

theorem Tracks.write {write : Write} (h : w.Tracks name spots) (hsound : write.Sound text)
    (hdivides : ¬Divides w.output write.text) (back : List Char) :
    (w.write write.text (write.offset.map (Lines.ofText text).position)).Tracks name
      (spots ++ (write.copied (byteLength w.output)).map
        (spotOf (w.output ++ write.text ++ back) text)) := by
  have hposition : ∀ origin, (w.write write.text origin).position =
      Position.along ⟨0, 0⟩ (w.write write.text origin).output [] := by
    intro origin
    rw [position_write hdivides, output_write, Position.along_append, List.append_nil,
      Position.along_of_not_divides hdivides, h.position]
  have hbelow : ∀ origin, ∀ spot ∈ spots, spot.1.Before (w.write write.text origin).position := by
    intro origin spot hspot
    obtain ⟨c, cs, hcs⟩ := List.exists_cons_of_ne_nil hsound.ne_nil
    rw [position_write hdivides, hcs]
    exact (h.below spot hspot).trans (Position.before_along_cons _ _ _ _)
  cases hsound with
  | @separator c hc =>
      simp only [Write.copied, Write.separator, List.map_nil, List.append_nil]
      exact ⟨h.records.write_none [c], hbelow none, hposition none⟩
  | @copied a b cs hbetween hne hseam =>
      have hout : ¬Divides w.output (cs ++ back) := mt (divides_append_right hne).mp hdivides
      have hspots := spots_eq hbetween hout
      rw [← h.position] at hspots
      simp only [Write.copied]
      rw [← hspots]
      refine ⟨h.records.write_copied h.below hdivides _, fun spot hspot => ?_, hposition _⟩
      rcases List.mem_append.mp hspot with hspot | hspot
      · exact hbelow _ spot hspot
      · rw [position_write hdivides]
        exact Position.before_along (List.of_mem_zip hspot).1

/-- Texts that are written without dividing a line end leave mappings that trace all copies. -/
theorem Tracks.writeAll {writes : List Write} (h : w.Tracks name spots)
    (hsound : ∀ write ∈ writes, write.Sound text) (hundivided : Undivided w.output writes) :
    (w.writeAll (.ofText text) writes).Tracks name
      (spots ++ (Write.copies (byteLength w.output) writes).map
        (spotOf (w.output ++ writes.flatMap Write.text) text)) := by
  induction writes generalizing w spots with
  | nil => simpa [Writer.writeAll, Write.copies] using h
  | cons write writes ih =>
      have hdivides : ¬Divides w.output write.text := by
        simpa using hundivided [] write writes rfl
      have hnext := h.write (hsound write List.mem_cons_self) hdivides
        (writes.flatMap Write.text)
      have hundivided' : Undivided
          (w.write write.text (write.offset.map (Lines.ofText text).position)).output writes := by
        rw [output_write]
        exact hundivided.tail
      have hrest := ih hnext (fun x hx => hsound x (List.mem_cons_of_mem _ hx)) hundivided'
      rw [output_write, byteLength_append, List.append_assoc, ← List.map_append] at hrest
      rw [Writer.writeAll, List.foldl_cons, Write.copies, List.flatMap_cons, ← List.append_assoc]
      exact hrest

end

end Writer

end FlowErasure
