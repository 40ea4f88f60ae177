import FlowErasure.Layout.Writer
import FlowErasure.Proofs.Text.Positions

/-!
# Mappings that trace the characters of a text

A spot is a character of the generated text that was copied from a source, given by its two positions.
Mappings trace spots if every mapping is at one of them and following the last mapping before a spot
leads to where it comes from. A writer that copies a text goes over it character by character: on a
line the last mapping goes on to lead to the next character, and at the start of a line there is a new
one.
-/

namespace FlowErasure

open Text

abbrev Spot := Position × Position

def Mapping.Leads (m : Mapping) (spot : Spot) : Prop :=
  spot.2.line = m.origin.line ∧
    spot.2.column = m.origin.column + (spot.1.column - m.generated.column)

namespace SourceMap

def reaches (p : Position) (m : Mapping) : Bool :=
  m.generated.line == p.line && m.generated.column ≤ p.column

def lookup (ms : List Mapping) (p : Position) : Option Mapping :=
  (ms.filter (reaches p)).getLast?

/-- The mappings are at spots, in order, and lead from every spot to where it comes from. -/
structure Traces (source : Nat) (ms : List Mapping) (spots : List Spot) : Prop where
  ordered : ms.Pairwise fun m m' => m.generated.Before m'.generated
  marks : ∀ m ∈ ms, m.source = source ∧ (m.generated, m.origin) ∈ spots
  leads : ∀ spot ∈ spots, ∃ m, lookup ms spot.1 = some m ∧ m.Leads spot

theorem reaches_self (m : Mapping) : reaches m.generated m := by
  simp [reaches]

theorem reaches_of_before {p : Position} {m : Mapping} (h : p.Before m.generated) :
    reaches p m = false := by
  unfold Position.Before at h
  simp only [reaches, Bool.and_eq_false_imp, beq_iff_eq, decide_eq_false_iff_not]
  omega

theorem lookup_append_of_before {ms : List Mapping} {m : Mapping} {p : Position}
    (h : p.Before m.generated) : lookup (ms ++ [m]) p = lookup ms p := by
  simp [lookup, reaches_of_before h]

theorem lookup_append_self (ms : List Mapping) (m : Mapping) :
    lookup (ms ++ [m]) m.generated = some m := by
  simp [lookup, reaches_self]

namespace Traces

variable {source : Nat} {ms : List Mapping} {spots : List Spot} {g o : Position}

theorem nil (source : Nat) : Traces source [] [] where
  ordered := .nil
  marks := by simp
  leads := by simp

theorem mark (h : Traces source ms spots) (hbelow : ∀ spot ∈ spots, spot.1.Before g) :
    Traces source (ms ++ [⟨g, source, o⟩]) (spots ++ [(g, o)]) where
  ordered := by
    refine List.pairwise_append.mpr ⟨h.ordered, List.pairwise_singleton _ _, fun m hm m' hm' => ?_⟩
    obtain rfl := List.mem_singleton.mp hm'
    exact hbelow _ (h.marks m hm).2
  marks m hm := by
    rcases List.mem_append.mp hm with hm | hm
    · exact ⟨(h.marks m hm).1, List.mem_append_left _ (h.marks m hm).2⟩
    · obtain rfl := List.mem_singleton.mp hm
      exact ⟨rfl, by simp⟩
  leads spot hspot := by
    rcases List.mem_append.mp hspot with hspot | hspot
    · rw [lookup_append_of_before (hbelow spot hspot)]
      exact h.leads spot hspot
    · obtain rfl := List.mem_singleton.mp hspot
      exact ⟨_, lookup_append_self ms ⟨g, source, o⟩, rfl, by simp⟩

/-- Further on in a line, before the next mapping, the last mapping traces the next spot too. -/
theorem go (h : Traces source ms (spots ++ [(g, o)])) (hbelow : ∀ spot ∈ spots, spot.1.Before g)
    (units : Nat) :
    Traces source ms
      (spots ++ [(g, o)] ++ [(⟨g.line, g.column + units⟩, ⟨o.line, o.column + units⟩)]) where
  ordered := h.ordered
  marks m hm := ⟨(h.marks m hm).1, List.mem_append_left _ (h.marks m hm).2⟩
  leads spot hspot := by
    rcases List.mem_append.mp hspot with hspot | hspot
    · exact h.leads spot hspot
    · obtain rfl := List.mem_singleton.mp hspot
      obtain ⟨m, hlookup, hline, hcolumn⟩ := h.leads (g, o) (by simp)
      have hsame : ms.filter (reaches ⟨g.line, g.column + units⟩) = ms.filter (reaches g) := by
        refine List.filter_congr fun m hm => ?_
        have hle : m.generated.Before g ∨ m.generated = g := by
          rcases List.mem_append.mp (h.marks m hm).2 with hspot | hspot
          · exact .inl (hbelow _ hspot)
          · exact .inr (Prod.mk.inj (List.mem_singleton.mp hspot)).1
        rcases hle with hle | rfl
        · unfold Position.Before at hle
          rw [Bool.eq_iff_iff]
          simp only [reaches, Bool.and_eq_true, beq_iff_eq, decide_eq_true_eq]
          omega
        · simp [reaches]
      have hreaches : reaches g m := (List.mem_filter.mp (List.mem_of_getLast? hlookup)).2
      refine ⟨m, ?_, hline, ?_⟩
      · rw [lookup, hsame]
        exact hlookup
      · simp only [reaches, Bool.and_eq_true, decide_eq_true_eq] at hreaches
        simp only at hcolumn ⊢
        omega

end Traces

theorem mappings_record {recorder : Recorder} {m : Mapping}
    (h : ∀ m' ∈ recorder.mappings, m'.generated ≠ m.generated) :
    (recorder.record m).mappings = recorder.mappings ++ [m] := by
  unfold Recorder.record
  split
  · rename_i previous earlier hlatest
    have hne : previous.generated ≠ m.generated := h previous (by simp [Recorder.mappings, hlatest])
    simp [hne, Recorder.mappings, hlatest]
  · rename_i hlatest
    simp [Recorder.mappings, hlatest]

theorem sources_record (recorder : Recorder) (m : Mapping) :
    (recorder.record m).sources = recorder.sources := by
  unfold Recorder.record
  split
  · split <;> rfl
  · rfl

end SourceMap

namespace Writer

open SourceMap

def Records (w : Writer) (name : String) (spots : List Spot) : Prop :=
  ∃ recorder, w.recorder = some recorder ∧ recorder.sources = [name] ∧ w.source = 0 ∧
    Traces 0 recorder.mappings spots

/-- Moving over a text, one character at a time: that a line ends in two characters makes no
difference to where the next one starts. -/
theorem advance_cons (w : Writer) (origin : Option Position) (c : Char) (cs : List Char) :
    w.advance origin (c :: cs) =
      if breaks c cs.head? then
        (w.endLine origin !cs.isEmpty).1.advance (w.endLine origin !cs.isEmpty).2 cs
      else
        { w with position := ⟨w.position.line, w.position.column + units c⟩ }.advance origin cs := by
  by_cases hpair : c = '\r' ∧ cs.head? = some '\n'
  · obtain ⟨rfl, hhead⟩ := hpair
    obtain ⟨ds, rfl⟩ := List.head?_eq_some_iff.mp hhead
    rfl
  · have hsingle : w.advance origin (c :: cs) =
        if isLineBreak c then
          (w.endLine origin !cs.isEmpty).1.advance (w.endLine origin !cs.isEmpty).2 cs
        else
          { w with position := ⟨w.position.line, w.position.column + units c⟩ }.advance origin
            cs := by
      rw [advance]
      rintro ds rfl rfl
      exact hpair ⟨rfl, rfl⟩
    rw [hsingle, breaks_of_not_pair hpair]

@[simp] theorem position_mapTo (w : Writer) (origin : Option Position) :
    (w.mapTo origin).position = w.position := by
  cases origin <;> rfl

theorem position_endLine (w : Writer) (origin : Option Position) (more : Bool) :
    (w.endLine origin more).1.position = ⟨w.position.line + 1, 0⟩ := by
  unfold endLine
  simp only
  split
  · rw [position_mapTo]
  · rfl

theorem position_advance (w : Writer) (origin : Option Position) (cs : List Char) :
    (w.advance origin cs).position = w.position.along cs [] := by
  induction cs generalizing w origin with
  | nil => rfl
  | cons c cs ih =>
      rw [advance_cons, Position.along, Position.step, List.append_nil]
      split
      · rw [ih, position_endLine]
      · rw [ih]

theorem recorder_advance_none (w : Writer) (cs : List Char) :
    (w.advance none cs).recorder = w.recorder ∧ (w.advance none cs).source = w.source := by
  induction cs generalizing w with
  | nil => exact ⟨rfl, rfl⟩
  | cons c cs ih =>
      rw [advance_cons]
      split
      · have hend : (w.endLine none !cs.isEmpty) =
            ({ w with position := ⟨w.position.line + 1, 0⟩ }, none) := by
          unfold endLine
          cases cs.isEmpty <;> rfl
        rw [hend]
        exact ih _
      · exact ih _

/-- Recording a mapping at the current position, beyond all spots so far. -/
theorem Records.mapTo {w : Writer} {name : String} {spots : List Spot} (h : w.Records name spots)
    (hbelow : ∀ spot ∈ spots, spot.1.Before w.position) (origin : Position) :
    (w.mapTo (some origin)).Records name (spots ++ [(w.position, origin)]) := by
  obtain ⟨recorder, hrecorder, hsources, hsource, htraces⟩ := h
  refine ⟨recorder.record ⟨w.position, 0, origin⟩, ?_, ?_, hsource, ?_⟩
  · simp [Writer.mapTo, hrecorder, hsource]
  · rw [sources_record, hsources]
  · rw [mappings_record fun m hm => (hbelow _ (htraces.marks m hm).2).ne]
    exact htraces.mark hbelow

/-- Moving over a copied text whose first character is a spot already makes all its characters
spots. The writer's own origin is at the start of the line, so only its line counts. -/
theorem records_advance {w : Writer} {name : String} {spots : List Spot} {origin o : Position}
    {c : Char} {cs : List Char} (h : w.Records name (spots ++ [(w.position, o)]))
    (hbelow : ∀ spot ∈ spots, spot.1.Before w.position) (horigin : origin.line = o.line) :
    (w.advance (some origin) (c :: cs)).Records name
      (spots ++ (w.position.track (c :: cs)).zip (o.track (c :: cs))) := by
  induction cs generalizing w spots origin o c with
  | nil =>
      rw [advance_cons]
      split
      · exact h
      · exact h
  | cons d cs ih =>
      have hbelow' : ∀ next : Position, w.position.Before next →
          ∀ spot ∈ spots ++ [(w.position, o)], spot.1.Before next := by
        intro next hnext spot hspot
        rcases List.mem_append.mp hspot with hspot | hspot
        · exact (hbelow spot hspot).trans hnext
        · obtain rfl := List.mem_singleton.mp hspot
          exact hnext
      have hspots : spots ++ (w.position.track (c :: d :: cs)).zip (o.track (c :: d :: cs)) =
          spots ++ [(w.position, o)] ++
            ((w.position.step c (some d)).track (d :: cs)).zip
              ((o.step c (some d)).track (d :: cs)) := by
        rw [List.append_assoc]
        rfl
      have hbefore := Position.before_step w.position c (some d)
      rw [advance_cons, hspots]
      by_cases hbreaks : breaks c (some d)
      · have hstep : ∀ p : Position, p.step c (some d) = ⟨p.line + 1, 0⟩ := fun p => if_pos hbreaks
        rw [hstep] at hbefore
        rw [List.head?_cons, if_pos hbreaks, hstep, hstep]
        have hnext : ({ w with position := ⟨w.position.line + 1, 0⟩ } : Writer).Records name
            (spots ++ [(w.position, o)]) := h
        have hend : w.endLine (some origin) (!(d :: cs).isEmpty) =
            ({ w with position := ⟨w.position.line + 1, 0⟩ }.mapTo (some ⟨o.line + 1, 0⟩),
              some ⟨o.line + 1, 0⟩) := by
          rw [← horigin]
          rfl
        rw [hend]
        exact ih (hnext.mapTo (hbelow' _ hbefore) ⟨o.line + 1, 0⟩) (hbelow' _ hbefore) rfl
      · have hstep : ∀ p : Position, p.step c (some d) = ⟨p.line, p.column + units c⟩ :=
          fun p => if_neg hbreaks
        rw [hstep] at hbefore
        rw [List.head?_cons, if_neg hbreaks, hstep, hstep]
        obtain ⟨recorder, hrecorder, hsources, hsource, htraces⟩ := h
        refine ih ⟨recorder, hrecorder, hsources, hsource, ?_⟩ (hbelow' _ hbefore) horigin
        exact htraces.go hbelow (units c)

/-! ## Writing -/

@[simp] theorem output_write (w : Writer) (cs : List Char) (origin : Option Position) :
    (w.write cs origin).output = w.output ++ cs := by
  unfold write
  cases cs with
  | nil => simp
  | cons c cs => simp [output]

theorem lastChar?_eq (w : Writer) : w.lastChar? = w.output.getLast? := by
  simp [lastChar?, output]

/-- Unless a line end is divided, all that is written moves the position. -/
theorem advancing_eq {w : Writer} {cs : List Char} (h : ¬Divides w.output cs) :
    w.advancing cs = cs := by
  unfold advancing
  split
  · rename_i rest hlast
    exact absurd ⟨w.lastChar?_eq ▸ hlast, rfl⟩ h
  · rfl

section

variable {w : Writer} {cs : List Char}

theorem position_write (h : ¬Divides w.output cs) (origin : Option Position) :
    (w.write cs origin).position = w.position.along cs [] := by
  unfold write
  cases cs with
  | nil => rfl
  | cons c cs =>
      simp only [List.isEmpty_cons, Bool.false_eq_true, if_false]
      rw [position_advance, position_mapTo, advancing_eq h]

theorem Records.write_none {name : String} {spots : List Spot} (h : w.Records name spots)
    (cs : List Char) : (w.write cs none).Records name spots := by
  unfold write
  cases cs with
  | nil => exact h
  | cons c cs =>
      obtain ⟨hrecorder, hsource⟩ := recorder_advance_none w (w.advancing (c :: cs))
      obtain ⟨recorder, hsome, hsources, hzero, htraces⟩ := h
      exact ⟨recorder, hrecorder.trans hsome, hsources, hsource.trans hzero, htraces⟩

theorem Records.write_copied {name : String} {spots : List Spot} (h : w.Records name spots)
    (hbelow : ∀ spot ∈ spots, spot.1.Before w.position) (hdivides : ¬Divides w.output cs)
    (origin : Position) :
    (w.write cs (some origin)).Records name
      (spots ++ (w.position.track cs).zip (origin.track cs)) := by
  unfold write
  cases cs with
  | nil => simpa [Position.track] using h
  | cons c cs =>
      have hmapped := h.mapTo hbelow origin
      have hposition := position_mapTo w (some origin)
      rw [← hposition] at hmapped hbelow
      have hadvanced := @records_advance _ _ _ origin origin c cs hmapped hbelow rfl
      rw [hposition] at hadvanced
      simp only [List.isEmpty_cons, Bool.false_eq_true, if_false]
      rw [advancing_eq hdivides]
      exact hadvanced

end

end Writer

end FlowErasure
