import Partwise.Proofs.Music.Overlap

/-!
# Music · Measures: parts begin and end outside of measures

Whether a measure is open is known from the moves alone. A document keeps to its measures
(`Element.keepsToMeasures`) if its notes and movements forward are made while one is open, and none
is entered while another one is. Then none is left but while one is open (`Element.leavesOpen`).
Nothing is said there of parts. But a measure is entered in a part, and a part inside of it could
not be left without leaving the outer one behind, so in a document that is read all parts begin and
end outside of measures
(`Document.partsOutside`). -/

namespace Partwise

open Markup

variable {settings : Settings} {r s t : Reading} {ms : List Moment}

/-! ## Open measures -/

/-- Whether a measure is open after a move. -/
def Move.opensMeasure (inside : Bool) : Move → Bool
  | enterMeasure _ => true
  | leaveMeasure _ => false
  | enterPart _ | leavePart _ | leavePartList _ | leaf _ => inside

/-- A condition on every move, which knows whether a measure is open before it. -/
def throughout (holds : Bool → Move → Bool) : Bool → List Move → Bool
  | _, [] => true
  | inside, m :: ms => holds inside m && throughout holds (m.opensMeasure inside) ms

/-- On one list of moves and then on another one. -/
theorem throughout_append (holds : Bool → Move → Bool) (inside : Bool) (as bs : List Move) :
    throughout holds inside (as ++ bs) =
      (throughout holds inside as && throughout holds (as.foldl Move.opensMeasure inside) bs) := by
  induction as generalizing inside with
  | nil => rfl
  | cons m as ih =>
    rw [List.cons_append, throughout, throughout, ih, Bool.and_assoc, List.foldl_cons]

/-- What holds throughout a measure that is entered holds of the move that enters it and of those
inside. -/
theorem of_throughout_within {holds : Bool → Move → Bool} {inside : Bool} {enter : Move}
    {as bs : List Move} (h : throughout holds inside (enter :: as ++ bs) = true) :
    holds inside enter = true ∧ throughout holds (enter.opensMeasure inside) as = true := by
  rw [List.cons_append, throughout, throughout_append, Bool.and_eq_true, Bool.and_eq_true] at h
  exact ⟨h.1, h.2.1⟩

/-- The element is a note or a movement forward. -/
def Markup.Element.isFilling (e : Element) : Bool :=
  e.name == "note" || e.name == "forward"

/-- A note or movement forward is made in a measure, and a measure is entered outside of others. -/
def Move.keepsToMeasure (inside : Bool) : Move → Bool
  | enterMeasure _ => !inside
  | leaf e => inside || !e.isFilling
  | leaveMeasure _ | enterPart _ | leavePart _ | leavePartList _ => true

/-- The document has all notes and movements forward inside of measures, and no measure inside of
another one. -/
def Markup.Element.keepsToMeasures (root : Element) : Bool :=
  throughout Move.keepsToMeasure false (movesOf root)

/-- A part begins and ends outside of measures. -/
def Move.partOutside (inside : Bool) : Move → Bool
  | enterPart _ | leavePart _ => !inside
  | enterMeasure _ | leaveMeasure _ | leavePartList _ | leaf _ => true

/-! ## Where measures are left -/

/-- A measure is left where one is open. -/
def Move.leavesOpen (inside : Bool) : Move → Bool
  | leaveMeasure _ => inside
  | enterPart _ | leavePart _ | enterMeasure _ | leavePartList _ | leaf _ => true

/-- Some moves meet a condition, and they leave no measure open and close none. -/
structure Encloses (holds : Bool → Move → Bool) (inside : Bool) (ms : List Move) : Prop where
  meets : throughout holds inside ms = true
  measure : ms.foldl Move.opensMeasure inside = inside

namespace Encloses

variable {holds : Bool → Move → Bool} {inside : Bool} {as bs : List Move}

theorem append (h : Encloses holds inside as) (h' : Encloses holds inside bs) :
    Encloses holds inside (as ++ bs) :=
  ⟨by rw [throughout_append, h.meets, h.measure, h'.meets]; rfl,
    by rw [List.foldl_append, h.measure, h'.measure]⟩

/-- Between two moves that leave it as open or closed as it was before the first. -/
theorem within {enter leave : Move} (h : Encloses holds (enter.opensMeasure inside) as)
    (henter : holds inside enter = true) (hleave : holds (enter.opensMeasure inside) leave = true)
    (hmeasure : leave.opensMeasure (enter.opensMeasure inside) = inside) :
    Encloses holds inside (enter :: as ++ [leave]) := by
  refine ⟨?_, ?_⟩
  · rw [List.cons_append, throughout, throughout_append, h.meets, h.measure, henter, throughout,
      hleave]
    rfl
  · rw [List.cons_append, List.foldl_cons, List.foldl_append, h.measure]
    exact hmeasure

/-- A move that begins and ends neither a part nor a measure. -/
theorem single {m : Move} (h : m.isBoundary = false) (hm : holds inside m = true) :
    Encloses holds inside [m] := by
  refine ⟨by rw [throughout, hm]; rfl, ?_⟩
  cases m with
  | leavePartList | leaf => rfl
  | enterPart | leavePart | enterMeasure | leaveMeasure => exact nomatch h

end Encloses

mutual

/-- Along an element that keeps to measures they are left where one is open. -/
theorem leavesOpen_movesOf (e : Element) {inside : Bool}
    (hkeeps : throughout Move.keepsToMeasure inside (movesOf e) = true) :
    Encloses Move.leavesOpen inside (movesOf e) := by
  match e with
  | ⟨name, attributes, text?, children, line⟩ =>
    revert hkeeps
    unfold movesOf
    dsimp only
    split <;> intro hkeeps
    · exact leavesOpen_movesOfAll children hkeeps
    · rw [throughout_append, Bool.and_eq_true] at hkeeps
      exact (leavesOpen_movesOfAll children hkeeps.1).append (.single rfl rfl)
    · exact (leavesOpen_movesOfAll children (of_throughout_within hkeeps).2).within rfl rfl rfl
    · obtain ⟨hout, hkeeps⟩ := of_throughout_within hkeeps
      obtain rfl : inside = false := by simpa [Move.keepsToMeasure] using hout
      exact (leavesOpen_movesOfAll children hkeeps).within rfl rfl rfl
    · exact .single rfl rfl

/-- Along elements that keep to measures they are left where one is open. -/
theorem leavesOpen_movesOfAll (es : List Element) {inside : Bool}
    (hkeeps : throughout Move.keepsToMeasure inside (movesOfAll es) = true) :
    Encloses Move.leavesOpen inside (movesOfAll es) := by
  match es with
  | [] => exact ⟨rfl, rfl⟩
  | e :: es =>
    unfold movesOfAll at hkeeps ⊢
    rw [throughout_append, Bool.and_eq_true] at hkeeps
    have hfirst := leavesOpen_movesOf e hkeeps.1
    exact hfirst.append (leavesOpen_movesOfAll es (hfirst.measure ▸ hkeeps.2))

end

/-- In a document that keeps to its measures they are left where one is open. -/
theorem Markup.Element.leavesOpen {root : Element} (hkeeps : root.keepsToMeasures = true) :
    throughout Move.leavesOpen false (movesOf root) = true :=
  (leavesOpen_movesOf root hkeeps).meets

/-! ## Parts and measures -/

/-- A part is current afterwards, or else none was before and no measure is open. -/
def Rooted (inside : Bool) (r t : Reading) : Prop :=
  t.partId? ≠ none ∨ inside = false ∧ r.partId? = none

/-- What is rooted is so on the way, too. -/
theorem Rooted.split {inside : Bool} {ns : List Moment} (h : Rooted inside r t)
    (hfirst : Nests r ms s) (hlast : Nests s ns t) : Rooted inside r s ∧ Rooted inside s t := by
  rcases h with hsome | ⟨hinside, hnone⟩
  · exact ⟨.inl ((hlast.inside hsome).1 ▸ hsome), .inl hsome⟩
  · exact ⟨.inr ⟨hinside, hnone⟩, .inr ⟨hinside, (hfirst.outside hnone).1⟩⟩

/-- A trail of a move, others, and a last one. -/
theorem Follows.within {enter leave : Move} {inner : List Move} (hr : r.Sound)
    (h : Follows settings r ms t) (hmoves : ms.map Moment.move = enter :: inner ++ [leave]) :
    ∃ within r' t', within.map Moment.move = inner ∧ Ends (enter.perform settings) r () r' ∧
      r'.Sound ∧ Follows settings r' within t' ∧ Ends (leave.perform settings) t' () t := by
  obtain ⟨ms₁, ms₂, s, rfl, h₁, h₂, hfirst, hlast⟩ := h.split hmoves
  obtain ⟨first, within, rfl, henter, hinner⟩ := List.map_eq_cons_iff.mp h₁
  obtain ⟨-, hentered, hwithin⟩ := hfirst.of_cons
  obtain ⟨last, rfl, hleave, rfl, rfl, hleft⟩ := hlast.of_single h₂
  exact ⟨within, first.after, last.before, hinner, henter ▸ hentered,
    (Does.perform hr hentered).sound, hwithin, hleft⟩

mutual

/-- Along an element parts begin and end outside of measures. -/
theorem encloses_movesOf (e : Element) {inside : Bool} {r t : Reading} {ms : List Moment}
    (hr : r.Sound) (h : Follows settings r ms t) (hmoves : ms.map Moment.move = movesOf e)
    (hkeeps : throughout Move.keepsToMeasure inside (ms.map Moment.move) = true)
    (hrooted : Rooted inside r t) : Encloses Move.partOutside inside (ms.map Moment.move) := by
  match e with
  | ⟨name, attributes, text?, children, line⟩ =>
    unfold movesOf at hmoves
    dsimp only at hmoves
    split at hmoves
    · exact encloses_movesOfAll children hr h hmoves hkeeps hrooted
    · obtain ⟨ms₁, ms₂, s, rfl, h₁, h₂, hfirst, hlast⟩ := h.split hmoves
      have hend : Nests s ms₂ t :=
        .of_single (hfirst.sound hr) hlast h₂ (by rintro ⟨_, ⟨⟩⟩) (by rintro _ ⟨⟩)
      have hrooted₁ := (hrooted.split (nests_movesOfAll children hr hfirst h₁) hend).1
      rw [List.map_append, throughout_append, Bool.and_eq_true] at hkeeps
      rw [List.map_append, h₂]
      exact (encloses_movesOfAll children hr hfirst h₁ hkeeps.1 hrooted₁).append (.single rfl rfl)
    · obtain ⟨within, r', t', hinner, -, hr', hwithin, hleft⟩ := h.within hr hmoves
      have hends := PartEnds.leavePart (hwithin.sound hr') hleft
      -- the part cannot be left inside of a measure, since none is current after it
      obtain ⟨rfl, -⟩ := hrooted.resolve_left (· hends.partId)
      rw [hmoves] at hkeeps ⊢
      rw [← hinner] at hkeeps ⊢
      exact (encloses_movesOfAll children hr' hwithin hinner (of_throughout_within hkeeps).2
        (.inl hends.inPart)).within rfl rfl rfl
    · obtain ⟨within, r', t', hinner, hentered, hr', hwithin, hleft⟩ := h.within hr hmoves
      have hbegins := MeasureBegins.enterMeasure hr hentered
      have hquiet := (Quiet.leaveMeasure (hwithin.sound hr') hleft).1
      -- the measure begins in a part, so this part is current still
      have hcurrent : t'.partId? ≠ none := by
        obtain ⟨id, hid⟩ := hbegins.inPart
        rw [← hquiet.partId]
        exact hrooted.resolve_right fun hout => by simp [hid] at hout
      rw [hmoves] at hkeeps ⊢
      rw [← hinner] at hkeeps ⊢
      obtain ⟨hout, hkeeps⟩ := of_throughout_within hkeeps
      obtain rfl : inside = false := by simpa [Move.keepsToMeasure] using hout
      exact (encloses_movesOfAll children hr' hwithin hinner hkeeps (.inl hcurrent)).within
        rfl rfl rfl
    · rw [hmoves]
      exact .single rfl rfl

/-- Along elements parts begin and end outside of measures. -/
theorem encloses_movesOfAll (es : List Element) {inside : Bool} {r t : Reading} {ms : List Moment}
    (hr : r.Sound) (h : Follows settings r ms t) (hmoves : ms.map Moment.move = movesOfAll es)
    (hkeeps : throughout Move.keepsToMeasure inside (ms.map Moment.move) = true)
    (hrooted : Rooted inside r t) : Encloses Move.partOutside inside (ms.map Moment.move) := by
  match es with
  | [] =>
    rw [hmoves]
    exact ⟨rfl, rfl⟩
  | e :: es =>
    unfold movesOfAll at hmoves
    obtain ⟨ms₁, ms₂, s, rfl, h₁, h₂, hfirst, hlast⟩ := h.split hmoves
    rw [List.map_append, throughout_append, Bool.and_eq_true] at hkeeps
    obtain ⟨hrooted₁, hrooted₂⟩ := hrooted.split (nests_movesOf e hr hfirst h₁)
      (nests_movesOfAll es (hfirst.sound hr) hlast h₂)
    have henclosed := encloses_movesOf e hr hfirst h₁ hkeeps.1 hrooted₁
    rw [List.map_append]
    exact henclosed.append (encloses_movesOfAll es (hfirst.sound hr) hlast h₂
      (henclosed.measure ▸ hkeeps.2) hrooted₂)

end

/-- **Parts begin and end outside of measures** in a document that is read and keeps to its
measures. -/
theorem Document.partsOutside {root : Element} {score : Score}
    (h : (Document.read settings root).score = .ok score)
    (hkeeps : root.keepsToMeasures = true) :
    throughout Move.partOutside false ((trail settings root).map Moment.move) = true := by
  obtain ⟨last, hfollows, -, -, hmoves⟩ := Document.follows_unfolds h
  rw [Element.keepsToMeasures, ← hmoves] at hkeeps
  exact (encloses_movesOf root Reading.sound_empty hfollows hmoves hkeeps (.inr ⟨rfl, rfl⟩)).meets

end Partwise
