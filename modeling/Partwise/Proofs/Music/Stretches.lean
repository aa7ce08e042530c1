import Mathlib.Data.List.Chain
import Partwise.Proofs.Music.Time

/-!
# Music · Stretches: the time that the elements of a voice cover

The elements of a voice cover stretches of time, one after the other, and they overlap where one
begins before the one before it ends (`Apart` says that none does). What is given to a voice adds
stretches behind those that are there, or prolongs a tuplet that stands last. Since no tuplet stays
open across the end of a measure, the stretches of a measure are never touched again
(`Grown.unfolds`), if all notes stand inside of measures, as `measured` demands of a document.
-/

namespace Partwise

open Markup

variable {settings : Settings} {r s t : Reading} {m : Moment} {ms : List Moment} {d : Deed}
  {id : String} {key : VoiceKey} {base xs ys : List Span} {a b : Span}

/-! ## Overlaps -/

/-- No stretch begins before the one before it ends. -/
def Apart (ss : List Span) : Prop := ss.IsChain fun a b => a.stop ≤ b.position

instance (ss : List Span) : Decidable (Apart ss) :=
  inferInstanceAs (Decidable (ss.IsChain _))

@[simp] theorem apart_nil : Apart [] := List.IsChain.nil

theorem apart_singleton (a : Span) : Apart [a] := by
  simp [Apart]

/-- Two rows of stretches are apart if each is, and the first ends before the second begins. -/
theorem apart_append_cons :
    Apart (xs ++ [a] ++ b :: ys) ↔ Apart (xs ++ [a]) ∧ a.stop ≤ b.position ∧ Apart (b :: ys) := by
  unfold Apart
  rw [List.isChain_append]
  simp
  tauto

/-- How long the last stretch is does not matter. -/
theorem apart_prolong (hposition : b.position = a.position) :
    Apart (xs ++ [b]) ↔ Apart (xs ++ [a]) := by
  unfold Apart
  rw [List.isChain_append, List.isChain_append]
  simp [hposition]

/-! ## What is given to a voice -/

/-- The stretches that a note or rest adds to its voice. -/
def Reading.newSpans (r : Reading) (a : Arrival) : List Span :=
  r.padSpans a.key ++ [⟨r.onset a.key, a.length⟩]

/-- The stretches of time that come with a note do not overlap among themselves. -/
theorem Reading.apart_newSpans (r : Reading) (a : Arrival) : Apart (r.newSpans a) := by
  unfold newSpans padSpans
  split
  · next hbehind =>
    have hmeets : Apart ([] ++ [⟨r.cursor a.key, r.passage.position - r.cursor a.key⟩] ++
        [⟨r.onset a.key, a.length⟩]) := by
      rw [apart_append_cons]
      refine ⟨apart_singleton _, ?_, apart_singleton _⟩
      simp [Span.stop, Reading.onset, hbehind.le]
    exact hmeets
  · exact apart_singleton _

/-- Behind what ends at the onset at the latest they overlap with it if the voice stood before the
end. -/
theorem Reading.apart_append_newSpans {arrival : Arrival} (horder : a.stop ≤ r.passage.position) :
    Apart (xs ++ [a] ++ r.newSpans arrival) ↔
      Apart (xs ++ [a]) ∧ a.stop ≤ r.cursor arrival.key := by
  have hnew := r.apart_newSpans arrival
  unfold newSpans padSpans at hnew ⊢
  split at hnew
  · next hbehind =>
    rw [if_pos hbehind, List.singleton_append, apart_append_cons]
    simp only [List.singleton_append] at hnew
    simp [hnew]
  · next hbehind =>
    have hcursor := not_lt.mp hbehind
    rw [if_neg hbehind, List.nil_append, apart_append_cons]
    have honset : r.onset arrival.key = r.cursor arrival.key := max_eq_right hcursor
    simp [honset, apart_singleton, horder.trans hcursor]

/-- A list with a last element is put together in one way only. -/
theorem eq_of_concat_eq {α : Type} {as bs : List α} {x y : α} (h : as ++ [x] = bs ++ [y]) :
    as = bs ∧ x = y := by
  obtain ⟨has, hxy⟩ := List.append_inj' h rfl
  exact ⟨has, List.singleton_inj.mp hxy⟩

/-- What is prolonged is the last of those that were added. -/
theorem prolong_append {more before : List Span} {last : Span} (hmore : more ≠ [])
    (h : base ++ more = before ++ [last]) :
    ∃ rest, more = rest ++ [last] ∧ before = base ++ rest := by
  obtain ⟨rest, x, rfl⟩ := (List.eq_nil_or_concat' more).resolve_left hmore
  rw [← List.append_assoc] at h
  obtain ⟨hbefore, rfl⟩ := eq_of_concat_eq h
  exact ⟨rest, rfl, hbefore.symm⟩

/-! ## Stretches that stay -/

/-- The stretches of a voice are those that it had and further ones. An open tuplet of the voice is
among the further ones. -/
def Grown (base : List Span) (id : String) (key : VoiceKey) (r : Reading) : Prop :=
  ∃ more, spans (r.music id key) = base ++ more ∧
    (r.partId? = some id → r.passage.tupletKey? = some key → more ≠ [])

namespace Grown

/-- Where no tuplet is open, nothing was added yet. -/
theorem refl (hnone : r.passage.tuplets = []) (id : String) (key : VoiceKey) :
    Grown (spans (r.music id key)) id key r := by
  refine ⟨[], by simp, ?_⟩
  intro _ hkey
  simp [Passage.tupletKey?, hnone] at hkey

/-- The music stays as it is, and no tuplet is opened. -/
theorem of_same (h : Grown base id key r) (hmusic : s.music id key = r.music id key)
    (hpartId : s.partId? = r.partId?) (htuplets : TupletsGoOn r s) : Grown base id key s := by
  obtain ⟨more, hspans, hmore⟩ := h
  refine ⟨more, by rw [hmusic, hspans], ?_⟩
  intro hid hkey
  rcases htuplets with hnone | hsame
  · simp [Passage.tupletKey?, hnone] at hkey
  · exact hmore (hpartId ▸ hid) (hsame ▸ hkey)

/-- The music stays as it is, and no tuplet is open. -/
theorem of_none (h : Grown base id key r) (hmusic : s.music id key = r.music id key)
    (hnone : s.passage.tuplets = []) : Grown base id key s := by
  obtain ⟨more, hspans, _⟩ := h
  refine ⟨more, by rw [hmusic, hspans], ?_⟩
  intro _ hkey
  simp [Passage.tupletKey?, hnone] at hkey

/-- A note or rest is given to some voice. -/
theorem of_placed (h : Grown base id key r) {at' : String} {a : Arrival} {current : VoiceKey}
    (hplaced : Placed r s at' a current) : Grown base id key s := by
  obtain ⟨more, hspans, hmore⟩ := h
  by_cases hhere : (id, key) = (at', a.key)
  · cases hhere
    rcases hplaced.spans with hnew | ⟨hkey, _, before, last, hbefore, hafter⟩
    · refine ⟨more ++ r.newSpans a, ?_, ?_⟩
      · rw [hnew, hspans, Reading.newSpans]
        simp only [List.append_assoc]
      · simp [Reading.newSpans]
    · rw [hspans] at hbefore
      obtain ⟨rest, rfl, rfl⟩ := prolong_append (hmore hplaced.partId hkey) hbefore
      refine ⟨rest ++ [⟨last.position, last.length + a.length⟩], ?_, by simp⟩
      rw [hafter, List.append_assoc]
  · refine ⟨more, by rw [hplaced.others id key hhere, hspans], ?_⟩
    intro hid hkey
    rw [hplaced.samePart] at hid
    cases hid
    exact absurd (by rw [hplaced.tuplets key hkey]) hhere

/-- A deed adds stretches behind those that are there. -/
theorem step (h : Grown base id key r) (hdoes : Does r s d)
    (halone : ∀ id, d = .enterPart id → r.partId? = none) : Grown base id key s := by
  cases hdoes with
  | place _ placed => exact h.of_placed placed
  | join _ joined =>
    obtain ⟨more, hspans, hmore⟩ := h
    refine ⟨more, (joined.spans_eq id key).trans hspans, ?_⟩
    intro hid hkey
    rcases joined.tuplets with hnone | hgoesOn
    · simp [Passage.tupletKey?, hnone] at hkey
    · exact hmore (joined.partId.trans (joined.samePart.symm.trans hid)) (hgoesOn ▸ hkey)
  | forward placed => exact h.of_placed placed
  | backup back => exact h.of_none (by rw [back.music]) back.tuplets
  | enterMeasure begins =>
    exact h.of_same (congrFun (congrFun (congrArg View.music begins.view) id) key)
      (congrArg View.partId? begins.view) begins.tuplets
  | leaveMeasure quiet => exact h.of_same (quiet.music id key) quiet.partId quiet.tuplets
  | enterPart begins =>
    exact h.of_none (by rw [begins.music (halone _ rfl)]) (by rw [begins.passage])
  | leavePart ends => exact h.of_none (by rw [ends.music]) ends.tuplets
  | nothing quiet => exact h.of_same (quiet.music id key) quiet.partId quiet.tuplets

/-- **Stretches that are there stay.** -/
theorem unfolds (h : Grown base id key r) (hunfolds : Unfolds settings r ms t) :
    Grown base id key t := by
  induction hunfolds with
  | nil => exact h
  | cons _ hdoes halone _ ih => exact ih (h.step hdoes halone)

end Grown

/-! ## Documents with all notes inside of measures -/

/-- The element is a note or a movement in time. -/
def Markup.Element.isTimed (e : Element) : Bool :=
  e.name == "note" || e.name == "backup" || e.name == "forward"

/-- Notes and movements in time stand inside of measures, and measures do not nest. -/
def measured : Bool → List Move → Bool
  | _, [] => true
  | inside, .enterMeasure _ :: ms => !inside && measured true ms
  | _, .leaveMeasure _ :: ms => measured false ms
  | inside, .leaf e :: ms => (inside || !e.isTimed) && measured inside ms
  | inside, .enterPart _ :: ms => measured inside ms
  | inside, .leavePart _ :: ms => measured inside ms
  | inside, .leavePartList _ :: ms => measured inside ms

/-- What is no note and no movement in time means nothing for the music. -/
theorem Deed.ofLeaf_of_not_isTimed {e : Element} (h : e.isTimed = false) :
    Deed.ofLeaf settings r e = .nothing := by
  simp only [Element.isTimed, Bool.or_eq_false_iff, beq_eq_false_iff_ne] at h
  obtain ⟨⟨hnote, hbackup⟩, hforward⟩ := h
  unfold ofLeaf
  split
  · contradiction
  · contradiction
  · contradiction
  · rfl

/-- A move in a measured document keeps it measured, and keeps tuplets out of the time between
measures. -/
theorem Does.measured {inside : Bool} {move : Move} {moves : List Move}
    (h : Does r s (move.deed settings r)) (hmeasured : measured inside (move :: moves) = true)
    (hnone : inside = false → r.passage.tuplets = []) :
    ∃ next, Partwise.measured next moves = true ∧ (next = false → s.passage.tuplets = []) := by
  cases move with
  | enterMeasure e =>
    simp only [Partwise.measured, Bool.and_eq_true] at hmeasured
    exact ⟨true, hmeasured.2, by simp⟩
  | leaveMeasure e =>
    cases h with
    | leaveMeasure _ hclosed => exact ⟨false, hmeasured, fun _ => hclosed⟩
  | enterPart e =>
    cases h with
    | enterPart begins => exact ⟨inside, hmeasured, fun _ => by rw [begins.passage]⟩
  | leavePart e =>
    cases h with
    | leavePart ends => exact ⟨inside, hmeasured, fun _ => ends.tuplets⟩
  | leavePartList line =>
    cases h with
    | nothing quiet =>
      exact ⟨inside, hmeasured, fun hinside => quiet.tuplets.none (hnone hinside)⟩
  | leaf e =>
    simp only [Partwise.measured, Bool.and_eq_true, Bool.or_eq_true, Bool.not_eq_true']
      at hmeasured
    obtain ⟨hplace, hmeasured⟩ := hmeasured
    refine ⟨inside, hmeasured, ?_⟩
    intro hinside
    have htimed : e.isTimed = false := by simpa [hinside] using hplace
    have hdeed : (Move.leaf e).deed settings r = .nothing := Deed.ofLeaf_of_not_isTimed htimed
    rw [hdeed] at h
    cases h with
    | nothing quiet => exact quiet.tuplets.none (hnone hinside)

/-- **Between measures no tuplet is open**, so none is where a measure begins. -/
theorem none_of_measured {inside : Bool} {ns : List Moment}
    (h : Unfolds settings r (ms ++ m :: ns) t)
    (hmeasured : measured inside ((ms ++ m :: ns).map Moment.move) = true)
    (hnone : inside = false → r.passage.tuplets = []) (hmove : ∃ e, m.move = .enterMeasure e) :
    m.before.passage.tuplets = [] := by
  induction ms generalizing inside r with
  | nil =>
    obtain ⟨e, he⟩ := hmove
    cases h with
    | cons _ hdoes _ _ =>
      rw [List.nil_append, List.map_cons, he] at hmeasured
      simp only [measured, Bool.and_eq_true, Bool.not_eq_true'] at hmeasured
      exact hnone hmeasured.1
  | cons m' ms ih =>
    cases h with
    | cons _ hdoes _ hrest =>
      obtain ⟨next, hlater, hclosed⟩ := hdoes.measured hmeasured hnone
      exact ih hrest hlater hclosed

end Partwise
