import Partwise.Proofs.Music.Boundaries
import Partwise.Proofs.Reading.Confinement

/-!
# Music · Elsewhere: the voices of other parts stay where they stand

What is read in a part moves only voices of this part (`Elsewhere`), and neither the boundaries of
parts nor the header and the part list move any voice. So all voices of other parts stay where they
stand (`Move.positionOf_elsewhere`).
-/

namespace Partwise

open Markup

variable {r s t : Reading} {part : Part} {q : Passage} {line : Nat} {u : Unit} {id : String}
  {key : VoiceKey}

/-- A part that is declared has no voices, so none has moved. -/
theorem Declared.positionOf (h : Declared r s part) (id : String) (key : VoiceKey) :
    s.positionOf id key = r.positionOf id key := by
  have hsilent : part.cursor key = 0 := by simp [Part.cursor, Part.voice?, h.silent]
  rw [Reading.positionOf, Reading.positionOf, h.partOf]
  cases r.partOf id with
  | some p => rfl
  | none =>
    rw [Option.none_or]
    split
    · exact hsilent
    · rfl

/-! ## Other parts -/

/-- From one reading to the other the same part is being read, and no other part has changed. -/
structure Elsewhere (r s : Reading) : Prop where
  partId : s.partId? = r.partId?
  partOf : ∀ id, r.partId? ≠ some id → s.partOf id = r.partOf id

namespace Elsewhere

theorem refl (r : Reading) : Elsewhere r r := ⟨rfl, fun _ _ => rfl⟩

theorem trans (h : Elsewhere r s) (h' : Elsewhere s t) : Elsewhere r t :=
  ⟨h'.partId.trans h.partId, fun id hid =>
    (h'.partOf id (h.partId ▸ hid)).trans (h.partOf id hid)⟩

/-- The part that is being read has become another one. -/
theorem of_becomes (h : Becomes r s part q) : Elsewhere r s :=
  ⟨h.same_partId, fun id hid => h.others id fun heq => hid (heq ▸ h.partId)⟩

/-- To change no other part is a discipline. -/
theorem discipline : PartDiscipline fun α x =>
    ∀ {r : Reading} {a : α} {s : Reading}, Ends x r a s → Elsewhere r s where
  pure _ _ _ _ h := by
    rw [h.pure.2]
    exact refl _
  throw _ _ _ _ _ h := absurd h not_ends_throw
  lift _ _ _ _ h := by
    rw [h.lift.2]
    exact refl _
  bind hx hf _ _ _ h := by
    obtain ⟨a, _, hfirst, hrest⟩ := h.bind
    exact (hx hfirst).trans (hf a hrest)
  look _ hf _ _ _ h := by
    obtain ⟨_, _, hget, hrest⟩ := h.bind
    obtain ⟨rfl, rfl⟩ := hget.get
    exact hf _ hrest
  currentPart h := by
    rw [h.currentPart.2]
    exact refl _
  voiceAt h := by
    obtain ⟨_, _, hcurrent, _⟩ := h.bind
    exact of_becomes ((Becomes.refl hcurrent.currentPart.1).voiceAt h).2
  changePassage _ _ _ _ h := by
    rw [h.changePassage]
    exact ⟨rfl, fun _ _ => rfl⟩
  changeMarks h := by
    rw [h.changePassage]
    exact ⟨rfl, fun _ _ => rfl⟩
  drop h := by
    rw [h.find]
    exact refl _
  hollow h := by
    rw [h.find]
    exact refl _
  changePart hf _ _ _ h := by
    obtain ⟨part, hpart, _⟩ := h.changePart
    exact of_becomes ((Becomes.refl hpart).changePart h (hf part))

/-- What only speaks or decodes leaves all parts as they are. -/
theorem lift {α : Type} (x : Journaled α) {r : Reading} {a : α} {s : Reading}
    (h : Ends (liftM x) r a s) : Elsewhere r s := by
  rw [h.lift.2]
  exact refl _

/-- When a part is left, all others stay as they are. -/
theorem leavePart {e : Element} (h : Ends (Partwise.leavePart e) r u s)
    (hid : r.partId? ≠ some id) : s.partOf id = r.partOf id := by
  obtain ⟨_, r₁, hsettle, hrest₁⟩ := h.bind
  obtain ⟨_, r₂, hcheck, hrest₂⟩ := hrest₁.bind
  obtain ⟨_, r₃, hrepeats, hrest₃⟩ := hrest₂.bind
  obtain ⟨_, r₄, hflush, hleave⟩ := hrest₃.bind
  have hsettled := discipline.discipline.settle hsettle
  have hchecked := hsettled.trans (discipline.discipline.checkBars hcheck)
  have hended := hchecked.trans (discipline.endRepeats hrepeats)
  obtain ⟨part, hpart, _⟩ := hflush.changePart
  have hflushed := hended.trans (of_becomes ((Becomes.refl hpart).changePart hflush rfl))
  rw [hleave.modify]
  exact hflushed.partOf id hid

end Elsewhere

/-- When a part is entered, all parts stay as they are. -/
theorem partOf_enterPart {e : Element} (h : Ends (enterPart e) r u s) (id : String) :
    s.partOf id = r.partOf id := by
  obtain ⟨_, _, hget, hrest⟩ := h.bind
  obtain ⟨rfl, rfl⟩ := hget.get
  split at hrest
  · obtain ⟨_, _, htell, hset⟩ := hrest.bind
    rw [hset.modify, htell.tell]
    rfl
  · exact absurd hrest not_ends_throw

/-- Header and part list move no voice. -/
theorem positionOf_readHeader {settings : Settings} {e : Element} (hname : e.name ∈ headerNames)
    (h : Ends (readLeaf settings e) r u s) (id : String) (key : VoiceKey) :
    s.positionOf id key = r.positionOf id key := by
  have hsame : ∀ {r s : Reading}, SameMusic r s → s.positionOf id key = r.positionOf id key :=
    fun h => Reading.positionOf_congr (by rw [Reading.partOf, Reading.partOf, h.parts]) key
  unfold readLeaf at h
  split at h
  · exact hsame (.identify h)
  · exact hsame (.identify h)
  · exact hsame (.identify h)
  · exact hsame (.identify h)
  · exact hsame (.readPartGroup h)
  · rcases Declared.of_readScorePart h with hlisted | ⟨_, _, hlisted, hdeclared⟩
    · exact hsame hlisted
    · exact (hdeclared.positionOf id key).trans (hsame hlisted)
  all_goals simp_all [headerNames]

/-- **No move takes a voice of another part along.** -/
theorem Move.positionOf_elsewhere {settings : Settings} {m : Move}
    (h : Ends (m.perform settings) r u s) (hid : r.partId? ≠ some id) (key : VoiceKey) :
    s.positionOf id key = r.positionOf id key := by
  cases m with
  | enterPart e => exact Reading.positionOf_congr (partOf_enterPart h id) key
  | leavePart e => exact Reading.positionOf_congr (Elsewhere.leavePart h hid) key
  | enterMeasure e =>
    have hothers := Elsewhere.discipline.discipline.enterMeasure h
    exact Reading.positionOf_congr (hothers.partOf id hid) key
  | leaveMeasure e =>
    have hothers := Elsewhere.discipline.discipline.leaveMeasure (.of_lift Elsewhere.lift) h
    exact Reading.positionOf_congr (hothers.partOf id hid) key
  | leavePartList line =>
    have hparts := (SameMusic.closeGroups h).parts
    exact Reading.positionOf_congr (by rw [Reading.partOf, Reading.partOf, hparts]) key
  | leaf e =>
    by_cases hheader : e.name ∈ headerNames
    · exact positionOf_readHeader hheader h id key
    · have hothers := Elsewhere.discipline.readMusic hheader (fun _ => .of_lift Elsewhere.lift) h
      exact Reading.positionOf_congr (hothers.partOf id hid) key

end Partwise
