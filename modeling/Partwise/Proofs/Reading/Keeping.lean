import Partwise.Proofs.Reading.Ends
import Partwise.Reading.Document

/-!
# Reading · Keeping: what is seen of a reading and kept by a step

Most steps change the current part, or the passage where it holds marks and checks. What else is
seen of a reading is kept by them. A `Sight` is anything that may be seen of a reading apart from
the content of its parts, and `Keeps v x` says that the step `x` keeps what the sight `v` shows.

Signs, directions and checks keep the open tuplets (`Keeps.tuplets_readLeaf`), and all elements but
notes that take a place and movements forward keep the measure and how far its voices came in it
(`Keeps.headway_readLeaf`).
-/

namespace Partwise

open Markup

variable {α β γ δ : Type} {line : Nat} {key : VoiceKey}

/-! ## Sights -/

/-- What is seen of a reading apart from the content of its parts. -/
structure Sight (δ : Type) where
  see : Reading → δ
  see_setPart : ∀ r p, see (r.setPart p) = see r

/-- What is seen of the passage. -/
def Sight.passage (see : Passage → δ) : Sight δ := ⟨fun r => see r.passage, fun _ _ => rfl⟩

/-- The open tuplets. -/
def Sight.tuplets : Sight (List Tuplet) := .passage Passage.tuplets

/-- The measure that is read. -/
def Sight.measureNumber : Sight String := .passage Passage.measureNumber

/-- A measure, and how far each voice came in it. -/
abbrev Headway := String × List (VoiceKey × WholeNotes)

/-- The measure that is read, and how far each voice came in it. -/
def Passage.headway (p : Passage) : Headway := (p.measureNumber, p.extents)

/-- The measure that is read, and how far each voice came in it. -/
def Sight.headway : Sight Headway := .passage Passage.headway

/-- The step keeps what is seen of the reading. -/
def Keeps (v : Sight δ) (x : Step α) : Prop :=
  ∀ r a s, Ends x r a s → v.see s = v.see r

variable {seen : Sight δ}

namespace Keeps

/-! ## Elementary steps -/

/-- A step that only gives a value keeps everything that is seen. -/
theorem pure (a : α) : Keeps seen (Pure.pure a : Step α) := by
  intro r b s h
  rw [h.pure.2]

/-- A step that fails keeps everything that is seen, since it never ends well. -/
theorem throw (failure : Failure) : Keeps seen (MonadExcept.throw failure : Step α) :=
  fun _ _ _ h => absurd h not_ends_throw

/-- Decoders keep everything that is seen of a reading. -/
theorem lift (x : Journaled α) : Keeps seen (liftM x : Step α) := by
  intro r a s h
  rw [h.lift.2]

/-- Two steps one after the other keep what both of them keep. -/
theorem bind {x : Step α} {f : α → Step β} (hx : Keeps seen x) (hf : ∀ a, Keeps seen (f a)) :
    Keeps seen (x >>= f) := by
  intro r b t h
  obtain ⟨a, s, hfirst, hrest⟩ := h.bind
  exact (hf a _ _ _ hrest).trans (hx _ _ _ hfirst)

/-- A step that looks at the reading keeps what is seen, if it does for all that may be found. -/
theorem look {f : Reading → Step α} (hf : ∀ r, Keeps seen (f r)) :
    Keeps seen (MonadState.get >>= f) := by
  refine bind ?_ hf
  intro r a s h
  rw [h.get.2]

/-- A step of which the value is thrown away keeps as much as before. -/
theorem discard {x : Step α} (hx : Keeps seen x) : Keeps seen (Functor.discard x) := by
  intro r u s h
  obtain ⟨a, hrun⟩ := h.discard
  exact hx _ _ _ hrun

/-- Steps that keep what is seen do so together, one for each element of a list. -/
theorem forM {f : γ → Step Unit} (hf : ∀ c, Keeps seen (f c)) (cs : List γ) :
    Keeps seen (cs.forM f) := by
  intro r u s h
  exact h.forM (P := fun s => seen.see s = seen.see r) rfl fun c _ _ _ hsame hrun =>
    (hf c _ _ _ hrun).trans hsame

/-- To look at the part that is being read keeps everything that is seen. -/
theorem currentPart : Keeps seen (Partwise.currentPart line) := by
  intro r part s h
  rw [h.currentPart.2]

/-- A change of the reading keeps what is seen if it leaves it as it is. -/
theorem modify {f : Reading → Reading} (hf : ∀ r, seen.see (f r) = seen.see r) :
    Keeps seen (modify f : Step Unit) := by
  intro r u s h
  rw [h.modify, hf]

/-- A change of the passage keeps what is seen if it leaves it as it is. -/
theorem changePassage {f : Passage → Passage}
    (hf : ∀ r : Reading, seen.see { r with passage := f r.passage } = seen.see r) :
    Keeps seen (Partwise.changePassage f) :=
  modify hf

/-- A change of the part that is being read keeps everything that is seen. -/
theorem changePart {f : Part → Part} : Keeps seen (Partwise.changePart line f) := by
  intro r u s h
  obtain ⟨part, _, rfl⟩ := h.changePart
  exact seen.see_setPart r _

/-- To look for a voice keeps everything that is seen, even where the voice begins by it. -/
theorem voiceAt : Keeps seen (Partwise.voiceAt line key) := by
  refine bind currentPart fun part => ?_
  split
  · exact pure _
  · exact bind (lift _) fun _ => bind (modify fun r => seen.see_setPart r _) fun _ => pure _

/-- A change of one voice keeps everything that is seen. -/
theorem changeVoice {f : Voice → Voice} : Keeps seen (Partwise.changeVoice line key f) :=
  bind (discard voiceAt) fun _ => changePart

/-- An element that is put at the end of a voice keeps everything that is seen. -/
theorem appendTo {e : VoiceElement} : Keeps seen (Partwise.appendTo line key e) :=
  changeVoice

/-- A change of all voices of the part keeps everything that is seen. -/
theorem changeVoices {f : Voice → Voice × Option Closing} :
    Keeps seen (Partwise.changeVoices line f) := by
  refine bind currentPart fun part => bind (forM (fun voice => ?_) _) fun _ => changePart
  split
  · exact lift _
  · exact pure _

/-! ## What keeps the open tuplets -/

/-- A sign that is read from a child of an element keeps everything that is seen. -/
theorem changeByChild {e : Element} {name : String} {read : Element → Journaled α}
    {change : Part → α → Part} : Keeps seen (Partwise.changeByChild e name read change) := by
  unfold Partwise.changeByChild
  split
  · exact bind (lift _) fun _ => changePart
  · exact pure _

/-- Signs keep everything that is seen. -/
theorem readAttributes {e : Element} : Keeps seen (Partwise.readAttributes e) := by
  unfold Partwise.readAttributes
  extract_lets signs
  have hsigns : ∀ u, Keeps seen (signs u) := fun u =>
    bind changeByChild fun _ => bind changeByChild fun _ => bind changeByChild fun _ =>
      bind (forM (fun _ => bind (lift _) fun _ => changePart) _) fun _ => forM (fun _ => lift _) _
  split
  · exact bind (bind (lift _) fun _ => bind changePart fun _ => lift _) hsigns
  · exact hsigns ()

/-- Directions keep the open tuplets. -/
theorem tuplets_readDirection {settings : Settings} {e : Element} :
    Keeps .tuplets (Partwise.readDirection settings e) := by
  refine look fun _ => bind ?_ fun _ => bind (lift _) fun _ => bind (lift _) fun _ =>
    bind (changePassage fun _ => rfl) fun _ => forM (fun _ => appendTo) _
  exact look fun _ => pure _

/-- Sounds keep everything that is seen. -/
theorem readSound {e : Element} : Keeps seen (Partwise.readSound e) := by
  unfold Partwise.readSound
  split
  · exact lift _
  · exact look fun _ => appendTo

/-- Bar checks keep the open tuplets. -/
theorem tuplets_checkBars {next? : Option String} :
    Keeps .tuplets (Partwise.checkBars line next?) :=
  look fun _ => bind (changePassage fun _ => rfl) fun _ => forM (fun _ => appendTo) _

/-- The beginning of a measure keeps the open tuplets. -/
theorem tuplets_enterMeasure {e : Element} : Keeps .tuplets (Partwise.enterMeasure e) :=
  bind tuplets_checkBars fun _ => bind (lift _) fun _ => bind changePart fun _ =>
    changePassage fun _ => rfl

/-- Barlines apart, elements that are neither notes nor movements in time keep the open tuplets. -/
theorem tuplets_readLeaf {settings : Settings} {e : Element} (hnote : e.name ≠ "note")
    (hbackup : e.name ≠ "backup") (hforward : e.name ≠ "forward") (hbarline : e.name ≠ "barline")
    (hgroup : e.name ≠ "part-group") (hpart : e.name ≠ "score-part") :
    Keeps .tuplets (Partwise.readLeaf settings e) := by
  have hidentify (f : Identification → Identification) :
      Keeps .tuplets (Partwise.identify f) :=
    modify fun _ => rfl
  unfold Partwise.readLeaf
  split <;> first
    | contradiction
    | exact hidentify _
    | exact readAttributes
    | exact tuplets_readDirection
    | exact readSound
    | exact lift _

/-! ## What keeps the measure -/

/-- What keeps the measure and how far its voices came keeps the number of the measure. -/
theorem measureNumber {x : Step α} (hx : Keeps .headway x) : Keeps .measureNumber x :=
  fun _ _ _ h => congrArg Prod.fst (hx _ _ _ h)

/-- The end of a tuplet keeps the measure and how far its voices came. -/
theorem headway_closeTuplet : Keeps .headway (Partwise.closeTuplet line) := by
  refine look fun r => ?_
  split
  · exact throw _
  · refine bind (changePassage fun _ => rfl) fun _ => ?_
    split
    · exact lift _
    · refine bind (lift _) fun _ => ?_
      split
      · exact appendTo
      · exact changePassage fun _ => rfl

/-- The end of some tuplets keeps the measure and how far its voices came. -/
theorem headway_closeTuplets {count : Nat} : Keeps .headway (Partwise.closeTuplets line count) :=
  forM (fun _ => headway_closeTuplet) _

/-- The end of all open tuplets keeps the measure and how far its voices came. -/
theorem headway_drainTuplets : Keeps .headway (Partwise.drainTuplets line) := by
  refine look fun r => ?_
  dsimp only
  split
  · exact bind (lift _) fun _ => headway_closeTuplets
  · exact pure _

/-- Music that breaks off keeps the measure and how far its voices came. -/
theorem headway_breakOff : Keeps .headway (Partwise.breakOff line) :=
  bind headway_drainTuplets fun _ => changePassage fun _ => rfl

/-- Music that breaks off keeps the number of the measure. -/
theorem measureNumber_breakOff : Keeps .measureNumber (Partwise.breakOff line) :=
  headway_breakOff.measureNumber

/-- Marks that are dropped keep the measure and how far its voices came. -/
theorem headway_dropPending : Keeps .headway (Partwise.dropPending line) := by
  refine look fun r => ?_
  dsimp only
  split
  · exact pure _
  · exact bind (changePassage fun _ => rfl) fun _ => lift _

/-- Music that settles keeps the measure and how far its voices came. -/
theorem headway_settle : Keeps .headway (Partwise.settle line) :=
  bind headway_breakOff fun _ => headway_dropPending

/-- The end of a measure does not take back how far its voices came. -/
theorem headway_leaveMeasure {e : Element} : Keeps .headway (Partwise.leaveMeasure e) :=
  bind headway_settle fun _ => look fun _ => forM (fun _ => lift _) _

/-- A note that takes waiting marks keeps the measure and how far its voices came. -/
theorem headway_takePending {settings : Settings} {note : Note} :
    Keeps .headway (Partwise.takePending settings note) := by
  refine look fun r => ?_
  dsimp only
  split
  · exact pure _
  · split
    · exact pure _
    · split
      · exact bind (lift _) fun _ => bind (changePassage fun _ => rfl) fun _ => pure _
      · exact bind (changePassage fun _ => rfl) fun _ => pure _

/-- A member of a chord that joins its voice keeps everything that is seen. -/
theorem joinInVoice {note : Note} {chordOpen : Bool} :
    Keeps seen (Partwise.joinChord.joinInVoice key note chordOpen) := by
  refine bind voiceAt fun _ => ?_
  split
  · exact changePart
  · exact throw _

/-- Members of chords keep the headway, since they take no time of their own. -/
theorem headway_joinChord {settings : Settings} {input : NoteInput} :
    Keeps .headway (Partwise.joinChord settings input) := by
  unfold Partwise.joinChord
  extract_lets key line finish take
  have hfinish : ∀ u, Keeps .headway (finish u) := fun _ =>
    bind (changePassage fun _ => rfl) fun _ => headway_closeTuplets
  have htake : ∀ u, Keeps .headway (take u) := by
    refine fun _ => bind headway_takePending fun note => ?_
    extract_lets join
    have hjoin : ∀ u, Keeps .headway (join u) := by
      refine fun _ => bind (lift _) fun _ => look fun r => ?_
      extract_lets passage chordOpen
      split
      · split
        · split
          · exact bind (changePassage fun _ => rfl) hfinish
          · exact bind (throw _) hfinish
        · exact bind joinInVoice hfinish
      · exact bind joinInVoice hfinish
    split
    · exact bind changeVoice hjoin
    · exact hjoin ()
  split
  · exact bind (throw _) htake
  · exact htake ()

/-- A movement back in time keeps the measure and how far its voices came. -/
theorem headway_readBackup {settings : Settings} {e : Element} :
    Keeps .headway (Partwise.readBackup settings e) := by
  refine bind (bind headway_breakOff fun _ => bind (look fun _ => pure _) fun _ => lift _) fun _ =>
    look fun _ => bind (lift _) fun _ => bind (changePassage fun _ => rfl) fun _ => look fun _ => ?_
  extract_lets tellBefore
  have hbefore : ∀ reached, Keeps .headway (tellBefore reached) := by
    intro reached
    unfold tellBefore
    split
    · exact bind (lift _) fun _ => lift _
    · exact pure _
  split
  · exact bind (pure _) hbefore
  · exact bind (lift _) fun _ => bind changePart fun _ => bind (pure _) hbefore

/-- Barlines keep the measure and how far its voices came. -/
theorem headway_readBarline {e : Element} : Keeps .headway (Partwise.readBarline e) :=
  bind headway_breakOff fun _ => look fun _ => bind (lift _) fun _ => bind (lift _) fun _ =>
    bind (discard voiceAt) fun _ => bind (changePassage fun _ => rfl) fun _ => changeVoices

/-- Directions keep the measure and how far its voices came. -/
theorem headway_readDirection {settings : Settings} {e : Element} :
    Keeps .headway (Partwise.readDirection settings e) := by
  refine look fun _ => bind ?_ fun _ => bind (lift _) fun _ => bind (lift _) fun _ =>
    bind (changePassage fun _ => rfl) fun _ => forM (fun _ => appendTo) _
  exact look fun _ => pure _

/-- Notes and movements forward apart, no element of music changes the headway. -/
theorem headway_readLeaf {settings : Settings} {e : Element} (hnote : e.name ≠ "note")
    (hforward : e.name ≠ "forward") (hgroup : e.name ≠ "part-group")
    (hpart : e.name ≠ "score-part") : Keeps .headway (Partwise.readLeaf settings e) := by
  have hidentify (f : Identification → Identification) : Keeps .headway (Partwise.identify f) :=
    modify fun _ => rfl
  unfold Partwise.readLeaf
  split
  case h_9 => exact headway_readBackup
  case h_11 => exact headway_readBarline
  case h_12 => exact headway_readDirection
  all_goals first
    | contradiction
    | exact hidentify _
    | exact readAttributes
    | exact readSound
    | exact lift _

end Keeps

end Partwise
