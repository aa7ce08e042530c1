import Partwise.Proofs.Reading.Decoders
import Partwise.Proofs.Reading.Views
import Partwise.Proofs.Reading.Walk
import Partwise.Proofs.Repeats.Bars

/-!
# Reading · Disciplines: what holds of every step of the music that is no barline

A discipline is a property of steps that decoders have, that is kept when steps are made one after
the other, and that the elementary changes of a reading have as far as they leave alone what
barlines have made of the voices. Every procedure that reads music is made of such steps, apart from
barlines and the end of a part. So a discipline holds of them all; this is proved here once, along
the text of each procedure (`Discipline.readMusic`). A `PartDiscipline` does not mind what barlines
do to the voices, so it holds of barlines and of the end of a part as well.

Most procedures do not even touch the marks that wait for a note. They are found here first: what
holds of them is a `Habit`, or only a `Manner`, if no tuplet closes on the way and may be found
without members. Notes take such marks and directions bring them, so a `MarkHabit` is needed to say
the same of these, and at the end of a measure marks are dropped, which only a `Discipline` allows.

Headers and part lists are told of the same way: what holds of their steps is a `HeaderManner`, or a
`ListManner` where the part list alone is changed.
-/

namespace Partwise

open Markup

/-! ## Disciplines -/

/-- The elements that belong to the header of a document or to its part list. -/
def headerNames : List String :=
  ["work", "movement-number", "movement-title", "identification", "part-group", "score-part"]

/-- A property of steps that is kept along the text of a procedure, as long as no tuplet closes and
marks that wait for a note go on waiting. -/
structure Manner (K : (α : Type) → Step α → Prop) : Prop where
  pure : ∀ {α : Type} (a : α), K α (Pure.pure a)
  throw : ∀ {α : Type} (failure : Failure), failure.Due →
    K α (MonadExcept.throw failure)
  lift : ∀ {α : Type} {x : Journaled α}, Steady x → K α (liftM x)
  bind : ∀ {α β : Type} {x : Step α} {f : α → Step β}, K α x → (∀ a, K β (f a)) → K β (x >>= f)
  /-- A look at the part that is being read and at the passage. -/
  look : ∀ {α : Type} {f : Reading → Step α},
    (∀ r s, r.part? = s.part? → r.passage = s.passage → f r = f s) → (∀ r, K α (f r)) →
      K α (MonadState.get >>= f)
  currentPart : ∀ {line : Nat}, K Part (Partwise.currentPart line)
  voiceAt : ∀ {line : Nat} {key : VoiceKey}, K Voice (Partwise.voiceAt line key)
  changePassage : ∀ {f : Passage → Passage}, Passage.Calm f → K Unit (Partwise.changePassage f)
  changePart : ∀ {line : Nat} {f : Part → Part}, Part.Silent f → K Unit (Partwise.changePart line f)
  /-- A voice follows the lyrics and slurs of a note. -/
  singNote : ∀ {settings : Settings} {key : VoiceKey} {note : Note} {lyrics : List Element},
    K Note (Partwise.singNote settings key note lyrics)
  /-- A voice takes in a member of a chord. -/
  joinInVoice : ∀ {key : VoiceKey} {note : Note} {chordOpen : Bool},
    K Unit (Partwise.joinChord.joinInVoice key note chordOpen)

/-- A property of steps that is kept along the text of a procedure, as long as marks that wait for a
note go on waiting. -/
structure Habit (K : (α : Type) → Step α → Prop) : Prop extends Manner K where
  /-- A tuplet that closes may be found to have no members. -/
  hollow : ∀ {line number : Nat}, K Unit (liftM (Partwise.find line (.emptyTuplet number)))

/-- The step may do what only a movement back in time does: find that it goes beyond the start of
the measure, or fail where a negation overflows. -/
structure AllowsBackup (K : (α : Type) → Step α → Prop) : Prop where
  overflow : ∀ (x : WholeNotes) (line : Nat),
    K WholeNotes (liftM (demand x.neg? (.overflow line)))
  find : ∀ (line : Nat) (duration : WholeNotes) (measure : String) (before : WholeNotes),
    K Unit (liftM (Partwise.find line (.backupBeforeMeasureStart duration measure before)))

/-- Backups are allowed wherever any step is that only writes a journal. -/
theorem AllowsBackup.of_lift {K : (α : Type) → Step α → Prop}
    (hlift : ∀ {α : Type} (x : Journaled α), K α (liftM x)) : AllowsBackup K where
  overflow _ _ := hlift _
  find _ _ _ _ := hlift _

/-- The step may find what only the end of a measure does: that a voice is not as long as others. -/
def AllowsShort (K : (α : Type) → Step α → Prop) : Prop :=
  ∀ (line : Nat) (measure : String) (voice staff : Nat) (lasts longest : WholeNotes),
    K Unit (liftM (Partwise.find line (.incompleteVoice measure voice staff lasts longest)))

/-- Voices that end early may be found wherever any step is allowed that only writes a journal. -/
theorem AllowsShort.of_lift {K : (α : Type) → Step α → Prop}
    (hlift : ∀ {α : Type} (x : Journaled α), K α (liftM x)) : AllowsShort K :=
  fun _ _ _ _ _ _ => hlift _

/-- A manner that does not mind what becomes of the marks that wait for a note. -/
structure MarkManner (K : (α : Type) → Step α → Prop) : Prop extends Manner K where
  changeMarks : ∀ {f : Passage → Passage}, Passage.Silent f → K Unit (Partwise.changePassage f)

/-- A habit that does not mind it either. -/
structure MarkHabit (K : (α : Type) → Step α → Prop) : Prop extends Habit K, MarkManner K

/-- A property of steps that is kept along the text of a procedure. -/
structure Discipline (K : (α : Type) → Step α → Prop) : Prop extends MarkHabit K where
  drop : ∀ {line : Nat} {marks : Attachments} {measure : String},
    K Unit (liftM (Partwise.find line (.attachmentsDropped marks measure)))

/-! ## Header and part list -/

/-- A property of steps that is kept along the text of a procedure that closes groups. -/
structure ListManner (K : (α : Type) → Step α → Prop) : Prop where
  pure : ∀ {α : Type} (a : α), K α (Pure.pure a)
  bind : ∀ {α β : Type} {x : Step α} {f : α → Step β}, K α x → (∀ a, K β (f a)) → K β (x >>= f)
  look : ∀ {α : Type} {f : Reading → Step α}, (∀ r, K α (f r)) → K α (MonadState.get >>= f)
  /-- The reading changes in other things than the passage. -/
  change : ∀ {f : Reading → Reading}, (∀ r, (f r).passage = r.passage) → K Unit (modify f)
  tell : ∀ (e : Event), K Unit (liftM (Partwise.tell e))
  found : ∀ {line : Nat} {finding : Finding}, finding.isOfPartList = true →
    K Unit (liftM (Partwise.find line finding))

/-- A property of steps that is kept along the text of a procedure that reads the header or the part
list. -/
structure HeaderManner (K : (α : Type) → Step α → Prop) : Prop extends ListManner K where
  throw : ∀ {α : Type} (failure : Failure), failure.Due → K α (MonadExcept.throw failure)
  lift : ∀ {α : Type} {x : Journaled α}, Steady x → K α (liftM x)

namespace ListManner

variable {K : (α : Type) → Step α → Prop} {line : Nat}

/-- What holds of steps that close groups holds of all of them one after the other. -/
theorem forM (d : ListManner K) {γ : Type} {f : γ → Step Unit} (hf : ∀ c, K Unit (f c))
    (cs : List γ) : K Unit (cs.forM f) := by
  induction cs with
  | nil => exact d.pure ()
  | cons c cs ih => exact d.bind (hf c) fun _ => ih

/-- What holds of steps that change the part list holds of the end of one group. -/
theorem closeGroup (d : ListManner K) {draft : GroupDraft} :
    K Unit (Partwise.closeGroup draft) :=
  d.bind (d.tell _) fun _ => d.change fun _ => rfl

/-- What holds of steps that change the part list holds of the end of the list, which closes all
groups. -/
theorem closeGroups (d : ListManner K) : K Unit (Partwise.closeGroups line) := by
  refine d.look fun r => d.forM (fun _ => d.look fun r => ?_) _
  dsimp only
  split
  · refine d.bind (d.change fun _ => rfl) fun _ => ?_
    split
    · exact d.bind (d.found rfl) fun _ => d.closeGroup
    · exact d.closeGroup
  · exact d.pure _

end ListManner

namespace HeaderManner

variable {K : (α : Type) → Step α → Prop} {settings : Settings} {e : Element}

/-- What holds of the steps of headers and part lists holds of the start and of the stop of a group.
-/
theorem readPartGroup (d : HeaderManner K) : K Unit (Partwise.readPartGroup e) := by
  unfold Partwise.readPartGroup
  dsimp only
  split
  · exact d.bind (d.lift (PartGroup.steady ..)) fun _ => d.bind (d.tell _) fun _ =>
      d.change fun _ => rfl
  · refine d.look fun r => ?_
    split
    · exact d.bind (d.change fun _ => rfl) fun _ => d.closeGroup
    · exact d.found rfl
  · exact d.found rfl

/-- What holds of the steps of headers and part lists holds of the declaration of a part. -/
theorem readScorePart (d : HeaderManner K) : K Unit (Partwise.readScorePart e) := by
  unfold Partwise.readScorePart
  split
  · refine d.look fun r => ?_
    split
    · exact d.found rfl
    · refine d.look fun r => ?_
      extract_lets declare
      have hdeclare : ∀ u, K Unit (declare u) := fun _ =>
        d.bind (d.change fun _ => rfl) fun _ => d.bind (d.tell _) fun _ => d.change fun _ => rfl
      split
      · exact d.bind (d.change fun _ => rfl) hdeclare
      · exact hdeclare ()
  · exact d.throw _ trivial

/-- **The elements of the header** and of the part list are read as the manner demands. -/
theorem readLeaf (d : HeaderManner K) (hheader : e.name ∈ headerNames) :
    K Unit (Partwise.readLeaf settings e) := by
  have hidentify (f : Identification → Identification) : K Unit (identify f) :=
    d.change fun _ => rfl
  simp only [headerNames, List.mem_cons, List.not_mem_nil, or_false] at hheader
  unfold Partwise.readLeaf
  rcases hheader with hname | hname | hname | hname | hname | hname <;> simp only [hname]
  · exact hidentify _
  · exact hidentify _
  · exact hidentify _
  · exact hidentify _
  · exact d.readPartGroup
  · exact d.readScorePart

end HeaderManner

/-! ## What a chord refuses -/

/-- A fault that stays one when what is not at fault changes. -/
theorem of_map_eq_error {ε α β : Type} {x : Except ε α} {f : α → β} {fault : ε}
    (h : x.map f = .error fault) : x = .error fault := by
  cases x with
  | error fault' =>
    cases h
    trivial
  | ok a => exact nomatch h

mutual

/-- If a tuplet member refuses a note, the document is to blame. -/
theorem TupletMember.due_join {n : Note} {chordOpen : Bool} {m : TupletMember}
    {fault : StructureFault} (h : m.join n chordOpen = .error fault) (line : Nat) :
    (Failure.inconsistent line fault).Due := by
  match m with
  | .note first =>
    unfold TupletMember.join at h
    split at h <;> cases h
    trivial
  | .chord c =>
    unfold TupletMember.join at h
    split at h <;> cases h
    trivial
  | .tuplet t =>
    unfold TupletMember.join at h
    exact Tuplet.due_join (of_map_eq_error h) line

/-- If a tuplet refuses a note, the document is to blame. -/
theorem Tuplet.due_join {n : Note} {chordOpen : Bool} {t : Tuplet} {fault : StructureFault}
    (h : t.join n chordOpen = .error fault) (line : Nat) :
    (Failure.inconsistent line fault).Due := by
  match t with
  | ⟨_, _, _, _, _, _, _, _, members, _⟩ =>
    unfold Tuplet.join at h
    exact due_joinLastMember members (of_map_eq_error h) line

/-- If the members of a tuplet refuse a note, the document is to blame. -/
theorem due_joinLastMember {n : Note} {chordOpen : Bool} (ms : List TupletMember)
    {fault : StructureFault} (h : joinLastMember n chordOpen ms = .error fault) (line : Nat) :
    (Failure.inconsistent line fault).Due := by
  match ms with
  | [] =>
    cases h
    trivial
  | [m] => exact TupletMember.due_join (of_map_eq_error h) line
  | _ :: m :: ms => exact due_joinLastMember (m :: ms) (of_map_eq_error h) line

end

/-- If a voice refuses a note, the document is to blame. -/
theorem Voice.due_joinChord {v : Voice} {n : Note} {chordOpen : Bool} {fault : StructureFault}
    (h : v.joinChord n chordOpen = .error fault) (line : Nat) :
    (Failure.inconsistent line fault).Due := by
  have hlast : joinLast n chordOpen v.chunk = .error fault := of_map_eq_error h
  generalize v.chunk = es at hlast
  induction es with
  | nil =>
    cases hlast
    trivial
  | cons e es ih =>
    cases es with
    | cons e' es => exact ih (of_map_eq_error hlast)
    | nil =>
      have hone : e.join n chordOpen = .error fault := of_map_eq_error hlast
      unfold VoiceElement.join at hone
      split at hone
      · split at hone <;> cases hone
        trivial
      · split at hone <;> cases hone
        trivial
      · exact Tuplet.due_join (of_map_eq_error hone) line
      · cases hone
        trivial

namespace Manner

variable {K : (α : Type) → Step α → Prop} {line : Nat} {key : VoiceKey} {settings : Settings}

/-! ## Elementary steps -/

/-- A manner holds of a step of which the value is thrown away. -/
theorem discard (d : Manner K) {α : Type} {x : Step α} (hx : K α x) :
    K Unit (Functor.discard x) :=
  d.bind hx fun _ => d.pure _

/-- A manner holds of steps one after the other, one for each element of a list. -/
theorem forM (d : Manner K) {γ : Type} {f : γ → Step Unit} (hf : ∀ c, K Unit (f c))
    (cs : List γ) : K Unit (cs.forM f) := by
  induction cs with
  | nil => exact d.pure ()
  | cons c cs ih => exact d.bind (hf c) fun _ => ih

/-- The passage changes in other things than markers and marks. -/
theorem calmly (d : Manner K) {f : Passage → Passage}
    (hf : ∀ q, (f q).markers = q.markers ∧ (f q).pending = q.pending) :
    K Unit (Partwise.changePassage f) :=
  d.changePassage ⟨fun q => (hf q).1, fun q => (hf q).2⟩

/-- A manner holds of a step that looks at the passage alone, if it does for all that may be seen.
-/
theorem passage (d : Manner K) {α : Type} {f : Reading → Step α}
    (hsame : ∀ r s, r.passage = s.passage → f r = f s) (hf : ∀ r, K α (f r)) :
    K α (MonadState.get >>= f) :=
  d.look (fun r s _ => hsame r s) hf

/-- A manner holds of a change of a voice that leaves alone what barlines have made of it. -/
theorem modifyVoice (d : Manner K) {f : Voice → Voice} (hf : Voice.Silent f) :
    K Unit (Partwise.changePart line fun part => part.modifyVoice key f) :=
  d.changePart (.modifyVoice hf)

/-- A manner holds of such a change where the voice begins by it. -/
theorem changeVoice (d : Manner K) {f : Voice → Voice} (hf : Voice.Silent f) :
    K Unit (Partwise.changeVoice line key f) :=
  d.bind (d.discard d.voiceAt) fun _ => d.modifyVoice hf

/-- An element that is no barline and no repeat is put at the end of a voice. -/
theorem appendTo (d : Manner K) {e : VoiceElement} (he : e.Plain) :
    K Unit (Partwise.appendTo line key e) :=
  d.changeVoice (.append he)

/-! ## The cursor -/

/-- A manner holds of a look at what decoders must know. -/
theorem surroundings (d : Manner K) : K Surroundings (Partwise.surroundings settings) :=
  d.look (fun r s hpart _ => by rw [hpart]) fun _ => d.pure _

/-- A manner holds of the sum of a position and a duration, which fails only if it is out of range.
-/
theorem later (d : Manner K) {position duration : WholeNotes} :
    K WholeNotes (liftM (Partwise.later line position duration)) :=
  d.lift (.demand _ _ id)

/-- A manner holds of the difference of a position and a duration, which fails only if it is out of
range. -/
theorem earlier (d : Manner K) {position duration : WholeNotes} :
    K WholeNotes (liftM (Partwise.earlier line position duration)) :=
  d.lift (.demand _ _ id)

/-- A manner holds of a voice that moves on. -/
theorem advance (d : Manner K) {duration : WholeNotes} :
    K Unit (Partwise.advance line key duration) := by
  refine d.bind d.voiceAt fun _ => d.bind d.later fun _ => d.bind (d.modifyVoice ?_) fun _ =>
    d.calmly ?_
  · exact fun _ => ⟨rfl, rfl⟩
  · exact fun _ => ⟨rfl, rfl⟩

/-- A manner holds of a rest that is put at the end of a voice. -/
theorem rest (d : Manner K) {duration : WholeNotes} :
    K Unit (Partwise.rest line key duration) := by
  refine d.passage (fun r s h => by rw [h]) fun r => d.changeVoice ?_
  intro v
  exact ⟨rfl, (Voice.Silent.append ⟨rfl, rfl⟩ v).2⟩

/-- A manner holds of a voice that is padded up to the position of the document. -/
theorem catchUp (d : Manner K) : K Unit (Partwise.catchUp line key) := by
  refine d.passage (fun r s h => by rw [h]) fun _ => d.bind d.voiceAt fun _ =>
    d.bind d.earlier fun gap => ?_
  split
  · exact d.bind d.rest fun _ => d.bind (d.lift (.tell _)) fun _ => d.advance
  · exact d.pure _

/-- A manner that allows movements back holds of the step by which the document goes back. -/
theorem goBack (d : Manner K) (hback : AllowsBackup K) {duration : WholeNotes} :
    K Unit (Partwise.goBack line duration) := by
  refine d.passage (fun r s h => by rw [h]) fun r => d.bind d.earlier fun position =>
    d.bind (d.calmly ?_) fun _ => d.look (fun r s hpart _ => by rw [hpart]) fun s => ?_
  · exact fun _ => ⟨rfl, rfl⟩
  extract_lets tellBefore
  have hbefore : ∀ reached, K Unit (tellBefore reached) := by
    intro reached
    unfold tellBefore
    split
    · exact d.bind (hback.overflow _ _) fun _ => hback.find _ _ _ _
    · exact d.pure _
  split
  · exact d.bind (d.pure _) hbefore
  · refine d.bind d.earlier fun _ => d.bind (d.modifyVoice ?_) fun _ => d.bind (d.pure _) hbefore
    exact fun _ => ⟨rfl, rfl⟩

/-- A manner holds of the step by which a voice goes forward. -/
theorem goForward (d : Manner K) {duration : WholeNotes} :
    K Unit (Partwise.goForward line key duration) :=
  d.bind d.catchUp fun _ => d.bind d.rest fun _ => d.advance

/-! ## Notes -/

/-- A manner holds of a tuplet that opens. -/
theorem openTuplet (d : Manner K) {position : WholeNotes} {start : TupletStart} :
    K Unit (Partwise.openTuplet line key position start) := by
  refine d.bind d.currentPart fun _ => d.passage (fun r s h => by rw [h]) fun _ =>
    d.bind (d.lift (.tell _)) fun _ => d.calmly ?_
  exact fun _ => ⟨rfl, rfl⟩

/-- A note comes to its place, and the voice moves on. -/
theorem seat (d : Manner K) {note : Note} {isGrace : Bool} {stops : Nat}
    (hclose : K Unit (Partwise.closeTuplets line stops)) : K Unit (do
      match (← get).passage.tuplets with
      | [] => Partwise.appendTo line key (.note note)
      | tuplet :: outer =>
        Partwise.changePassage fun p => { p with tuplets := tuplet.append (.note note) :: outer }
      if isGrace then Partwise.changePassage fun p => p.touch key
      else Partwise.advance line key note.soundingWholeNotes
      Partwise.closeTuplets line stops) := by
  refine d.passage (fun r s h => by simp only [h]) fun r => ?_
  extract_lets stop move
  have hmove : ∀ u, K Unit (move u) := by
    intro u
    unfold move
    split
    · exact d.bind (d.calmly fun _ => ⟨rfl, rfl⟩) fun _ => hclose
    · exact d.bind d.advance fun _ => hclose
  split
  · exact d.bind (d.appendTo ⟨rfl, rfl⟩) hmove
  · exact d.bind (d.calmly fun _ => ⟨rfl, rfl⟩) hmove

/-- A member of a chord comes to its place. -/
theorem fold (d : Manner K) {note : Note} {stops : Nat}
    (hclose : K Unit (Partwise.closeTuplets line stops)) : K Unit (do
      if !settings.ignoreLyrics && !note.slurs.isEmpty then
        Partwise.changeVoice line key fun voice => voice.markSlurs note.slurs .none
      tell (.chordMember line key)
      let passage := (← get).passage
      let chordOpen := passage.chord? = some key
      match passage.tuplets with
      | tuplet :: outer =>
        if passage.tupletKey? = some key then
          match tuplet.join note chordOpen with
          | .ok joined => Partwise.changePassage fun p => { p with tuplets := joined :: outer }
          | .error fault => MonadExcept.throw (.inconsistent line fault)
        else joinChord.joinInVoice key note chordOpen
      | [] => joinChord.joinInVoice key note chordOpen
      Partwise.changePassage fun p => { p with chord? := some key }.touch key
      Partwise.closeTuplets line stops) := by
  extract_lets stop join
  have hstop : ∀ u, K Unit (stop u) := fun _ =>
    d.bind (d.calmly fun _ => ⟨rfl, rfl⟩) fun _ => hclose
  have hjoin : ∀ u, K Unit (join u) := by
    intro u
    refine d.bind (d.lift (.tell _)) fun _ => d.passage (fun r s h => by simp only [h]) fun r => ?_
    extract_lets passage chordOpen
    split
    · split
      · split
        · exact d.bind (d.calmly fun _ => ⟨rfl, rfl⟩) hstop
        · next hjoin => exact d.bind (d.throw _ (Tuplet.due_join hjoin _)) hstop
      · exact d.bind d.joinInVoice hstop
    · exact d.bind d.joinInVoice hstop
  split
  · exact d.bind (d.changeVoice (Voice.Silent.markSlurs _ _)) hjoin
  · exact hjoin ()

/-! ## Signs -/

/-- A manner holds of divisions that are read. -/
theorem readDivisions (d : Manner K) {e : Element} : K Unit (Partwise.readDivisions e) := by
  refine d.bind (d.lift (steady_divisionsOfElement e)) fun perWhole =>
    d.bind (d.changePart ?_) fun _ => d.lift (.tell _)
  exact .mapVoices_of (fun _ => rfl) (fun _ => rfl) fun _ => ⟨rfl, rfl⟩

/-- A manner holds of a sign that is read from a child of an element, if it leaves alone what
barlines have made of the voices. -/
theorem changeByChild (d : Manner K) {α : Type} {e : Element} {name : String}
    {read : Element → Journaled α} {f : Part → α → Part} (hread : ∀ e, Steady (read e))
    (hf : ∀ a, Part.Silent fun p => f p a) : K Unit (Partwise.changeByChild e name read f) := by
  unfold Partwise.changeByChild
  split
  · exact d.bind (d.lift (hread _)) fun a => d.changePart (hf a)
  · exact d.pure _

/-- A manner holds of signs. -/
theorem readAttributes (d : Manner K) {e : Element} : K Unit (Partwise.readAttributes e) := by
  unfold Partwise.readAttributes
  extract_lets signs
  have hsigns : ∀ u, K Unit (signs u) := by
    intro u
    refine d.bind (d.changeByChild Key.steady ?_) fun _ =>
      d.bind (d.changeByChild Time.steady ?_) fun _ =>
      d.bind (d.changeByChild steady_staffCountOfElement ?_) fun _ =>
      d.bind (d.forM (fun child => ?_) _) fun _ => d.forM (fun child => d.lift (.find _ _ rfl)) _
    · exact fun key => .mapVoices_of (fun _ => rfl) (fun _ => rfl) (.append ⟨rfl, rfl⟩)
    · exact fun time => .mapVoices_of (fun _ => rfl) (fun _ => rfl) (.append ⟨rfl, rfl⟩)
    · exact fun count => fun p => ⟨rfl, fun _ => rfl⟩
    · refine d.bind (d.lift (Clef.steady child)) fun clef => d.changePart ?_
      refine .mapVoices_of (fun _ => rfl) (fun _ => rfl) fun v => ?_
      split
      · exact Voice.Silent.append ⟨rfl, rfl⟩ v
      · exact ⟨rfl, rfl⟩
  split
  · exact d.bind d.readDivisions hsigns
  · exact hsigns ()

/-- A manner holds of sounds. -/
theorem readSound (d : Manner K) {e : Element} : K Unit (Partwise.readSound e) := by
  unfold Partwise.readSound
  split
  · exact d.lift (.find _ _ rfl)
  · exact d.passage (fun r s h => by rw [h]) fun _ => d.appendTo ⟨rfl, rfl⟩

/-! ## Boundaries -/

/-- A manner holds of the checks that are owed at the end of a measure. -/
theorem checkBars (d : Manner K) {next? : Option String} :
    K Unit (Partwise.checkBars line next?) :=
  d.passage (fun r s h => by simp only [h]) fun _ =>
    d.bind (d.calmly fun _ => ⟨rfl, rfl⟩) fun _ => d.forM (fun _ => d.appendTo ⟨rfl, rfl⟩) _

/-- A manner holds of the beginning of a measure. -/
theorem enterMeasure (d : Manner K) {e : Element} : K Unit (Partwise.enterMeasure e) := by
  refine d.bind d.checkBars fun _ => d.bind (d.lift (.tell _)) fun _ =>
    d.bind (d.changePart ?_) fun _ => d.calmly fun _ => ⟨rfl, rfl⟩
  exact .mapVoices_of (fun _ => rfl) (fun _ => rfl) fun _ => ⟨rfl, rfl⟩

end Manner

namespace Habit

variable {K : (α : Type) → Step α → Prop} {line : Nat} {key : VoiceKey} {settings : Settings}

/-! ## Tuplets that close -/

/-- A habit holds of a tuplet that closes, which may be found to have no members. -/
theorem closeTuplet (d : Habit K) : K Unit (Partwise.closeTuplet line) := by
  refine d.passage (fun r s h => by rw [h]) fun r => ?_
  split
  · exact d.throw _ trivial
  · refine d.bind (d.calmly fun _ => ⟨rfl, rfl⟩) fun _ => ?_
    split
    · exact d.hollow
    · refine d.bind (d.lift (.tell _)) fun _ => ?_
      split
      · exact d.appendTo ⟨rfl, rfl⟩
      · exact d.calmly fun _ => ⟨rfl, rfl⟩

/-- A habit holds of some tuplets that close one after the other. -/
theorem closeTuplets (d : Habit K) {count : Nat} : K Unit (Partwise.closeTuplets line count) :=
  d.forM (fun _ => d.closeTuplet) _

/-- A habit holds of all open tuplets, which close where the music does not go on with them. -/
theorem drainTuplets (d : Habit K) : K Unit (Partwise.drainTuplets line) := by
  refine d.passage (fun r s h => by rw [h]) fun r => ?_
  dsimp only
  split
  · exact d.bind (d.lift (.find _ _ rfl)) fun _ => d.closeTuplets
  · exact d.pure _

/-- A habit holds of music that breaks off. -/
theorem breakOff (d : Habit K) : K Unit (Partwise.breakOff line) :=
  d.bind d.drainTuplets fun _ => d.calmly fun _ => ⟨rfl, rfl⟩

/-! ## Movements in time -/

/-- A habit holds of what comes before a movement in time: the music breaks off, and the duration is
read. -/
theorem movement (d : Habit K) {e : Element} :
    K WholeNotes (Partwise.movement settings e) :=
  d.bind d.breakOff fun _ => d.bind d.surroundings fun known => d.lift (known.steady_duration e)

/-- A habit that allows movements back holds of backup elements. -/
theorem readBackup (d : Habit K) (hback : AllowsBackup K) {e : Element} :
    K Unit (Partwise.readBackup settings e) :=
  d.bind d.movement fun _ => d.goBack hback

/-- A habit holds of forward elements. -/
theorem readForward (d : Habit K) {e : Element} : K Unit (Partwise.readForward settings e) :=
  d.bind d.movement fun _ => d.bind d.surroundings fun known =>
    d.passage (fun r s h => by rw [h]) fun _ =>
    d.bind (d.lift (known.steady_place e _)) fun _ => d.goForward

/-! ## Elements -/

/-- The elements of music are read as the habit demands that are no notes, no directions and no
barlines. -/
theorem readSigns (d : Habit K) {e : Element} (hheader : e.name ∉ headerNames)
    (hbarline : e.name ≠ "barline") (hnote : e.name ≠ "note") (hdirection : e.name ≠ "direction")
    (hback : e.name = "backup" → AllowsBackup K) : K Unit (Partwise.readLeaf settings e) := by
  unfold Partwise.readLeaf
  split
  · next hname => simp [hname, headerNames] at hheader
  · next hname => simp [hname, headerNames] at hheader
  · next hname => simp [hname, headerNames] at hheader
  · next hname => simp [hname, headerNames] at hheader
  · next hname => simp [hname, headerNames] at hheader
  · next hname => simp [hname, headerNames] at hheader
  · exact d.readAttributes
  · next hname => exact absurd hname hnote
  · next hname => exact d.readBackup (hback hname)
  · exact d.readForward
  · next hname => exact absurd hname hbarline
  · next hname => exact absurd hname hdirection
  · exact d.readSound
  · exact d.lift (.find _ _ rfl)
  · exact d.lift (.find _ _ rfl)
  · exact d.lift (.find _ _ rfl)
  · exact d.lift (.tell _)

end Habit

namespace MarkManner

variable {K : (α : Type) → Step α → Prop} {line : Nat} {key : VoiceKey} {settings : Settings}

/-- A manner that does not mind waiting marks holds of a note that takes them. -/
theorem takePending (d : MarkManner K) {note : Note} :
    K Note (Partwise.takePending settings note) := by
  refine d.passage (fun r s h => by rw [h]) fun r => ?_
  dsimp only
  split
  · exact d.pure _
  · split
    · exact d.pure _
    · split
      · exact d.bind (d.lift (.find _ _ rfl)) fun _ => d.bind (d.changeMarks fun _ => rfl) fun _ =>
          d.pure _
      · exact d.bind (d.changeMarks fun _ => rfl) fun _ => d.pure _

/-- A manner that does not mind waiting marks holds of a note that is placed, if it holds of the
tuplets that close behind it. -/
theorem placeNote (d : MarkManner K) {input : NoteInput}
    (hclose : K Unit (Partwise.closeTuplets input.note.line input.tupletStops)) :
    K Unit (Partwise.placeNote settings input) := by
  refine d.bind d.catchUp fun _ => d.bind d.voiceAt fun voice =>
    d.passage (fun r s h => by rw [h]) fun r => d.bind (d.forM (fun _ => d.openTuplet) _) fun _ =>
    d.passage (fun r s h => by rw [h]) fun s => ?_
  extract_lets _ _ note stop seat
  have hseat : ∀ note, K Unit (seat note) := fun _ => d.seat hclose
  split
  · exact d.bind (d.pure _) hseat
  · exact d.bind d.takePending fun _ => d.bind d.singNote hseat

/-- A manner that does not mind waiting marks holds of a member of a chord, if it holds of the
tuplets that close behind it. -/
theorem joinChord (d : MarkManner K) {input : NoteInput}
    (hclose : K Unit (Partwise.closeTuplets input.note.line input.tupletStops)) :
    K Unit (Partwise.joinChord settings input) := by
  unfold Partwise.joinChord
  extract_lets key line stop take
  have htake : ∀ u, K Unit (take u) := fun _ => d.bind d.takePending fun _ => d.fold hclose
  split
  · exact d.bind (d.throw _ trivial) htake
  · exact htake ()

/-- A manner that does not mind waiting marks holds of directions, which bring them. -/
theorem readDirection (d : MarkManner K) {e : Element} :
    K Unit (Partwise.readDirection settings e) :=
  d.passage (fun r s h => by rw [h]) fun _ => d.bind d.surroundings fun known =>
    d.bind (d.lift (known.steady_place e _)) fun _ =>
    d.bind (d.lift (DirectionContent.steady e)) fun _ =>
    d.bind (d.changeMarks fun _ => rfl) fun _ => d.forM (fun _ => d.appendTo ⟨rfl, rfl⟩) _

/-- A manner that does not mind waiting marks and allows the finding holds of the marks that are
dropped. -/
theorem dropPending (d : MarkManner K)
    (hdrop : ∀ {marks : Attachments} {measure : String},
      K Unit (liftM (Partwise.find line (.attachmentsDropped marks measure)))) :
    K Unit (Partwise.dropPending line) := by
  refine d.passage (fun r s h => by rw [h]) fun r => ?_
  dsimp only
  split
  · exact d.pure _
  · exact d.bind (d.changeMarks fun _ => rfl) fun _ => hdrop

end MarkManner

namespace MarkHabit

variable {K : (α : Type) → Step α → Prop} {line : Nat} {key : VoiceKey} {settings : Settings}

/-- A habit that does not mind waiting marks holds of note elements. -/
theorem readNote (d : MarkHabit K) {e : Element} : K Unit (Partwise.readNote settings e) := by
  refine d.bind d.surroundings fun _ => d.bind (d.lift (NoteInput.steady ..)) fun input =>
    d.bind (d.changeMarks fun _ => rfl) fun _ => d.bind (d.lift (.tell _)) fun _ => ?_
  split
  · exact d.joinChord d.closeTuplets
  · refine d.bind (d.changeMarks fun _ => rfl) fun _ =>
      d.passage (fun r s h => by rw [h]) fun r => ?_
    dsimp only
    split
    · exact d.bind d.drainTuplets fun _ => d.placeNote d.closeTuplets
    · exact d.placeNote d.closeTuplets

/-- **The elements of music** that are no barlines are read as the habit demands. -/
theorem readMusic (d : MarkHabit K) {e : Element} (hheader : e.name ∉ headerNames)
    (hbarline : e.name ≠ "barline") (hback : e.name = "backup" → AllowsBackup K) :
    K Unit (Partwise.readLeaf settings e) := by
  by_cases hnote : e.name = "note"
  · simp only [Partwise.readLeaf, hnote]
    exact d.readNote
  · by_cases hdirection : e.name = "direction"
    · simp only [Partwise.readLeaf, hdirection]
      exact d.readDirection
    · exact d.readSigns hheader hbarline hnote hdirection hback

end MarkHabit

namespace Discipline

variable {K : (α : Type) → Step α → Prop} {line : Nat} {key : VoiceKey} {settings : Settings}

/-- A discipline holds of music that settles. -/
theorem settle (d : Discipline K) : K Unit (Partwise.settle line) :=
  d.bind d.breakOff fun _ => d.dropPending d.drop

/-- A discipline that allows the finding of short voices holds of the end of a measure. -/
theorem leaveMeasure (d : Discipline K) (hshort : AllowsShort K) {e : Element} :
    K Unit (Partwise.leaveMeasure e) :=
  d.bind d.settle fun _ => d.passage (fun r s h => by simp only [h]) fun _ =>
    d.forM (fun _ => hshort _ _ _ _ _ _) _

end Discipline

/-! ## Disciplines that barlines keep, too -/

/-- A property of steps that is kept along the text of a procedure, whatever becomes of the part, as
long as it keeps its id, no tuplet closes and marks that wait for a note go on waiting. -/
structure PartManner (K : (α : Type) → Step α → Prop) : Prop where
  pure : ∀ {α : Type} (a : α), K α (Pure.pure a)
  throw : ∀ {α : Type} (failure : Failure), failure.Due →
    K α (MonadExcept.throw failure)
  lift : ∀ {α : Type} {x : Journaled α}, Steady x → K α (liftM x)
  bind : ∀ {α β : Type} {x : Step α} {f : α → Step β}, K α x → (∀ a, K β (f a)) → K β (x >>= f)
  /-- A look at the part that is being read and at the passage. -/
  look : ∀ {α : Type} {f : Reading → Step α},
    (∀ r s, r.part? = s.part? → r.passage = s.passage → f r = f s) → (∀ r, K α (f r)) →
      K α (MonadState.get >>= f)
  currentPart : ∀ {line : Nat}, K Part (Partwise.currentPart line)
  voiceAt : ∀ {line : Nat} {key : VoiceKey}, K Voice (Partwise.voiceAt line key)
  changePassage : ∀ {f : Passage → Passage}, (∀ q, (f q).pending = q.pending) →
    K Unit (Partwise.changePassage f)
  changePart : ∀ {line : Nat} {f : Part → Part}, (∀ p, (f p).id = p.id) →
    K Unit (Partwise.changePart line f)

/-- A property of steps that is kept along the text of a procedure, whatever becomes of the part, as
long as it keeps its id and marks that wait for a note go on waiting. -/
structure PartHabit (K : (α : Type) → Step α → Prop) : Prop extends PartManner K where
  /-- A tuplet that closes may be found to have no members. -/
  hollow : ∀ {line number : Nat}, K Unit (liftM (Partwise.find line (.emptyTuplet number)))

/-- A property of steps that is kept along the text of a procedure, whatever becomes of the passage
and of the part, as long as the part keeps its id. -/
structure PartDiscipline (K : (α : Type) → Step α → Prop) : Prop extends PartHabit K where
  changeMarks : ∀ {f : Passage → Passage}, K Unit (Partwise.changePassage f)
  drop : ∀ {line : Nat} {marks : Attachments} {measure : String},
    K Unit (liftM (Partwise.find line (.attachmentsDropped marks measure)))

namespace PartManner

variable {K : (α : Type) → Step α → Prop} {line : Nat} {key : VoiceKey} {settings : Settings}

/-- A manner of parts holds of steps that each give a value, one for each element of a list. -/
theorem mapM (d : PartManner K) {α γ : Type} {f : γ → Step α} (hf : ∀ c, K α (f c))
    (cs : List γ) : K (List α) (cs.mapM f) := by
  induction cs with
  | nil => exact d.pure []
  | cons c cs ih =>
    rw [List.mapM_cons]
    exact d.bind (hf c) fun _ => d.bind ih fun _ => d.pure _

/-- A manner of parts holds of steps one after the other, one for each element of a list. -/
theorem forM (d : PartManner K) {γ : Type} {f : γ → Step Unit} (hf : ∀ c, K Unit (f c))
    (cs : List γ) : K Unit (cs.forM f) := by
  induction cs with
  | nil => exact d.pure ()
  | cons c cs ih => exact d.bind (hf c) fun _ => ih

/-- A manner of parts holds of a note that sings. -/
theorem singNote (d : PartManner K) {note : Note} {lyrics : List Element} :
    K Note (Partwise.singNote settings key note lyrics) := by
  unfold Partwise.singNote
  split
  · exact d.pure _
  · exact d.bind (d.mapM (fun e => d.lift (Lyric.steady e)) _) fun _ => d.bind d.voiceAt fun _ =>
      d.bind (d.forM (fun _ => d.lift (.tell _)) _) fun _ => d.bind (d.changePart fun _ => rfl)
        fun _ => d.pure _

/-- A manner of parts holds of a member of a chord that joins its voice. -/
theorem joinInVoice (d : PartManner K) {note : Note} {chordOpen : Bool} :
    K Unit (Partwise.joinChord.joinInVoice key note chordOpen) := by
  refine d.bind d.voiceAt fun _ => ?_
  split
  · exact d.changePart fun _ => rfl
  · next hjoin => exact d.throw _ (Voice.due_joinChord hjoin _)

/-- A manner of parts is a manner. -/
theorem manner (d : PartManner K) : Manner K where
  pure := d.pure
  throw := d.throw
  lift := d.lift
  bind := d.bind
  look := d.look
  currentPart := d.currentPart
  voiceAt := d.voiceAt
  changePassage hf := d.changePassage hf.pending
  changePart hf := d.changePart fun p => (hf p).1
  singNote := d.singNote
  joinInVoice := d.joinInVoice

/-- All voices change, each by itself. -/
theorem changeVoices (d : PartManner K) {f : Voice → Voice × Option Closing} :
    K Unit (Partwise.changeVoices line f) := by
  refine d.bind d.currentPart fun part => d.bind (d.forM (fun voice => ?_) _) fun _ =>
    d.changePart fun _ => rfl
  split
  · exact d.lift (.tell _)
  · exact d.pure _

/-- A manner of parts holds of repeats that end with the part. -/
theorem endRepeats (d : PartManner K) : K Unit (Partwise.endRepeats line) := by
  refine d.manner.passage (fun r s h => by simp only [h]) fun r =>
    d.bind (d.changePassage fun _ => rfl) fun _ => d.bind d.currentPart fun part =>
    d.bind d.changeVoices fun _ => ?_
  split
  · exact d.lift (.find _ _ rfl)
  · exact d.pure _

end PartManner

namespace PartHabit

variable {K : (α : Type) → Step α → Prop} {line : Nat} {key : VoiceKey} {settings : Settings}

/-- A habit of parts is a habit. -/
theorem habit (d : PartHabit K) : Habit K where
  toManner := d.manner
  hollow := d.hollow

/-- A habit of parts holds of barlines. -/
theorem readBarline (d : PartHabit K) {e : Element} : K Unit (Partwise.readBarline e) :=
  d.bind d.habit.breakOff fun _ => d.habit.passage (fun r s h => by simp only [h]) fun _ =>
    d.bind (d.lift (Barline.steady e _)) fun _ => d.bind (d.lift (.tell _)) fun _ =>
    d.bind (d.habit.discard d.voiceAt) fun _ => d.bind (d.changePassage fun _ => rfl)
    fun _ => d.changeVoices

end PartHabit

namespace PartDiscipline

variable {K : (α : Type) → Step α → Prop} {settings : Settings}

/-- A discipline of parts is a discipline, so all music is read as it demands. -/
theorem discipline (d : PartDiscipline K) : Discipline K where
  toHabit := d.habit
  changeMarks _ := d.changeMarks
  drop := d.drop

/-- **All elements of music** are read as the discipline demands. -/
theorem readMusic (d : PartDiscipline K) {e : Element} (hheader : e.name ∉ headerNames)
    (hback : e.name = "backup" → AllowsBackup K) : K Unit (Partwise.readLeaf settings e) := by
  by_cases hbarline : e.name = "barline"
  · simp only [Partwise.readLeaf, hbarline]
    exact d.readBarline
  · exact d.discipline.readMusic hheader hbarline hback

end PartDiscipline

end Partwise
