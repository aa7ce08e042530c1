import Partwise.Proofs.Music.Nesting
import Partwise.Proofs.Reading.Parallels

/-!
# Reading · Policies: what the settings decide

Settings decide which voices are accepted, which marks a note takes and what it sings. A `Policy`
says that two readings under two settings come to the same in this; whatever else is done with
notes, directions and boundaries is then done alike (`Likeness.Lawful.readNote` and the theorems
after it).

Under the same settings a likeness needs little for that: notes and waiting marks are the same, and
voices that are alike sing the same (`Likeness.Sings.policy`).
-/

namespace Partwise

open Markup

variable {α β : Type}

/-! ## What is known besides -/

/-- A voice has begun in the part that is being read. -/
def Reading.HasVoice (key : VoiceKey) (r : Reading) : Prop :=
  ∃ p, r.part? = some p ∧ (p.voice? key).isSome

/-- The voice that a tuplet is open for has begun. -/
def Reading.Begun (r : Reading) : Prop :=
  ∀ key, r.passage.tupletKey? = some key → r.HasVoice key

/-- A voice that is looked at has begun. -/
theorem Ends.hasVoice {r t : Reading} {line : Nat} {key : VoiceKey} {v : Voice}
    (h : Ends (voiceAt line key) r v t) : t.HasVoice key := by
  obtain ⟨part, _, hcurrent, _⟩ := h.bind
  have hbecomes := ((Becomes.refl hcurrent.currentPart.1).voiceAt h).2
  exact ⟨part.ensureVoice key, hbecomes.part?, part.isSome_voice?_ensureVoice key⟩

/-- A tuplet opens and leaves the part as it is. -/
theorem Ends.part?_openTuplet {r t : Reading} {line : Nat} {key : VoiceKey} {position : WholeNotes}
    {start : TupletStart} {u : Unit} (h : Ends (openTuplet line key position start) r u t) :
    t.part? = r.part? := by
  obtain ⟨_, _, hcurrent, hrest⟩ := h.bind
  obtain ⟨_, _, hget, hrest⟩ := hrest.bind
  obtain ⟨_, _, htell, hrest⟩ := hrest.bind
  rw [hrest.changePassage, htell.tell, ← hget.get.2, hcurrent.currentPart.2]
  rfl

namespace Likeness.Alike

variable {L : Likeness} {r s : Reading} {key : VoiceKey}

/-- If the parts of one reading are distinct, those of an alike one are. -/
theorem distinct' (hL : L.Lawful) (h : L.Alike r s) : (s.parts.map Part.id).Nodup := by
  rw [← h.ids hL]
  exact h.distinct

/-- A voice has begun on both sides. -/
theorem hasVoice (hL : L.Lawful) (h : L.Alike r s) (hvoice : r.HasVoice key) :
    s.HasVoice key := by
  obtain ⟨p, hp, hsome⟩ := hvoice
  have hpart := h.part
  rw [hp] at hpart
  generalize hq : s.part? = q? at hpart
  cases hpart with
  | some hpq => exact ⟨_, hq, by rw [← hL.isSome_voice? hpq]; exact hsome⟩

end Likeness.Alike

/-! ## Policies -/

/-- Two notes are alike that were read, before they come to their places and wherever they come. -/
structure Likeness.Inputs (L : Likeness) (i i' : NoteInput) : Prop where
  note : L.note i.note i'.note
  placed : ∀ position measure kind,
    L.note { i.note with positionInMeasure := position, measureNumber := measure, kind := kind }
      { i'.note with positionInMeasure := position, measureNumber := measure, kind := kind }
  isRest : i.note.isRest = i'.note.isRest
  key : i.key = i'.key
  inChord : i.inChord = i'.inChord
  isGrace : i.isGrace = i'.isGrace
  tupletStarts : i.tupletStarts = i'.tupletStarts
  tupletStops : i.tupletStops = i'.tupletStops
  belongs : i.belongsToTuplet = i'.belongsToTuplet
  lyrics : L.strict → i.lyrics = i'.lyrics

/-- A note that has not sung yet is alike to itself. -/
theorem Likeness.Inputs.refl {L : Likeness} (hL : L.Lawful) {i : NoteInput}
    (hsilent : i.note.lyrics = []) : L.Inputs i i where
  note := hL.noteSame _ hsilent
  placed _ _ _ := hL.noteSame _ hsilent
  isRest := rfl
  key := rfl
  inChord := rfl
  isGrace := rfl
  tupletStarts := rfl
  tupletStops := rfl
  belongs := rfl
  lyrics _ := rfl

/-- Under the first settings everything that depends on them is done as under the second ones. -/
structure Policy (L : Likeness) (settings settings' : Settings) : Prop where
  place : ∀ {r s}, L.Alike r s → ∀ e current,
    Concur L.toStandard Eq ((r.surroundings settings).place e current)
      ((s.surroundings settings').place e current)
  takePending : ∀ {n n'}, L.note n n' →
    L.Parallel L.note (takePending settings n) (takePending settings' n')
  singNote : ∀ {key n n' lyrics lyrics'}, L.note n n' → (L.strict → lyrics = lyrics') →
    Partwise.Parallel L.toStandard (L.With (Reading.HasVoice key)) L.Alike L.note
      (singNote settings key n lyrics) (singNote settings' key n' lyrics')
  joinChord : ∀ {i i'}, L.Inputs i i' →
    Partwise.Parallel L.toStandard (L.With Reading.Begun) L.Alike Eq (joinChord settings i)
      (joinChord settings' i')
  dropPending : ∀ line, L.Parallel Eq (dropPending line) (dropPending line)

/-! ## Notes -/

/-- What is done with a note that was read. -/
def performNote (settings : Settings) (line : Nat) (input : NoteInput) : Step Unit := do
  let key := input.key
  changePassage fun p => { p with current := key }
  tell (.noteRead line input.note.content key input.note.soundingWholeNotes input.inChord)
  if input.inChord then joinChord settings input
  else
    changePassage fun p => { p with chord? := none }
    let passage := (← get).passage
    if !input.belongsToTuplet || passage.tupletKey? ≠ some key then drainTuplets line
    placeNote settings input

/-- A note is read, and then it is done what a note demands. -/
theorem readNote_eq (settings : Settings) (e : Element) :
    readNote settings e = (do
      let input ← NoteInput.ofElement (← surroundings settings) e
      performNote settings e.line input) :=
  rfl

namespace Likeness.Lawful

variable {L : Likeness} {line : Nat} {key : VoiceKey} {settings settings' : Settings} {e : Element}

/-- Alike notes are placed alike under policies that go together. -/
theorem placeNote (hL : L.Lawful) (hopens : L.Opens) (P : Policy L settings settings')
    {i i' : NoteInput} (hi : L.Inputs i i') :
    L.Parallel Eq (Partwise.placeNote settings i) (Partwise.placeNote settings' i') := by
  have hvoice : ∀ {line key}, Partwise.Parallel L.toStandard L.Alike
      (L.With (Reading.HasVoice key)) (fun v w => v.positionInMeasure = w.positionInMeasure)
      (Partwise.voiceAt line key) (Partwise.voiceAt line key) :=
    fun r s h => (hL.voiceAt r s h).keep fun _ _ hrun => hrun.hasVoice
  have hopen : ∀ {line key position} start, Partwise.Parallel L.toStandard
      (L.With (Reading.HasVoice key)) (L.With (Reading.HasVoice key)) Eq
      (Partwise.openTuplet line key position start) (Partwise.openTuplet line key position start) :=
    fun start => .of_keeps (hL.openTuplet hopens) fun r _ t hr hrun => by
      rwa [Reading.HasVoice, hrun.part?_openTuplet]
  unfold Partwise.placeNote
  rw [hi.key, hL.noteLine hi.note, hi.tupletStarts, hi.isGrace, hi.tupletStops]
  refine Parallel.bind hL.catchUp fun _ _ _ => Parallel.bind hvoice fun v w hvw =>
    Parallel.get fun r s h => ?_
  rw [hvw, h.1.passage.measureNumber]
  refine Parallel.bind (Parallel.forM fun start _ => hopen start) (fun _ _ _ =>
    Parallel.get fun r' s' h' => ?_) r s h
  rw [h'.1.passage.isEmpty]
  extract_lets inTuplet read note stop seat read' note'
  have hseat : ∀ n n', L.note n n' → L.Parallel Eq (seat n) (seat n') :=
    fun _ _ hn => hL.seat hn
  have hkind : noteKind i.note i'.isGrace inTuplet = noteKind i'.note i'.isGrace inTuplet := by
    simp only [noteKind, hi.isRest]
  have hnote : L.note note note' := by
    unfold note note'
    rw [hkind]
    exact hi.placed _ _ _
  split
  · exact ((Parallel.pure hnote).bind hseat) r' s' h'.1
  · have htake : Partwise.Parallel L.toStandard (L.With (Reading.HasVoice i'.key))
        (L.With (Reading.HasVoice i'.key)) L.note (takePending settings note)
        (takePending settings' note') :=
      .of_keeps (P.takePending hnote) fun r _ t hr hrun => by
        rw [hrun.takePending_eq.2]
        exact hr
    exact Parallel.bind htake (fun n n' hn => Parallel.bind (P.singNote hn hi.lyrics) hseat)
      r' s' h'

/-- What alike notes demand is done alike under policies that go together. -/
theorem performNote (hL : L.Lawful) (hopens : L.Opens) (P : Policy L settings settings')
    {i i' : NoteInput} (hi : L.Inputs i i') :
    Partwise.Parallel L.toStandard (L.With Reading.Begun) L.Alike Eq
      (Partwise.performNote settings line i) (Partwise.performNote settings' line i') := by
  have hturn : Partwise.Parallel L.toStandard (L.With Reading.Begun) (L.With Reading.Begun) Eq
      (Partwise.changePassage fun p => { p with current := i'.key })
      (Partwise.changePassage fun p => { p with current := i'.key }) :=
    .modify fun r s h => ⟨{ h.1 with passage := { h.1.passage with current := rfl } }, h.2⟩
  unfold Partwise.performNote
  rw [hi.key, hi.inChord, hi.belongs]
  refine hturn.bind fun _ _ _ => Parallel.bind (.lift (.tell _ _)) fun _ _ _ => ?_
  split
  · exact P.joinChord hi
  · refine fun r s h => Parallel.bind (changePassage fun _ _ h => h.chordOf) (fun _ _ _ =>
      passage fun r s h => ?_) r s h.1
    dsimp only
    rw [h.tupletKey? hL]
    split
    · exact hL.drainTuplets.bind fun _ _ _ => hL.placeNote hopens P hi
    · exact hL.placeNote hopens P hi

/-- Notes are read alike that are decoded to notes that are, or that demand the same. -/
theorem readNote (hL : L.Lawful) (hopens : L.Opens) (P : Policy L settings settings')
    {e e' : Element} (hline : e'.line = e.line)
    (hdecode : ∀ r s, L.Alike r s → Concur L.toStandard
      (fun i i' => ∃ j, L.Inputs i j ∧ Partwise.performNote settings' e.line i' =
        Partwise.performNote settings' e.line j)
      (NoteInput.ofElement (r.surroundings settings) e)
      (NoteInput.ofElement (s.surroundings settings') e')) :
    Partwise.Parallel L.toStandard (L.With Reading.Begun) L.Alike Eq
      (Partwise.readNote settings e) (Partwise.readNote settings' e') := by
  rw [readNote_eq, readNote_eq, hline]
  refine Parallel.get fun r s h => Parallel.bind (.lift (hdecode r s h.1)) ?_ r s h
  rintro i i' ⟨j, hj, hsame⟩
  rw [hsame]
  exact hL.performNote hopens P hj

/-! ## Directions -/

end Likeness.Lawful

/-- Two directions hold what is alike. -/
structure Likeness.Contents (L : Likeness) (c c' : DirectionContent) : Prop where
  marks : ∀ {a b}, L.marks a b → L.marks (a ++ c.attachments) (b ++ c'.attachments)
  standing : List.Forall₂ (fun d d' => L.element (.direction d) (.direction d')) c.standing
    c'.standing

/-- What a direction holds is alike to itself. -/
theorem Likeness.Contents.refl {L : Likeness} (hL : L.Lawful) (c : DirectionContent) :
    L.Contents c c where
  marks h := hL.queue h
  standing := List.forall₂_same.mpr fun d _ => hL.elementDirection d

namespace Likeness.Lawful

variable {L : Likeness} {line : Nat} {key : VoiceKey} {settings settings' : Settings}
  {e e' : Element}

/-- Directions are read alike that are decoded alike. -/
theorem readDirection (hL : L.Lawful) (P : Policy L settings settings') (hline : e'.line = e.line)
    (hplace : ∀ (s : Surroundings) current, s.place e' current = s.place e current)
    (hdecode : Concur L.toStandard L.Contents (DirectionContent.ofElement e)
      (DirectionContent.ofElement e')) :
    L.Parallel Eq (Partwise.readDirection settings e) (Partwise.readDirection settings' e') := by
  unfold Partwise.readDirection
  rw [hline]
  refine passage fun r s h => Parallel.get fun r' s' h' => ?_
  rw [h.current, hplace]
  refine Parallel.bind (.lift (P.place h' e _)) ?_ r' s' h'
  rintro key _ rfl
  refine Parallel.bind (.lift hdecode) fun content content' hcontent => ?_
  exact Parallel.bind (changePassage fun _ _ h => { h with pending := hcontent.marks h.pending })
    fun _ _ _ => .forM₂ (hcontent.standing.imp fun _ _ hdirection => hL.appendTo hdirection)

/-! ## Boundaries -/

/-- What still waits at a boundary is settled alike. -/
theorem settle (hL : L.Lawful) (P : Policy L settings settings') :
    L.Parallel Eq (Partwise.settle line) (Partwise.settle line) :=
  hL.breakOff.bind fun _ _ _ => P.dropPending line

/-- A measure is left alike. -/
theorem leaveMeasure (hL : L.Lawful) (P : Policy L settings settings') :
    L.Parallel Eq (Partwise.leaveMeasure e) (Partwise.leaveMeasure e) := by
  refine (hL.settle P).bind fun _ _ _ => passage fun r s h => ?_
  have hextent : r.passage.extent = s.passage.extent := by
    funext key
    unfold Passage.extent
    rw [h.extents]
  have hlongest : r.passage.longest = s.passage.longest := by
    unfold Passage.longest
    rw [h.extents]
  dsimp only
  rw [h.unchecked, hextent, hlongest, h.measureNumber]
  exact .forM fun key _ => hL.find _

/-- A part ends, in whatever relation the readings come to be. -/
theorem leavePart (hL : L.Lawful) (P : Policy L settings settings')
    {R : Reading → Reading → Prop} (he : L.element (.barCheck none) (.barCheck none))
    (hend : ∀ r s, L.Alike r s → R { r with partId? := none } { s with partId? := none }) :
    Partwise.Parallel L.toStandard L.Alike R Eq (Partwise.leavePart e) (Partwise.leavePart e) := by
  refine Parallel.bind (hL.settle P) fun _ _ _ => Parallel.bind (hL.checkBars he) fun _ _ _ => ?_
  have hvoices : L.Parallel Eq (Partwise.endRepeats e.line >>= fun _ => _) _ := hL.closeVoices
  have hclosed := hvoices.bind (B := Eq) fun _ _ _ => .modify hend
  rw [bind_assoc] at hclosed
  exact hclosed

end Likeness.Lawful

/-! ## Members of chords -/

/-- The voice of a member of a chord follows its slurs, unless all lyrics are left out. -/
def markMember (settings : Settings) (line : Nat) (key : VoiceKey) (note : Note) : Step Unit :=
  if !settings.ignoreLyrics && !note.slurs.isEmpty then
    changeVoice line key fun voice => voice.markSlurs note.slurs .none
  else pure ()

/-- A member of a chord joins what stands last in its voice. -/
def joinMember (line : Nat) (key : VoiceKey) (stops : Nat) (note : Note) : Step Unit := do
  tell (.chordMember line key)
  let passage := (← get).passage
  let chordOpen := passage.chord? = some key
  match passage.tuplets with
  | tuplet :: outer =>
    if passage.tupletKey? = some key then
      match tuplet.join note chordOpen with
      | .ok joined => changePassage fun p => { p with tuplets := joined :: outer }
      | .error fault => throw (.inconsistent line fault)
    else joinChord.joinInVoice key note chordOpen
  | [] => joinChord.joinInVoice key note chordOpen
  changePassage fun p => { p with chord? := some key }.touch key
  closeTuplets line stops

/-- A member of a chord takes the marks that wait, then its slurs are followed, and then it
joins. -/
theorem joinChord_eq (settings : Settings) (input : NoteInput) :
    joinChord settings input =
      if input.note.isRest then throw (.inconsistent input.note.line .restInChord)
      else (do
        let note ← takePending settings input.note
        markMember settings input.note.line input.key note
        joinMember input.note.line input.key input.tupletStops note) := by
  unfold joinChord
  extract_lets key line stop take
  split
  · rfl
  · refine bind_congr fun note => ?_
    unfold markMember
    split <;> rfl

namespace Likeness.Lawful

variable {L : Likeness} {line : Nat} {key : VoiceKey} {settings settings' : Settings}

/-- Alike members join the chords of their voices alike. -/
theorem joinInVoice (hL : L.Lawful) {n n' : Note} (hn : L.note n n') {chordOpen : Bool} :
    L.Parallel Eq (Partwise.joinChord.joinInVoice key n chordOpen)
      (Partwise.joinChord.joinInVoice key n' chordOpen) := by
  unfold Partwise.joinChord.joinInVoice
  rw [hL.noteLine hn]
  refine hL.withVoice fun r s p q v w h hp hq hpq hv hw => ?_
  have houtcomes := hL.joinVoice chordOpen hpq hv hw hn
  generalize v.joinChord n chordOpen = x at houtcomes
  generalize w.joinChord n' chordOpen = y at houtcomes
  cases houtcomes with
  | error => exact hL.throw _ r s h
  | ok hvw => exact hL.changeParts h hp hq hpq rfl hvw

/-- Alike members of chords are read alike. -/
theorem joinMember (hL : L.Lawful) {n n' : Note} (hn : L.note n n') {stops : Nat} :
    L.Parallel Eq (Partwise.joinMember line key stops n) (Partwise.joinMember line key stops n') := by
  refine (tell _ _).bind fun _ _ _ => passage fun r s h => ?_
  have hstop : ∀ u : Unit, L.Parallel Eq
      (do
        Partwise.changePassage fun p => { p with chord? := some key }.touch key
        Partwise.closeTuplets line stops)
      (do
        Partwise.changePassage fun p => { p with chord? := some key }.touch key
        Partwise.closeTuplets line stops) := fun _ =>
    Parallel.bind (changePassage fun _ _ h => h.chordOf.touch) fun _ _ _ => hL.closeTuplets
  dsimp only
  rw [h.tupletKey? hL, h.chord]
  match r.passage.tuplets, s.passage.tuplets, h.tuplets with
  | [], [], .nil => exact (hL.joinInVoice hn).bind fun u _ _ => hstop u
  | t :: ts, t' :: ts', .cons ht hrest =>
    dsimp only
    split
    · have houtcomes := hL.tupletJoin (decide (s.passage.chord? = some key)) ht hn
      generalize t.join n _ = x at houtcomes ⊢
      generalize t'.join n' _ = y at houtcomes ⊢
      cases houtcomes with
      | error => exact Parallel.bind (hL.throw (A := Eq) _) fun u _ _ => hstop u
      | ok hjoined =>
        exact (changePassage fun _ _ h => h.opening (.cons hjoined hrest)).bind fun u _ _ => hstop u
    · exact (hL.joinInVoice hn).bind fun u _ _ => hstop u

/-- Members of chords are read alike, if their slurs are followed alike. -/
theorem joinChord (hL : L.Lawful) {i i' : NoteInput} (hi : L.Inputs i i')
    (htake : L.Parallel L.note (takePending settings i.note) (takePending settings' i'.note))
    (hmark : ∀ n n', L.note n n' → Partwise.Parallel L.toStandard (L.With Reading.Begun) L.Alike Eq
      (do
        markMember settings i.note.line i.key n
        Partwise.joinMember i.note.line i.key i.tupletStops n)
      (do
        markMember settings' i.note.line i.key n'
        Partwise.joinMember i.note.line i.key i.tupletStops n')) :
    Partwise.Parallel L.toStandard (L.With Reading.Begun) L.Alike Eq
      (Partwise.joinChord settings i) (Partwise.joinChord settings' i') := by
  have htake' : Partwise.Parallel L.toStandard (L.With Reading.Begun) (L.With Reading.Begun) L.note
      (takePending settings i.note) (takePending settings' i'.note) :=
    .of_keeps htake fun r _ t hr hrun => by
      rw [hrun.takePending_eq.2]
      exact hr
  rw [joinChord_eq, joinChord_eq, ← hi.isRest, ← hL.noteLine hi.note, ← hi.key, ← hi.tupletStops]
  split
  · exact .throw (hL.failure _)
  · exact Parallel.bind htake' hmark

end Likeness.Lawful

/-! ## Places -/

namespace Likeness.Lawful

variable {L : Likeness} {settings settings' : Settings} {r s : Reading}

/-- The first voices on staves are the same. -/
theorem firstVoiceOn (hL : L.Lawful) (h : L.Alike r s) :
    (r.surroundings settings).firstVoiceOn = (s.surroundings settings').firstVoiceOn := by
  refine Surroundings.firstVoiceOn_congr ?_
  have hpart := h.part
  show (r.part?.map fun p => p.outline.2) = s.part?.map fun p => p.outline.2
  generalize r.part? = p? at hpart
  generalize s.part? = q? at hpart
  cases hpart with
  | none => rfl
  | some hpq => exact congrArg some (hL.keys hpq)

/-- Where the same voices are accepted, an element has the same place. -/
theorem place (hL : L.Lawful) (hmax : settings.maxVoiceNumber = settings'.maxVoiceNumber)
    (h : L.Alike r s) :
    (r.surroundings settings).place = (s.surroundings settings').place := by
  have hgreatest : (r.surroundings settings).greatestVoice =
      (s.surroundings settings').greatestVoice := hmax
  unfold Surroundings.place
  rw [hL.firstVoiceOn h, hgreatest]

end Likeness.Lawful

/-! ## Marks that wait -/

namespace Likeness.Lawful

variable {L : Likeness} {line : Nat} {settings settings' : Settings}

/-- Notes take the same marks, if marks are taken under both settings alike. -/
theorem takePending (hL : L.Lawful) (hmarks : ∀ {a b}, L.marks a b → a = b) (hnone : L.marks ∅ ∅)
    (hdelay : settings.delayRestsAttachments = settings'.delayRestsAttachments) {n n' : Note}
    (hn : L.note n n') (hkind : n.kind = n'.kind) (hcontent : n.content = n'.content)
    (htaken : ∀ marks, L.note { n with attachments := n.attachments ++ marks }
      { n' with attachments := n'.attachments ++ marks }) :
    L.Parallel L.note (Partwise.takePending settings n) (Partwise.takePending settings' n') := by
  refine passage fun r s h => ?_
  have htake : L.Parallel L.note
      (do
        Partwise.changePassage fun p => { p with pending := ∅ }
        pure { n with attachments := n.attachments ++ s.passage.pending })
      (do
        Partwise.changePassage fun p => { p with pending := ∅ }
        pure { n' with attachments := n'.attachments ++ s.passage.pending }) :=
    Parallel.bind (changePassage fun _ _ h => { h with pending := hnone })
      fun _ _ _ => .pure (htaken _)
  have hfind : L.Parallel Eq (liftM (Partwise.find n.line .attachmentsOnRest))
      (liftM (Partwise.find n'.line .attachmentsOnRest)) := by
    rw [hL.noteLine hn]
    exact hL.find _
  have hinvisible : n.isInvisibleRest = n'.isInvisibleRest := congrArg NoteContent.isInvisible hcontent
  have hrest : n.isRest = n'.isRest := congrArg NoteContent.isRest hcontent
  have hleaves : (s.passage.pending.isEmpty || n.kind = .grace || n.isInvisibleRest) =
      (s.passage.pending.isEmpty || n'.kind = .grace || n'.isInvisibleRest) := by
    rw [hkind, hinvisible]
  dsimp only
  rw [hmarks h.pending, hleaves, hrest, hdelay]
  split
  · exact .pure hn
  · split
    · exact .pure hn
    · split
      · exact hfind.bind fun _ _ _ => htake
      · exact htake

/-- Marks that still wait are dropped alike, where alike marks are the same. -/
theorem dropPending (hL : L.Lawful) (hmarks : ∀ {a b}, L.marks a b → a = b) (hnone : L.marks ∅ ∅) :
    L.Parallel Eq (Partwise.dropPending line) (Partwise.dropPending line) := by
  refine passage fun r s h => ?_
  dsimp only
  rw [hmarks h.pending, h.measureNumber]
  split
  · exact .pure rfl
  · exact Parallel.bind (changePassage fun _ _ h => { h with pending := hnone })
      fun _ _ _ => hL.find _

end Likeness.Lawful

/-! ## The same policy -/

/-- What a likeness must keep to besides, so that under the same settings the same is done: notes
and waiting marks are the same, and so is what a voice sings. -/
structure Likeness.Sings (L : Likeness) : Prop where
  strict : L.strict
  note : ∀ {n n'}, L.note n n' → n = n'
  sameNote : ∀ n, L.note n n
  marks : ∀ {a b}, L.marks a b → a = b
  noMarks : L.marks ∅ ∅
  sung : ∀ {p q key v w} n lyrics, L.here p q → p.voice? key = some v → q.voice? key = some w →
    (v.sing n lyrics).2 = (w.sing n lyrics).2
  sing : ∀ {p q key v w} n lyrics, L.here p q → p.voice? key = some v → q.voice? key = some w →
    L.here (p.modifyVoice key fun _ => (v.sing n lyrics).1)
      (q.modifyVoice key fun _ => (w.sing n lyrics).1)
  markSlurs : ∀ {p q key} slurs kind, L.here p q →
    L.here (p.modifyVoice key fun v => v.markSlurs slurs kind)
      (q.modifyVoice key fun v => v.markSlurs slurs kind)

namespace Likeness.Sings

variable {L : Likeness} {line : Nat} {key : VoiceKey} {settings : Settings}

/-- Marks that wait go alike to a note under the same settings. -/
theorem takePending (hS : L.Sings) (hL : L.Lawful) (n : Note) :
    L.Parallel L.note (Partwise.takePending settings n) (Partwise.takePending settings n) :=
  hL.takePending hS.marks hS.noMarks rfl (hS.sameNote n) rfl rfl fun _ => hS.sameNote _

/-- One note sings alike from alike readings under the same settings. -/
theorem singNote (hS : L.Sings) (hL : L.Lawful) (n : Note) (lyrics : List Element) :
    L.Parallel L.note (Partwise.singNote settings key n lyrics)
      (Partwise.singNote settings key n lyrics) := by
  unfold Partwise.singNote
  split
  · exact .pure (hS.sameNote n)
  · refine (Parallel.mapM _ fun e => hL.lift (Lyric.steady e).blind).bind ?_
    rintro lyrics _ rfl
    refine hL.withVoice fun r s p q v w h hp hq hpq hv hw => ?_
    dsimp only
    rw [hS.sung n lyrics hpq hv hw]
    -- what is told of the syllables leaves both readings as they are
    have htold : ∀ r, L.Aside (((w.sing n lyrics).2.lyrics.drop n.lyrics.length).forM fun chunk =>
        liftM (tell (.lyricAligned n.line chunk.stanza chunk.kind chunk.text?))) r
          fun _ t => t = r := fun r => .forM (fun _ => .tell rfl) _
    refine ParallelAt.bind (R := fun r' s' => r' = r ∧ s' = s) (A := Eq)
      (.aside (htold r) (htold s) fun _ _ _ _ hr hs => ⟨rfl, hr, hs⟩) ?_
    rintro _ _ _ _ - ⟨rfl, rfl⟩
    exact ParallelAt.bind (hL.changeParts h hp hq hpq rfl (hS.sing n lyrics hpq hv hw))
      fun _ _ _ _ _ h' => .pure (hS.sameNote _) h'

/-- Under the same settings the same is done. -/
theorem policy (hS : L.Sings) (hL : L.Lawful) (settings : Settings) :
    Policy L settings settings where
  place h e current := by
    rw [hL.place rfl h]
    exact .refl (Surroundings.steady_place ..).blind hL.failure
  takePending {n n'} hn := by
    cases hS.note hn
    exact hS.takePending hL n
  singNote {key n n' lyrics lyrics'} hn hlyrics r s h := by
    cases hS.note hn
    cases hlyrics hS.strict
    exact hS.singNote hL n lyrics r s h.1
  joinChord {i i'} hi := by
    have htake : L.Parallel L.note (Partwise.takePending settings i.note)
        (Partwise.takePending settings i'.note) := by
      rw [← hS.note hi.note]
      exact hS.takePending hL i.note
    refine hL.joinChord hi htake fun n n' hn r s h => ?_
    have hmark : L.Parallel Eq (markMember settings i.note.line i.key n)
        (markMember settings i.note.line i.key n') := by
      cases hS.note hn
      unfold markMember
      split
      · exact hL.changeVoice fun _ _ h => hS.markSlurs _ _ h
      · exact .pure rfl
    exact Parallel.bind hmark (fun _ _ _ => hL.joinMember hn) r s h.1
  dropPending _ := hL.dropPending hS.marks hS.noMarks

end Likeness.Sings

end Partwise
