import Partwise.Intake.Lyric
import Partwise.Intake.Note
import Partwise.Reading.Cursor
import Partwise.Voice.Chords

/-!
# Reading · Assembly: how notes become chords and tuplets

A note that carries the mark of a chord joins the note before it. Any other note takes its place in
time and then in its voice, or in the innermost open tuplet. Tuplets are open from their first note
to the mark that stops them; whatever breaks the row of their notes closes them all.
-/

namespace Partwise

/-! ## Tuplets -/

/-- A tuplet opens. -/
def openTuplet (line : Nat) (key : VoiceKey) (position : WholeNotes) (start : TupletStart) :
    Step Unit := do
  let part ← currentPart line
  let passage := (← get).passage
  tell (.tupletOpened line start.number start.actualNotes start.normalNotes passage.tuplets.length)
  let tuplet : Tuplet :=
    { number := start.number
      actualNotes := start.actualNotes
      normalNotes := start.normalNotes
      divisionsPerWhole := part.divisionsPerWhole
      staffNumber := key.staff
      voiceNumber := key.voice
      measureNumber := passage.measureNumber
      positionInMeasure := position
      members := []
      line := line }
  changePassage fun p => { p with tuplets := tuplet :: p.tuplets }

/-- A tuplet with one more member. -/
def Tuplet.append (t : Tuplet) (m : TupletMember) : Tuplet :=
  { t with members := t.members ++ [m] }

/-- The innermost tuplet closes and goes where it belongs: into the one around it, or into its
voice. A tuplet without members is dropped. -/
def closeTuplet (line : Nat) : Step Unit := do
  match (← get).passage.tuplets with
  | [] => throw (.inconsistent line .noOpenTuplet)
  | tuplet :: outer =>
    changePassage fun p => { p with tuplets := outer }
    if tuplet.members.isEmpty then find line (.emptyTuplet tuplet.number)
    else
      tell (.tupletClosed line tuplet.number tuplet.members.length outer.length)
      match outer with
      | [] => appendTo line ⟨tuplet.staffNumber, tuplet.voiceNumber⟩ (.tuplet tuplet)
      | next :: rest =>
        changePassage fun p => { p with tuplets := next.append (.tuplet tuplet) :: rest }

/-- A number of tuplets close, one after the other. -/
def closeTuplets (line count : Nat) : Step Unit :=
  (List.range count).forM fun _ => closeTuplet line

/-- Whatever tuplets are open close before a boundary. -/
def drainTuplets (line : Nat) : Step Unit := do
  let depth := (← get).passage.tuplets.length
  if depth ≠ 0 then
    find line (.unterminatedTuplets depth)
    closeTuplets line depth

/-- The music comes to a boundary: open tuplets close, and no chord goes on. -/
def breakOff (line : Nat) : Step Unit := do
  drainTuplets line
  changePassage fun p => { p with chord? := none }

/-! ## What a note takes along -/

/-- A note takes the marks that wait for one. Grace notes and invisible rests leave them waiting; a
rest takes them, as a finding, unless the settings let them wait for a note that sounds. -/
def takePending (settings : Settings) (note : Note) : Step Note := do
  let pending := (← get).passage.pending
  if pending.isEmpty || note.kind = .grace || note.isInvisibleRest then pure note
  else if note.isRest && settings.delayRestsAttachments then pure note
  else
    if note.isRest then find note.line .attachmentsOnRest
    changePassage fun p => { p with pending := ∅ }
    pure { note with attachments := note.attachments ++ pending }

/-- Marks that no note took are dropped before a boundary. -/
def dropPending (line : Nat) : Step Unit := do
  let passage := (← get).passage
  if passage.pending.isEmpty then pure ()
  else
    changePassage fun p => { p with pending := ∅ }
    find line (.attachmentsDropped passage.pending passage.measureNumber)

/-- A note sings, unless the settings leave out all lyrics. -/
def singNote (settings : Settings) (key : VoiceKey) (note : Note) (lyrics : List Markup.Element) :
    Step Note := do
  if settings.ignoreLyrics then pure note
  else
    let kept := lyrics.filter fun e => settings.keepsStanza (Lyric.stanzaOf e)
    let lyrics ← kept.mapM fun e => (Lyric.ofElement e : Step Lyric)
    let voice ← voiceAt note.line key
    let (voice, sung) := voice.sing note lyrics
    (sung.lyrics.drop note.lyrics.length).forM fun chunk =>
      tell (.lyricAligned note.line chunk.stanza chunk.kind chunk.text?)
    changePart note.line fun part => part.modifyVoice key fun _ => voice
    pure sung

/-! ## Notes -/

/-- The part that a note plays in its voice. -/
def noteKind (note : Note) (isGrace inTuplet : Bool) : NoteKind :=
  if note.isRest then .rest
  else if isGrace then .grace
  else if inTuplet then .tupletMember
  else .standalone

/-- A note takes its place in time and in its voice. -/
def placeNote (settings : Settings) (input : NoteInput) : Step Unit := do
  let key := input.key
  let line := input.note.line
  catchUp line key
  let position := (← voiceAt line key).positionInMeasure
  let measure := (← get).passage.measureNumber
  input.tupletStarts.forM (openTuplet line key position)
  let inTuplet := !(← get).passage.tuplets.isEmpty
  let note :=
    { input.note with
      positionInMeasure := position
      measureNumber := measure
      kind := noteKind input.note input.isGrace inTuplet }
  let note ←
    if input.isGrace then pure note
    else singNote settings key (← takePending settings note) input.lyrics
  match (← get).passage.tuplets with
  | [] => appendTo line key (.note note)
  | tuplet :: outer =>
    changePassage fun p => { p with tuplets := tuplet.append (.note note) :: outer }
  if input.isGrace then changePassage fun p => p.touch key
  else advance line key note.soundingWholeNotes
  closeTuplets line input.tupletStops

/-- A note joins the chord of the note before it. -/
def joinChord (settings : Settings) (input : NoteInput) : Step Unit := do
  let key := input.key
  let line := input.note.line
  if input.note.isRest then throw (.inconsistent line .restInChord)
  let note ← takePending settings input.note
  if !settings.ignoreLyrics && !note.slurs.isEmpty then
    changeVoice line key fun voice => voice.markSlurs note.slurs .none
  tell (.chordMember line key)
  let passage := (← get).passage
  let chordOpen := passage.chord? = some key
  match passage.tuplets with
  | tuplet :: outer =>
    if passage.tupletKey? = some key then
      match tuplet.join note chordOpen with
      | .ok joined => changePassage fun p => { p with tuplets := joined :: outer }
      | .error fault => throw (.inconsistent line fault)
    else joinInVoice key note chordOpen
  | [] => joinInVoice key note chordOpen
  changePassage fun p => { p with chord? := some key }.touch key
  closeTuplets line input.tupletStops
where
  /-- A note joins the last element of its voice. -/
  joinInVoice (key : VoiceKey) (note : Note) (chordOpen : Bool) : Step Unit := do
    match (← voiceAt note.line key).joinChord note chordOpen with
    | .ok voice => changePart note.line fun part => part.modifyVoice key fun _ => voice
    | .error fault => throw (.inconsistent note.line fault)

/-- A note is read. A note that has nothing to do with the open tuplets, or is of another voice,
closes them. -/
def readNote (settings : Settings) (e : Markup.Element) : Step Unit := do
  let input ← NoteInput.ofElement (← surroundings settings) e
  let key := input.key
  changePassage fun p => { p with current := key }
  tell (.noteRead e.line input.note.content key input.note.soundingWholeNotes input.inChord)
  if input.inChord then joinChord settings input
  else
    changePassage fun p => { p with chord? := none }
    let passage := (← get).passage
    if !input.belongsToTuplet || passage.tupletKey? ≠ some key then drainTuplets e.line
    placeNote settings input

end Partwise
