import Partwise.Intake.Direction

/-!
# Intake · Note: reading a note with its notations

A note element is read as a whole before it takes its place: the numbers of its staff and voice come
late in it, and its marks say how it joins a chord or a tuplet. Without a duration a note lasts as
long as it is written, in the time of its tuplet.
-/

namespace Partwise

open Markup Text

/-- A mark that opens a tuplet. -/
structure TupletStart where
  number : Nat
  actualNotes : Nat
  normalNotes : Nat
deriving DecidableEq, Repr

/-- A note as it was read, before it has its place in a measure. -/
structure NoteInput where
  note : Note
  inChord : Bool
  isGrace : Bool
  tupletStarts : List TupletStart
  tupletStops : Nat
  /-- The elements of its lyrics, in document order. -/
  lyrics : List Element

namespace NoteInput

/-- The place of the note. -/
def key (n : NoteInput) : VoiceKey := ⟨n.note.staffNumber, n.note.voiceNumber⟩

/-- The note has to do with a tuplet: it is played in another time or carries a mark of one. -/
def belongsToTuplet (n : NoteInput) : Bool :=
  n.note.timeModification?.isSome || !n.tupletStarts.isEmpty || 0 < n.tupletStops

end NoteInput

/-! ## Content and length -/

/-- The pitch of an element. -/
def Pitch.ofElement (e : Element) : Journaled Pitch := do
  let step ← wordOr e.line .step DiatonicStep.c ((e.childText? "step").getD "")
  let semitones := (← ask (e.childValue? .f32 "alter")).getD Binary32.zero
  let alteration ←
    match Alteration.ofSemitones? semitones with
    | some alteration => pure alteration
    | none => do
      find e.line (.unknownAlteration semitones)
      pure Alteration.natural
  let octave ← ask (e.requiredChild .i8 "octave")
  pure (Pitch.of step alteration octave)

/-- What sounds, of a note element. A rest counts before a place on the staff, and that before a
pitch. -/
def NoteContent.ofElement (e : Element) : Journaled NoteContent :=
  match e.child? "rest", e.child? "unpitched", e.child? "pitch" with
  | some silence, _, _ => pure (.rest (silence.attr? "measure" = some "yes") false)
  | none, some place, _ => do
    pure (.unpitched (place.childText? "display-step")
      (← ask (place.childValue? .i8 "display-octave")))
  | none, none, some pitch => .pitched <$> Pitch.ofElement pitch
  | none, none, none => throw (.markup (.missing e.line "pitch"))

/-- How a note element is written, if its type is known. -/
def Display.ofElement (e : Element) : Journaled (Option Display) := do
  let some typeElement := e.child? "type" | pure none
  let noteType? ← wordOrNone (α := NoteType) typeElement.line .noteType (typeElement.text?.getD "")
  pure (noteType?.map fun noteType => { noteType, dots := dotCount (e.childrenNamed "dot") })

/-- The time modification of a note element. -/
def ratioOfElement (e : Element) : Journaled (Option Ratio) := do
  let some modification := e.child? "time-modification" | pure none
  let actual ← ask (modification.requiredChild .u32 "actual-notes")
  let normal ← ask (modification.requiredChild .u32 "normal-notes")
  pure (some (actual, normal))

/-- The length of a note of which only the written form is known. -/
def writtenLength (display? : Option Display) (ratio? : Option Ratio) : WholeNotes :=
  match display?, ratio? with
  | none, _ => 0
  | some display, some (actual, normal) =>
    if actual = 0 then display.wholeNotes else display.wholeNotes * mkRat normal actual
  | some display, none => display.wholeNotes

/-- How long a note element sounds. Grace notes take no time. -/
def Surroundings.noteLength (s : Surroundings) (e : Element) (display? : Option Display)
    (ratio? : Option Ratio) : Journaled WholeNotes := do
  if e.has "grace" then pure 0
  else
    match ← ask (e.childValue? .i64 "duration") with
    | some divisions => s.wholeNotes e.line divisions
    | none => do
      let length := writtenLength display? ratio?
      find e.line (.missingDuration length)
      pure length

/-! ## Notations -/

/-- What the notations of a note say. -/
structure Notations where
  tieWords : List String := []
  slurs : List Slur := []
  articulations : List Articulation := []
  ornaments : List Ornament := []
  tupletStarts : List TupletStart := []
  tupletStops : Nat := 0

/-- The slur mark of an element, if it has a type. -/
def Slur.ofElement (e : Element) : Journaled (Option Slur) := do
  match ← wordOrNone (α := SlurKind) e.line .slurType ((e.attr? "type").getD "") with
  | none => pure none
  | some kind =>
    let number? ← ask (e.attrValue? .u32 "number")
    pure (some { kind, number := number?.getD 1 })

/-- The number of notes that a child of a tuplet mark gives. -/
def tupletNumber? (e : Element) (name : String) : Journaled (Option Nat) :=
  match e.child? name with
  | none => pure none
  | some part => ask (part.childValue? .u32 "tuplet-number")

/-- The opening mark of a tuplet. Without numbers of its own it has those of the note's time
modification. -/
def TupletStart.ofElement (e : Element) (ratio? : Option Ratio) : Journaled TupletStart := do
  let number? ← ask (e.attrValue? .u32 "number")
  let actual? ← tupletNumber? e "tuplet-actual"
  let normal? ← tupletNumber? e "tuplet-normal"
  let (actual, normal) := ratio?.getD (1, 1)
  pure
    { number := number?.getD 1
      actualNotes := actual?.getD actual
      normalNotes := normal?.getD normal }

/-- The articulation that an element is, if it is one. -/
def Articulation.ofElement (e : Element) : Journaled (Option Articulation) :=
  match Vocabulary.ofWord? e.name with
  | some articulation => pure (some articulation)
  | none => do
    find e.line (.unknownArticulation e.name)
    pure none

/-- The ornament that an element is, if it is one that is kept. -/
def Ornament.ofElement (e : Element) : Journaled (Option Ornament) := do
  if e.name = "tremolo" then
    pure (some (.tremolo ((← ask (e.value? .u8)).getD 3)))
  else
    match Ornament.ofWord? e.name with
    | some ornament => pure (some ornament)
    | none => do
      tell (.ornamentDropped e.line e.name)
      pure none

/-- The values that a list of elements has, in order. -/
def valuesOf {α : Type} (read : Element → Journaled (Option α)) (es : List Element) :
    Journaled (List α) := do
  pure ((← es.mapM read).filterMap id)

namespace Notations

/-- The notations with what one element says. -/
def read (ratio? : Option Ratio) (n : Notations) (e : Element) : Journaled Notations :=
  match e.name with
  | "tied" => pure { n with tieWords := n.tieWords ++ (e.attr? "type").toList }
  | "slur" => do pure { n with slurs := n.slurs ++ (← Slur.ofElement e).toList }
  | "tuplet" =>
    match (e.attr? "type").getD "" with
    | "start" => do
      pure { n with tupletStarts := n.tupletStarts ++ [← TupletStart.ofElement e ratio?] }
    | "stop" => pure { n with tupletStops := n.tupletStops + 1 }
    | word => do
      find e.line (.unknownWord .tupletType word)
      pure n
  | "articulations" => do
    pure { n with articulations := n.articulations ++
      (← valuesOf Articulation.ofElement e.children) }
  | "ornaments" => do
    pure { n with ornaments := n.ornaments ++ (← valuesOf Ornament.ofElement e.children) }
  | "fermata" => pure { n with articulations := n.articulations ++ [.fermata] }
  | "arpeggiate" => pure { n with articulations := n.articulations ++ [.arpeggiate] }
  | name => do
    tell (.notationDropped e.line name)
    pure n

/-- The notations of a note element. -/
def ofElement (e : Element) (ratio? : Option Ratio) : Journaled Notations :=
  ((e.childrenNamed "notations").flatMap (·.children)).foldlM (read ratio?) {}

end Notations

/-! ## Ties -/

/-- The words that a tie may have. A tie that is left to ring starts like any other. -/
def tieWords : List (String × TieKind) :=
  [("start", .start), ("stop", .stop), ("continue", .continue), ("let-ring", .start)]

/-- One tie out of all that a note has: it stops and starts anew, or else goes on, or else does the
one thing it does. -/
def combineTies? (ties : List TieKind) : Option TieKind :=
  if ties.contains .start && ties.contains .stop then some .stopStart
  else if ties.contains .continue then some .continue
  else ties.head?

/-- The tie of a note, out of the words for its ties. -/
def tieOfWords (line : Nat) (words : List String) : Journaled (Option TieKind) := do
  let ties ← words.mapM fun word =>
    match tieWords.lookup word with
    | some tie => pure (some tie)
    | none => do
      find line (.unknownWord .tieType word)
      pure none
  pure (combineTies? (ties.filterMap id))

/-! ## Whole notes elements -/

/-- The note of an element. -/
def NoteInput.ofElement (s : Surroundings) (e : Element) : Journaled NoteInput := do
  let key ← s.place e ⟨1, 1⟩
  let content ← NoteContent.ofElement e
  let display? ← Display.ofElement e
  let ratio? ← ratioOfElement e
  let length ← s.noteLength e display? ratio?
  let notations ← Notations.ofElement e ratio?
  let ownWords := (e.childrenNamed "tie").filterMap (·.attr? "type")
  let tie? ← tieOfWords e.line (ownWords ++ notations.tieWords)
  pure
    { note :=
        { content
          kind := .standalone
          soundingWholeNotes := length
          display?
          timeModification? := ratio?
          tie?
          staffNumber := key.staff
          voiceNumber := key.voice
          measureNumber := ""
          positionInMeasure := 0
          graceSlash := ((e.child? "grace").bind (·.attr? "slash")) = some "yes"
          cue := e.has "cue"
          slurs := notations.slurs
          articulations := notations.articulations
          ornaments := notations.ornaments
          attachments := ∅
          lyrics := []
          line := e.line }
      inChord := e.has "chord"
      isGrace := e.has "grace"
      tupletStarts := notations.tupletStarts
      tupletStops := notations.tupletStops
      lyrics := e.childrenNamed "lyric" }

end Partwise
