import Partwise.Score.Note

/-!
# Score · Chord: notes that sound as one

A chord is built from two notes and takes in further ones. It takes its length, display, tie and
place from its first note, and gathers the articulations and attachments of all: an articulation
once, and later members keep none of their own.
-/

namespace Partwise

/-- Two or more notes with one place and one length. -/
structure Chord where
  notes : List Note
  soundingWholeNotes : WholeNotes
  display? : Option Display
  tie? : Option TieKind
  measureNumber : String
  positionInMeasure : WholeNotes
  articulations : List Articulation
  attachments : Attachments
deriving DecidableEq, Repr

/-- The articulations of a chord after one more: what is there already is not added. -/
def addArticulation (present : List Articulation) (new : Articulation) : List Articulation :=
  if present.contains new then present else present ++ [new]

namespace Chord

/-- The chord with one more member, whose decorations move onto the chord. -/
def absorb (chord : Chord) (note : Note) : Chord :=
  { chord with
    articulations := note.articulations.foldl addArticulation chord.articulations
    attachments := chord.attachments ++ note.attachments
    notes := chord.notes ++
      [{ note with
         kind := .chordMember
         positionInMeasure := chord.positionInMeasure
         measureNumber := chord.measureNumber
         articulations := []
         attachments := ∅ }] }

/-- The chord of one note, to be completed by a second. -/
def ofFirst (first : Note) : Chord where
  notes := [{ first with kind := .chordMember }]
  soundingWholeNotes := first.soundingWholeNotes
  display? := first.display?
  tie? := first.tie?
  measureNumber := first.measureNumber
  positionInMeasure := first.positionInMeasure
  articulations := first.articulations
  attachments := first.attachments

/-- The chord of two notes. -/
def ofPair (first second : Note) : Chord :=
  (ofFirst first).absorb second

instance : ToJson Chord where
  toJson c := .object [("notes", toJson c.notes),
    ("sounding_whole_notes", toJson c.soundingWholeNotes), ("display", toJson c.display?),
    ("tie", toJson c.tie?), ("measure_number", toJson c.measureNumber),
    ("position_in_measure", toJson c.positionInMeasure),
    ("articulations", toJson c.articulations), ("attachments", toJson c.attachments)]

instance : OfJson Chord where
  ofJson? j := do
    some { notes := ← j.get? "notes", soundingWholeNotes := ← j.get? "sounding_whole_notes",
           display? := ← j.get? "display", tie? := ← j.get? "tie",
           measureNumber := ← j.get? "measure_number",
           positionInMeasure := ← j.get? "position_in_measure",
           articulations := ← j.get? "articulations", attachments := ← j.get? "attachments" }

end Chord

end Partwise
