import Partwise.Score.Pitch
import Partwise.Score.Attachment
import Partwise.Score.Lyric

/-!
# Score · Note: notes, rests and what they carry

A note is pitched, unpitched or a rest. An invisible rest is not in the document: it stands for a
forward movement or fills the gap before a voice that comes in late, see `Note.skip`.
-/

namespace Partwise

/-! ## What sounds -/

/-- What sounds, if anything does. -/
inductive NoteContent where
  | pitched (pitch : Pitch)
  /-- A place on the staff without a pitch, as for drums. -/
  | unpitched (displayStep? : Option String) (displayOctave? : Option Int)
  | rest (fullMeasure : Bool) (invisible : Bool)
deriving DecidableEq, Repr

namespace NoteContent

/-- Nothing sounds. -/
def isRest : NoteContent → Bool
  | rest _ _ => true
  | _ => false

/-- Nothing sounds and nothing is written. -/
def isInvisible : NoteContent → Bool
  | rest _ invisible => invisible
  | _ => false

/-- The pitch, where there is one. -/
def pitch? : NoteContent → Option Pitch
  | pitched pitch => some pitch
  | _ => none

instance : ToJson NoteContent where
  toJson
    | pitched pitch => .object [("Pitched", toJson pitch)]
    | unpitched step? octave? => .object [("Unpitched", .object
        [("display_step", toJson step?), ("display_octave", toJson octave?)])]
    | rest fullMeasure invisible => .object [("Rest", .object
        [("full_measure", toJson fullMeasure), ("invisible", toJson invisible)])]

instance : OfJson NoteContent where
  ofJson?
    | .object [("Pitched", pitch)] => (ofJson? pitch).map pitched
    | .object [("Unpitched", j)] => do
      some (unpitched (← j.get? "display_step") (← j.get? "display_octave"))
    | .object [("Rest", j)] => do some (rest (← j.get? "full_measure") (← j.get? "invisible"))
    | _ => none

/-- What a trace says about a value that may be absent. -/
def traceOption (x? : Option String) : String :=
  match x? with
  | some x => s!"Some({x})"
  | none => "None"

/-- What a trace says about a content. -/
def trace : NoteContent → String
  | pitched pitch => s!"Pitched({pitch.trace})"
  | unpitched step? octave? =>
    s!"Unpitched \x7b display_step: {traceOption (step?.map Text.quoted)}, " ++
      s!"display_octave: {traceOption (octave?.map toString)} \x7d"
  | rest fullMeasure invisible =>
    s!"Rest \x7b full_measure: {fullMeasure}, invisible: {invisible} \x7d"

end NoteContent

/-! ## What a note carries -/

/-- The part a note plays in its voice. -/
inductive NoteKind where
  | standalone | chordMember | tupletMember | grace | rest
deriving DecidableEq, Repr

instance : Vocabulary NoteKind where
  all := [.standalone, .chordMember, .tupletMember, .grace, .rest]
  name
    | .standalone => "Standalone"
    | .chordMember => "ChordMember"
    | .tupletMember => "TupletMember"
    | .grace => "Grace"
    | .rest => "Rest"
  find_name x := by cases x <;> decide

/-- How a note is tied: to the next, to both, to the one before, or newly on either side. -/
inductive TieKind where
  | start | continue | stop | stopStart
deriving DecidableEq, Repr

instance : Vocabulary TieKind where
  all := [.start, .continue, .stop, .stopStart]
  name
    | .start => "Start" | .continue => "Continue" | .stop => "Stop" | .stopStart => "StopStart"
  find_name x := by cases x <;> decide

/-- What a note does to a slur. -/
inductive SlurKind where
  | start | continue | stop
deriving DecidableEq, Repr

instance : Vocabulary SlurKind where
  all := [.start, .continue, .stop]
  name
    | .start => "Start" | .continue => "Continue" | .stop => "Stop"
  words := [("start", .start), ("continue", .continue), ("stop", .stop)]
  find_name x := by cases x <;> decide

/-- A mark of a slur on a note. -/
structure Slur where
  kind : SlurKind
  number : Nat
deriving DecidableEq, Repr

instance : ToJson Slur where
  toJson s := .object [("kind", toJson s.kind), ("number", toJson s.number)]

instance : OfJson Slur where
  ofJson? j := do some { kind := ← j.get? "kind", number := ← j.get? "number" }

/-- How a note is articulated. A fermata and an arpeggio have no word of their own here. -/
inductive Articulation where
  | accent | strongAccent | staccato | tenuto | detachedLegato | staccatissimo | spiccato
  | scoop | plop | doit | falloff | breathMark | caesura | stress | unstress
  | fermata | arpeggiate
deriving DecidableEq, Repr

instance : Vocabulary Articulation where
  all := [.accent, .strongAccent, .staccato, .tenuto, .detachedLegato, .staccatissimo, .spiccato,
    .scoop, .plop, .doit, .falloff, .breathMark, .caesura, .stress, .unstress, .fermata,
    .arpeggiate]
  name
    | .accent => "Accent"
    | .strongAccent => "StrongAccent"
    | .staccato => "Staccato"
    | .tenuto => "Tenuto"
    | .detachedLegato => "DetachedLegato"
    | .staccatissimo => "Staccatissimo"
    | .spiccato => "Spiccato"
    | .scoop => "Scoop"
    | .plop => "Plop"
    | .doit => "Doit"
    | .falloff => "Falloff"
    | .breathMark => "BreathMark"
    | .caesura => "Caesura"
    | .stress => "Stress"
    | .unstress => "Unstress"
    | .fermata => "Fermata"
    | .arpeggiate => "Arpeggiate"
  words := [("accent", .accent), ("strong-accent", .strongAccent), ("staccato", .staccato),
    ("tenuto", .tenuto), ("detached-legato", .detachedLegato), ("staccatissimo", .staccatissimo),
    ("spiccato", .spiccato), ("scoop", .scoop), ("plop", .plop), ("doit", .doit),
    ("falloff", .falloff), ("breath-mark", .breathMark), ("caesura", .caesura),
    ("stress", .stress), ("unstress", .unstress)]
  find_name x := by cases x <;> decide

/-- The ornaments that need no number. -/
inductive OrnamentSign where
  | trillMark | turn | invertedTurn | delayedTurn | mordent | invertedMordent | schleifer
deriving DecidableEq, Repr

instance : Vocabulary OrnamentSign where
  all := [.trillMark, .turn, .invertedTurn, .delayedTurn, .mordent, .invertedMordent, .schleifer]
  name
    | .trillMark => "TrillMark"
    | .turn => "Turn"
    | .invertedTurn => "InvertedTurn"
    | .delayedTurn => "DelayedTurn"
    | .mordent => "Mordent"
    | .invertedMordent => "InvertedMordent"
    | .schleifer => "Schleifer"
  words := [("trill-mark", .trillMark), ("turn", .turn), ("inverted-turn", .invertedTurn),
    ("delayed-turn", .delayedTurn), ("mordent", .mordent),
    ("inverted-mordent", .invertedMordent), ("schleifer", .schleifer)]
  find_name x := by cases x <;> decide

/-- An ornament: a sign, or a tremolo with a number of strokes. -/
inductive Ornament where
  | sign (s : OrnamentSign)
  | tremolo (marks : Nat)
deriving DecidableEq, Repr

namespace Ornament

/-- The ornament that a document means by a word. -/
def ofWord? (word : String) : Option Ornament :=
  (Vocabulary.ofWord? word).map sign

instance : ToJson Ornament where
  toJson
    | sign s => toJson s
    | tremolo marks => .object [("Tremolo", toJson marks)]

instance : OfJson Ornament where
  ofJson?
    | .object [("Tremolo", marks)] => (ofJson? marks).map tremolo
    | j => (ofJson? j).map sign

end Ornament

/-! ## Notes -/

/-- How many notes stand for how many others. -/
abbrev Ratio := Nat × Nat

/-- A note or rest of a voice. -/
structure Note where
  content : NoteContent
  kind : NoteKind
  /-- How long it sounds; grace notes take no time. -/
  soundingWholeNotes : WholeNotes
  display? : Option Display
  /-- How many notes are played in the time of how many. -/
  timeModification? : Option Ratio
  tie? : Option TieKind
  staffNumber : Nat
  voiceNumber : Nat
  measureNumber : String
  positionInMeasure : WholeNotes
  graceSlash : Bool
  cue : Bool
  slurs : List Slur
  articulations : List Articulation
  ornaments : List Ornament
  attachments : Attachments
  lyrics : List LyricChunk
  line : Nat
deriving DecidableEq, Repr

namespace Note

/-- The note is a rest. -/
def isRest (n : Note) : Bool := n.content.isRest

/-- The note is a rest that is not written. -/
def isInvisibleRest (n : Note) : Bool := n.content.isInvisible

/-- The note's pitch, where it has one. -/
def pitch? (n : Note) : Option Pitch := n.content.pitch?

/-- An invisible rest at the start of its measure. -/
def skip (wholeNotes : WholeNotes) (staff voice : Nat) (measureNumber : String) (line : Nat) :
    Note where
  content := .rest false true
  kind := .rest
  soundingWholeNotes := wholeNotes
  display? := none
  timeModification? := none
  tie? := none
  staffNumber := staff
  voiceNumber := voice
  measureNumber := measureNumber
  positionInMeasure := 0
  graceSlash := false
  cue := false
  slurs := []
  articulations := []
  ornaments := []
  attachments := ∅
  lyrics := []
  line := line

instance : ToJson Note where
  toJson n := .object [("content", toJson n.content), ("kind", toJson n.kind),
    ("sounding_whole_notes", toJson n.soundingWholeNotes), ("display", toJson n.display?),
    ("time_modification", toJson n.timeModification?), ("tie", toJson n.tie?),
    ("staff_number", toJson n.staffNumber), ("voice_number", toJson n.voiceNumber),
    ("measure_number", toJson n.measureNumber),
    ("position_in_measure", toJson n.positionInMeasure),
    ("grace_slash", toJson n.graceSlash), ("cue", toJson n.cue), ("slurs", toJson n.slurs),
    ("articulations", toJson n.articulations), ("ornaments", toJson n.ornaments),
    ("attachments", toJson n.attachments), ("lyrics", toJson n.lyrics), ("line", toJson n.line)]

instance : OfJson Note where
  ofJson? j := do
    some { content := ← j.get? "content", kind := ← j.get? "kind",
           soundingWholeNotes := ← j.get? "sounding_whole_notes",
           display? := ← j.get? "display",
           timeModification? := ← j.get? "time_modification", tie? := ← j.get? "tie",
           staffNumber := ← j.get? "staff_number", voiceNumber := ← j.get? "voice_number",
           measureNumber := ← j.get? "measure_number",
           positionInMeasure := ← j.get? "position_in_measure",
           graceSlash := ← j.get? "grace_slash", cue := ← j.get? "cue",
           slurs := ← j.get? "slurs", articulations := ← j.get? "articulations",
           ornaments := ← j.get? "ornaments", attachments := ← j.get? "attachments",
           lyrics := ← j.get? "lyrics", line := ← j.get? "line" }

end Note

end Partwise
