import Partwise.Score.Duration

/-!
# Score · Lyric: the syllables of a note and what stands in for them

A note has one chunk for each stanza its voice knows: a syllable, or the reason why there is none. A
syllable carries text; the other kinds say that the note is tied, rests, goes on under a slur, or
has nothing to sing.
-/

namespace Partwise

/-- What a note has to sing of a stanza. The first four kinds are syllables by their place in the
word; `slurBeyondEnd` goes on under a slur that began on the end of a word. -/
inductive LyricKind where
  | single | begin | middle | end | skip | tied | slur | slurBeyondEnd | none
deriving DecidableEq, Repr

namespace LyricKind

instance : Vocabulary LyricKind where
  all := [.single, .begin, .middle, .end, .skip, .tied, .slur, .slurBeyondEnd, .none]
  name
    | .single => "Single"
    | .begin => "Begin"
    | .middle => "Middle"
    | .end => "End"
    | .skip => "Skip"
    | .tied => "Tied"
    | .slur => "Slur"
    | .slurBeyondEnd => "SlurBeyondEnd"
    | .none => "None"
  words := [("single", .single), ("begin", .begin), ("middle", .middle), ("end", .end)]
  find_name x := by cases x <;> decide

/-- The kind is a syllable. -/
def carriesText : LyricKind → Bool
  | .single | .begin | .middle | .end => true
  | _ => false

end LyricKind

/-- What a note has to sing of one stanza. -/
structure LyricChunk where
  stanza : String
  kind : LyricKind
  text? : Option String
  wholeNotes : WholeNotes
  /-- A line extends the syllable. -/
  extend : Bool
  /-- Several syllables share the note. -/
  elision : Bool
  line : Nat
deriving DecidableEq, Repr

instance : ToJson LyricChunk where
  toJson c := .object [("stanza", toJson c.stanza), ("kind", toJson c.kind),
    ("text", toJson c.text?), ("whole_notes", toJson c.wholeNotes), ("extend", toJson c.extend),
    ("elision", toJson c.elision), ("line", toJson c.line)]

instance : OfJson LyricChunk where
  ofJson? j := do
    some { stanza := ← j.get? "stanza", kind := ← j.get? "kind", text? := ← j.get? "text",
           wholeNotes := ← j.get? "whole_notes", extend := ← j.get? "extend",
           elision := ← j.get? "elision", line := ← j.get? "line" }

end Partwise
