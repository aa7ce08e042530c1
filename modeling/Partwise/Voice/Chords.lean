import Partwise.Report.Failure
import Partwise.Score.Voice

/-!
# Voice · Chords: folding a chord member into the note before it

A document marks the second and later notes of a chord, so the first one already stands in its voice
or tuplet when the chord becomes known. `joinLast` and `joinLastMember` let a note join what stands
last: a note becomes a chord, a chord that is still open takes in one more, and a tuplet passes the
note on to its own last member.
-/

namespace Partwise

mutual

/-- A tuplet member joined by a note. A rest has no chord; a chord takes in a note while it is
open. -/
def TupletMember.join (n : Note) (chordOpen : Bool) :
    TupletMember → Except StructureFault TupletMember
  | .note first =>
    if first.isRest then .error .restInChord else .ok (.chord (Chord.ofPair first n))
  | .chord c => if chordOpen then .ok (.chord (c.absorb n)) else .error .chordWithoutNote
  | .tuplet t => (t.join n chordOpen).map TupletMember.tuplet

/-- A tuplet whose last member is joined by a note. -/
def Tuplet.join (n : Note) (chordOpen : Bool) : Tuplet → Except StructureFault Tuplet
  | ⟨number, actual, normal, divisions, staff, voice, measure, position, members, line⟩ =>
    (joinLastMember n chordOpen members).map fun joined =>
      ⟨number, actual, normal, divisions, staff, voice, measure, position, joined, line⟩

/-- Tuplet members of which the last is joined by a note. -/
def joinLastMember (n : Note) (chordOpen : Bool) :
    List TupletMember → Except StructureFault (List TupletMember)
  | [] => .error .chordWithoutNote
  | [m] => (m.join n chordOpen).map ([·])
  | m :: ms => (joinLastMember n chordOpen ms).map (m :: ·)

end

/-- An element of a voice joined by a note. Nothing joins a barline, a repeat or a sign. -/
def VoiceElement.join (n : Note) (chordOpen : Bool) :
    VoiceElement → Except StructureFault VoiceElement
  | .note first =>
    if first.isRest then .error .restInChord else .ok (.chord (Chord.ofPair first n))
  | .chord c => if chordOpen then .ok (.chord (c.absorb n)) else .error .chordWithoutNote
  | .tuplet t => (t.join n chordOpen).map VoiceElement.tuplet
  | _ => .error .chordWithoutNote

/-- Elements of which the last is joined by a note. -/
def joinLast (n : Note) (chordOpen : Bool) :
    List VoiceElement → Except StructureFault (List VoiceElement)
  | [] => .error .chordWithoutNote
  | [e] => (e.join n chordOpen).map ([·])
  | e :: es => (joinLast n chordOpen es).map (e :: ·)

/-- The voice whose open chunk ends in a chord with the note. -/
def Voice.joinChord (v : Voice) (n : Note) (chordOpen : Bool) : Except StructureFault Voice :=
  (joinLast n chordOpen v.chunk).map fun chunk => { v with chunk }

end Partwise
