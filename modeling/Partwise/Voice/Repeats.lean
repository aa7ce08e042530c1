import Partwise.Score.Voice

/-!
# Voice · Repeats: what barlines make of a voice

A barline that opens or closes a repeat or an ending moves what has come since the last boundary to
the place where it belongs: into the body of the pending repeat, into one of its endings, or among
the closed content. `Voice.takeBarline` is one such step, `Voice.endRepeats` the step at the end of
a part. A repeat that the document never opened is given a start of its own when it is closed.
-/

namespace Partwise

/-! ## Repeats under construction -/

/-- A chunk put behind what the last of the endings holds. -/
def extendLastEnding (chunk : List VoiceElement) : List Ending → List Ending
  | [] => []
  | [ending] => [{ ending with chunk := ending.chunk ++ chunk }]
  | ending :: endings => ending :: extendLastEnding chunk endings

namespace Repeat

/-- A repeat without content, opened by the document or not. -/
def opened (explicitStart : Bool) (times? : Option Nat) : Repeat :=
  { body := [], endings := [], explicitStart, times? }

/-- A chunk put behind what the repeat holds: content between two endings belongs to the earlier
one, content before the first ending to the body. -/
def extend (r : Repeat) (chunk : List VoiceElement) : Repeat :=
  if r.endings.isEmpty then { r with body := r.body ++ chunk }
  else { r with endings := extendLastEnding chunk r.endings }

/-- The repeat with one more ending. -/
def addEnding (r : Repeat) (ending : Ending) : Repeat :=
  { r with endings := r.endings ++ [ending] }

/-- The repeat with a start that the document does not have. The start belongs to the measure that
the body begins in, or to a given measure where the body says nothing. -/
def withImplicitStart (r : Repeat) (measure : String) : Repeat :=
  let start := Barline.implicitRepeatStart ((firstMeasureNumber? r.body).getD measure)
  { r with body := .barline start :: r.body }

end Repeat

/-- How a repeat was closed: with how many endings, and whether the document had opened it. -/
structure Closing where
  endings : Nat
  explicitStart : Bool
deriving DecidableEq, Repr

namespace Voice

/-! ## Boundaries -/

/-- The pending repeat, or one that the document did not open. -/
def collecting (v : Voice) : Repeat :=
  v.pending?.getD (.opened false none)

/-- The open chunk goes into the pending repeat. -/
def moveIntoRepeat (v : Voice) : Voice :=
  { v with chunk := [], pending? := some (v.collecting.extend v.chunk) }

/-- The open chunk becomes an ending of the pending repeat. The ending has the numbers of the
barline that the chunk opens with, or those of the closing barline where that one has none. -/
def closeEnding (v : Voice) (closing : Barline) (kind : EndingKind) : Voice :=
  let own := (firstBarline? v.chunk).elim [] Barline.endingNumbers
  let numbers := if own.isEmpty then closing.endingNumbers else own
  { v with
    chunk := []
    pending? := some (v.collecting.addEnding { numbers, kind, chunk := v.chunk }) }

/-- The pending repeat, if there is one, becomes closed content. -/
def closeRepeat (v : Voice) (explicitStart : Bool) (measure : String) : Voice × Option Closing :=
  match v.pending? with
  | none => (v, none)
  | some r =>
    let explicit := explicitStart || r.explicitStart
    let complete := if explicit then r else r.withImplicitStart measure
    ({ v with elements := v.elements ++ [.repeated complete], pending? := none },
      some ⟨r.endings.length, explicit⟩)

/-- The open chunk is an ending: it opens with the start of one. -/
def inEnding (v : Voice) : Bool :=
  (firstBarline? v.chunk).any fun b => b.category = .endingStart

/-! ## Barlines -/

/-- The voice after a barline. `explicitStart` says that the part has met the start of the repeat
that the barline closes. -/
def takeBarline (v : Voice) (b : Barline) (explicitStart : Bool) (measure : String) :
    Voice × Option Closing :=
  match b.category with
  | .standalone => (v.append (.barline b), none)
  | .repeatStart =>
    let (closed, closing?) := v.closeRepeat explicitStart measure
    ({ closed.flush with chunk := [.barline b], pending? := some (.opened true b.repeatTimes?) },
      closing?)
  | .endingStart => ({ v.moveIntoRepeat with chunk := [.barline b] }, none)
  | .hookedEndingEnd =>
    let ended := (v.append (.barline b)).closeEnding b .hooked
    if b.isBackward then (ended, none) else ended.closeRepeat explicitStart measure
  | .hooklessEndingEnd =>
    ((v.append (.barline b)).closeEnding b .hookless).closeRepeat explicitStart measure
  | .repeatEnd =>
    if v.inEnding then ((v.append (.barline b)).closeEnding b .hooked, none)
    else
      let r := v.collecting
      let counted := { v with pending? := some { r with times? := r.times?.or b.repeatTimes? } }
      (counted.append (.barline b)).moveIntoRepeat.closeRepeat explicitStart measure

/-- The voice once its part has ended, before its open chunk is closed. A pending repeat without
endings takes the rest of the part as its body; after endings the rest is ordinary content. -/
def endRepeats (v : Voice) (explicitStart : Bool) (measure : String) : Voice × Option Closing :=
  match v.pending? with
  | none => (v, none)
  | some r =>
    (if r.endings.isEmpty then v.moveIntoRepeat else v).closeRepeat explicitStart measure

end Voice

end Partwise
