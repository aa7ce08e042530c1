import Partwise.Intake.Barline
import Partwise.Reading.Assembly
import Partwise.Voice.Repeats

/-!
# Reading · Repeats: barlines across the voices of a part

A barline is read once and taken by every voice of its part, so that all of them have the same
repeats. The part remembers which starts of repeats and endings it has met: from these markers a
barline that closes a repeat learns whether the document opened it.
-/

namespace Partwise

open Markup

/-! ## Markers -/

/-- The markers without the last one, where that is a certain one. -/
def dropMarker (marker : BarlineCategory) : List BarlineCategory → List BarlineCategory
  | [] => []
  | last :: earlier => if last = marker then earlier else last :: earlier

/-- What a barline makes of the markers, and whether the repeat that it closes was opened by the
document. A repeat that ends inside an ending closes that ending only; the last ending of a repeat
closes the repeat too. -/
def passMarkers (b : Barline) (markers : List BarlineCategory) : List BarlineCategory × Bool :=
  match b.category with
  | .standalone => (markers, false)
  | .repeatStart => (.repeatStart :: markers, false)
  | .endingStart => (.endingStart :: markers, false)
  | .repeatEnd =>
    if markers.head? = some .endingStart then (dropMarker .endingStart markers, false)
    else (dropMarker .repeatStart markers, markers.head? = some .repeatStart)
  | .hookedEndingEnd =>
    let left := dropMarker .endingStart markers
    (if b.isBackward then left else dropMarker .repeatStart left, left.head? = some .repeatStart)
  | .hooklessEndingEnd =>
    let left := dropMarker .endingStart markers
    (dropMarker .repeatStart left, left.head? = some .repeatStart)

/-! ## Voices in step -/

/-- Every voice of the part changes, and the repeats that close thereby are told. -/
def changeVoices (line : Nat) (f : Voice → Voice × Option Closing) : Step Unit := do
  let part ← currentPart line
  part.voices.forM fun voice =>
    match (f voice).2 with
    | some closing =>
      tell (.repeatClosed voice.key closing.endings closing.explicitStart)
    | none => pure ()
  changePart line fun part => part.mapVoices fun voice => (f voice).1

/-- A barline is read. The part has at least one voice to take it. -/
def readBarline (e : Element) : Step Unit := do
  breakOff e.line
  let passage := (← get).passage
  let measure := passage.measureNumber
  let barline ← Barline.ofElement e measure
  tell (.barlineRead e.line barline.category barline.location measure)
  discard (voiceAt e.line passage.current)
  let (markers, explicitStart) := passMarkers barline passage.markers
  changePassage fun p => { p with markers }
  changeVoices e.line fun voice => voice.takeBarline barline explicitStart measure

/-- The part ends: repeats that are still pending in a voice end there, as a finding. -/
def endRepeats (line : Nat) : Step Unit := do
  let passage := (← get).passage
  let explicitStart := passage.markers.contains .repeatStart
  changePassage fun p => { p with markers := [] }
  let part ← currentPart line
  let pending := part.voices.countP fun voice => voice.pending?.isSome
  changeVoices line fun voice => voice.endRepeats explicitStart passage.measureNumber
  if pending ≠ 0 then find line (.unterminatedRepeats pending)

end Partwise
