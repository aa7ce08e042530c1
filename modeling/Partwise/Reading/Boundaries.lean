import Partwise.Reading.Repeats

/-!
# Reading · Boundaries: where parts and measures begin and end

At the end of a measure open tuplets close and marks without a note are dropped; the check that
closes the measure in a voice is put there once it is known which measure comes next. At the start
of a part everything in the passage begins anew.
-/

namespace Partwise

open Markup

/-- Every voice that has content since the last check gets one now. -/
def checkBars (line : Nat) (nextMeasure? : Option String) : Step Unit := do
  let unchecked := (← get).passage.unchecked
  changePassage fun p => { p with unchecked := [] }
  unchecked.forM fun key => appendTo line key (.barCheck nextMeasure?)

/-- What is open in the passage ends: tuplets, the chord, and marks without a note. -/
def settle (line : Nat) : Step Unit := do
  breakOff line
  dropPending line

/-! ## Measures -/

/-- A measure begins, for all voices at position zero. -/
def enterMeasure (e : Element) : Step Unit := do
  let number := (e.attr? "number").getD ""
  checkBars e.line (some number)
  tell (.measureEntered e.line number)
  changePart e.line fun part =>
    { part with measureNumber := number }.mapVoices fun voice =>
      { voice with positionInMeasure := 0 }
  changePassage fun p => { p with measureNumber := number, position := 0, extents := [] }

/-- A measure ends. A voice with content that did not come as far as the longest one is a
finding. -/
def leaveMeasure (e : Element) : Step Unit := do
  settle e.line
  let passage := (← get).passage
  let short := passage.unchecked.filter fun key => Rat.blt (passage.extent key) passage.longest
  short.forM fun key =>
    find e.line (.incompleteVoice passage.measureNumber key.voice key.staff (passage.extent key)
      passage.longest)

/-! ## Parts -/

/-- The music of a declared part begins. -/
def enterPart (e : Element) : Step Unit := do
  let id := (e.attr? "id").getD ""
  if (← get).parts.any fun part => part.id = id then
    tell (.partEntered e.line id)
    modify fun r => { r with partId? := some id, passage := {} }
  else throw (.inconsistent e.line (.undeclaredPart id))

/-- The music of a part ends: all its content is closed. -/
def leavePart (e : Element) : Step Unit := do
  settle e.line
  checkBars e.line none
  endRepeats e.line
  changePart e.line fun part => part.mapVoices Voice.flush
  modify fun r => { r with partId? := none }

end Partwise
