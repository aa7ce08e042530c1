import Partwise.Markup.Query
import Partwise.Score.Barline
import Partwise.Score.Duration

/-!
# Report · Failure: what ends the reading of a document

Three kinds of causes end a reading: the markup itself is at fault, a number is out of the range it
must lie in, or the document contradicts the structure of a score. A fourth stands for arithmetic
that the reader does without looking whether its result fits.
-/

namespace Partwise

/-- A number that is out of its range. -/
inductive RangeFault where
  | sumOverflows (position duration : WholeNotes)
  | differenceOverflows (position duration : WholeNotes)
  | staffNotPositive (n : Int)
  | staffTooLarge (n : Int)
  | voiceOutside (n : Int) (greatest : Nat)
  | clefStaffNotPositive (n : Int)
  | clefStaffTooLarge (n : Int)
  | divisionsEmpty
  | divisionsNotPositive (n : Int)
  | divisionsTooLarge (n : Int)
  | stavesNotPositive (n : Int)
  | stavesTooLarge (n : Int)
deriving DecidableEq, Repr

/-- The fault in words. -/
def RangeFault.message : RangeFault → String
  | sumOverflows position duration => s!"position {position.text} + {duration.text} overflows"
  | differenceOverflows position duration =>
    s!"position {position.text} - {duration.text} overflows"
  | staffNotPositive n => s!"staff number {n} is not positive"
  | staffTooLarge n => s!"staff number {n} is out of range"
  | voiceOutside n greatest => s!"voice number {n} is outside 1..={greatest}"
  | clefStaffNotPositive n => s!"clef staff number {n} is not positive"
  | clefStaffTooLarge n => s!"clef staff number {n} is out of range"
  | divisionsEmpty => "empty <divisions>"
  | divisionsNotPositive n => s!"divisions {n} is not positive"
  | divisionsTooLarge n => s!"divisions {n} is out of range"
  | stavesNotPositive n => s!"staves count {n} is not positive"
  | stavesTooLarge n => s!"staves count {n} is out of range"

/-- A contradiction to the structure of a score. -/
inductive StructureFault where
  | contentOutsidePart
  | durationOutsidePart
  | undeclaredPart (id : String)
  | partPlacedTwice (id : String)
  | restInChord
  | chordWithoutNote
  | noOpenTuplet
  | barlineWithoutRole (location : BarlineLocation) (repeat? : Option RepeatDirection)
      (ending? : Option EndingType)
deriving DecidableEq, Repr

/-- A named value that may be absent, in words. -/
def optionText {α : Type} [Vocabulary α] : Option α → String
  | some x => s!"Some({Vocabulary.name x})"
  | none => "None"

/-- The contradiction in words. -/
def StructureFault.message : StructureFault → String
  | contentOutsidePart => "musical content outside of any <part>"
  | durationOutsidePart => "duration outside of any <part>"
  | undeclaredPart id => s!"part '{id}' is not declared in the part list"
  | partPlacedTwice id => s!"part '{id}' declared twice or lost"
  | restInChord => "a rest cannot be a chord member"
  | chordWithoutNote => "chord member with no preceding note in its voice"
  | noOpenTuplet => "tuplet stop with no open tuplet"
  | barlineWithoutRole location repeat? ending? =>
    s!"barline at {Vocabulary.name location} with repeat {optionText repeat?} " ++
      s!"and ending {optionText ending?} matches no known role"

/-- What ends a reading. -/
inductive Failure where
  | markup (fault : Markup.Fault)
  | range (line : Nat) (fault : RangeFault)
  | inconsistent (line : Nat) (fault : StructureFault)
  /-- A result that nothing guards does not fit its word. -/
  | overflow (line : Nat)
deriving DecidableEq, Repr

namespace Failure

/-- The failure in words. -/
def message : Failure → String
  | markup fault => s!"XML parsing failed: {fault.message}"
  | range line fault => s!"Assertion failed at line {line}: {fault.message}"
  | inconsistent line fault => s!"Internal ingestion error at line {line}: {fault.message}"
  | overflow line => s!"arithmetic overflow at line {line}"

/-- The line of the element at fault, where one is. -/
def line? : Failure → Option Nat
  | markup fault => fault.line?
  | range line _ => some line
  | inconsistent line _ => some line
  | overflow line => some line

end Failure

end Partwise
