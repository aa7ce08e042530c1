import Partwise.Score.Vocabulary

/-!
# Score · Barline: barlines and the parts they play in repeats

A barline stands left, in the middle or right, and may carry a repeat direction and an ending.
`BarlineCategory.classify?` derives from these three what the barline does to the repeats around it;
the category is never read from a document. A combination that plays no part stands for nothing but
itself if it has a style of its own, and is refused otherwise.
-/

namespace Partwise

/-! ## What a barline carries -/

/-- Where in its measure a barline stands. -/
inductive BarlineLocation where
  | left | middle | right
deriving DecidableEq, Repr

instance : Vocabulary BarlineLocation where
  all := [.left, .middle, .right]
  name
    | .left => "Left" | .middle => "Middle" | .right => "Right"
  words := [("left", .left), ("middle", .middle), ("right", .right)]
  find_name x := by cases x <;> decide

/-- How a barline is drawn. -/
inductive BarlineStyle where
  | regular | dotted | dashed | heavy | lightLight | lightHeavy | heavyLight | heavyHeavy
  | tick | short | none
deriving DecidableEq, Repr

instance : Vocabulary BarlineStyle where
  all := [.regular, .dotted, .dashed, .heavy, .lightLight, .lightHeavy, .heavyLight, .heavyHeavy,
    .tick, .short, .none]
  name
    | .regular => "Regular"
    | .dotted => "Dotted"
    | .dashed => "Dashed"
    | .heavy => "Heavy"
    | .lightLight => "LightLight"
    | .lightHeavy => "LightHeavy"
    | .heavyLight => "HeavyLight"
    | .heavyHeavy => "HeavyHeavy"
    | .tick => "Tick"
    | .short => "Short"
    | .none => "None"
  words := [("regular", .regular), ("dotted", .dotted), ("dashed", .dashed), ("heavy", .heavy),
    ("light-light", .lightLight), ("light-heavy", .lightHeavy), ("heavy-light", .heavyLight),
    ("heavy-heavy", .heavyHeavy), ("tick", .tick), ("short", .short), ("none", .none)]
  find_name x := by cases x <;> decide

/-- What a barline does to an ending. -/
inductive EndingType where
  | start | stop | discontinue
deriving DecidableEq, Repr

instance : Vocabulary EndingType where
  all := [.start, .stop, .discontinue]
  name
    | .start => "Start" | .stop => "Stop" | .discontinue => "Discontinue"
  words := [("start", .start), ("stop", .stop), ("discontinue", .discontinue)]
  find_name x := by cases x <;> decide

/-- Which way a repeat sign points. -/
inductive RepeatDirection where
  | forward | backward
deriving DecidableEq, Repr

instance : Vocabulary RepeatDirection where
  all := [.forward, .backward]
  name
    | .forward => "Forward" | .backward => "Backward"
  words := [("forward", .forward), ("backward", .backward)]
  find_name x := by cases x <;> decide

/-- The wings of a repeat sign. -/
inductive RepeatWinged where
  | none | straight | curved | doubleStraight | doubleCurved
deriving DecidableEq, Repr

instance : Vocabulary RepeatWinged where
  all := [.none, .straight, .curved, .doubleStraight, .doubleCurved]
  name
    | .none => "None"
    | .straight => "Straight"
    | .curved => "Curved"
    | .doubleStraight => "DoubleStraight"
    | .doubleCurved => "DoubleCurved"
  words := [("none", .none), ("straight", .straight), ("curved", .curved),
    ("double-straight", .doubleStraight), ("double-curved", .doubleCurved)]
  find_name x := by cases x <;> decide

/-! ## Categories -/

/-- What a barline does to the repeats around it. -/
inductive BarlineCategory where
  | standalone | repeatStart | repeatEnd | endingStart | hookedEndingEnd | hooklessEndingEnd
deriving DecidableEq, Repr

instance : Vocabulary BarlineCategory where
  all := [.standalone, .repeatStart, .repeatEnd, .endingStart, .hookedEndingEnd, .hooklessEndingEnd]
  name
    | .standalone => "Standalone"
    | .repeatStart => "RepeatStart"
    | .repeatEnd => "RepeatEnd"
    | .endingStart => "EndingStart"
    | .hookedEndingEnd => "HookedEndingEnd"
    | .hooklessEndingEnd => "HooklessEndingEnd"
  find_name x := by cases x <;> decide

/-- The category of a barline. A forward repeat on the left opens a repeat whatever ending the
barline carries; on the right an ending that stops or discontinues counts before a backward
repeat. -/
def BarlineCategory.classify? (location : BarlineLocation) (repeat? : Option RepeatDirection)
    (ending? : Option EndingType) (styled : Bool) : Option BarlineCategory :=
  match location, repeat?, ending? with
  | .left, some .forward, _ => some .repeatStart
  | .right, _, some .stop => some .hookedEndingEnd
  | .right, _, some .discontinue => some .hooklessEndingEnd
  | .right, some .backward, _ => some .repeatEnd
  | .left, _, some .start => some .endingStart
  | _, none, none => some .standalone
  | _, _, _ => if styled then some .standalone else none

/-! ## Barlines -/

/-- A barline. -/
structure Barline where
  location : BarlineLocation
  style? : Option BarlineStyle
  ending? : Option EndingType
  /-- The numbers of the ending, `[1, 2]` for one that is played twice. -/
  endingNumbers : List Nat
  endingText? : Option String
  repeat? : Option RepeatDirection
  repeatTimes? : Option Nat
  winged? : Option RepeatWinged
  segno : Bool
  coda : Bool
  fermata : Bool
  category : BarlineCategory
  /-- The document does not have the barline; a repeat without a start was given one. -/
  isImplicit : Bool
  measureNumber : String
  line : Nat
deriving DecidableEq, Repr

namespace Barline

/-- The start of a repeat that the document did not open. -/
def implicitRepeatStart (measureNumber : String) : Barline where
  location := .left
  style? := some .heavyLight
  ending? := none
  endingNumbers := []
  endingText? := none
  repeat? := some .forward
  repeatTimes? := none
  winged? := none
  segno := false
  coda := false
  fermata := false
  category := .repeatStart
  isImplicit := true
  measureNumber := measureNumber
  line := 0

/-- The barline carries a backward repeat. -/
def isBackward (b : Barline) : Bool :=
  b.repeat? = some .backward

instance : ToJson Barline where
  toJson b := .object [("location", toJson b.location), ("style", toJson b.style?),
    ("ending", toJson b.ending?), ("ending_numbers", toJson b.endingNumbers),
    ("ending_text", toJson b.endingText?), ("repeat", toJson b.repeat?),
    ("repeat_times", toJson b.repeatTimes?), ("winged", toJson b.winged?),
    ("segno", toJson b.segno), ("coda", toJson b.coda), ("fermata", toJson b.fermata),
    ("category", toJson b.category), ("implicit", toJson b.isImplicit),
    ("measure_number", toJson b.measureNumber), ("line", toJson b.line)]

instance : OfJson Barline where
  ofJson? j := do
    some { location := ← j.get? "location", style? := ← j.get? "style",
           ending? := ← j.get? "ending", endingNumbers := ← j.get? "ending_numbers",
           endingText? := ← j.get? "ending_text", repeat? := ← j.get? "repeat",
           repeatTimes? := ← j.get? "repeat_times", winged? := ← j.get? "winged",
           segno := ← j.get? "segno", coda := ← j.get? "coda", fermata := ← j.get? "fermata",
           category := ← j.get? "category", isImplicit := ← j.get? "implicit",
           measureNumber := ← j.get? "measure_number", line := ← j.get? "line" }

end Barline

end Partwise
