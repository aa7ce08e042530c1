import Partwise.Intake.Place

/-!
# Intake · Barline: reading a barline

Words outside their lists are findings; a barline whose location, repeat and ending together play no
part, and which has no style to show either, ends the reading.
-/

namespace Partwise

open Markup Text

/-- The numbers of an ending, between commas or blanks; what is no number is passed over. -/
def numbersOfEnding (raw : String) : List Nat :=
  (pieces (fun c => c == ',' || isBlank c) raw.toList).filterMap fun piece =>
    Format.u32.read (trim (String.ofList piece))

/-- The barline of an element in a measure. -/
def Barline.ofElement (e : Element) (measure : String) : Journaled Barline := do
  let location ← attrWord e "location" e.line .barlineLocation BarlineLocation.right
  let location := location.getD .right
  let style? ←
    match e.childText? "bar-style" with
    | none => pure none
    | some word => some <$> wordOr e.line .barStyle BarlineStyle.regular word
  let ending := e.child? "ending"
  let ending? ←
    match ending.bind (·.attr? "type") with
    | none => pure none
    | some word => wordOrNone (α := EndingType) e.line .endingType word
  let sign := e.child? "repeat"
  let repeat? ←
    match sign.bind (·.attr? "direction") with
    | none => pure none
    | some word => wordOrNone (α := RepeatDirection) e.line .repeatDirection word
  let winged? ←
    match sign with
    | none => pure none
    | some sign => attrWord sign "winged" e.line .repeatWinged RepeatWinged.none
  let repeatTimes? ←
    match sign with
    | none => pure none
    | some sign => ask (sign.attrValue? .u32 "times")
  let some category := BarlineCategory.classify? location repeat? ending? style?.isSome
    | throw (.inconsistent e.line (.barlineWithoutRole location repeat? ending?))
  pure
    { location, style?, ending?, repeat?, repeatTimes?, winged?, category
      endingNumbers := (ending.bind (·.attr? "number")).elim [] numbersOfEnding
      endingText? := ending.bind (·.text?)
      segno := e.has "segno"
      coda := e.has "coda"
      fermata := e.has "fermata"
      isImplicit := false
      measureNumber := measure
      line := e.line }

end Partwise
