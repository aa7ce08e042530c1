import Partwise.Intake.Place

/-!
# Intake · Signature: reading divisions, keys, times and clefs
-/

namespace Partwise

open Markup Text

/-- The divisions of a whole note. The document counts those of a quarter. -/
def divisionsOfElement (e : Element) : Journaled Nat := do
  let some perQuarter ← ask (e.value? .i64)
    | throw (.range e.line .divisionsEmpty)
  if perQuarter ≤ 0 then throw (.range e.line (.divisionsNotPositive perQuarter))
  else if 0x100000000 ≤ 4 * perQuarter then throw (.range e.line (.divisionsTooLarge perQuarter))
  else pure (4 * perQuarter).toNat

/-- The key of an element. -/
def Key.ofElement (e : Element) : Journaled Key := do
  let fifths ← ask (e.childValue? .i8 "fifths")
  let mode ←
    match e.childText? "mode" with
    | none => pure KeyMode.major
    | some word => wordOr e.line .keyMode KeyMode.major word
  pure { fifths := fifths.getD 0, mode }

/-- The time of an element. -/
def Time.ofElement (e : Element) : Journaled Time := do
  let symbol? ← attrWord e "symbol" e.line .timeSymbol TimeSymbol.normal
  let symbol := symbol?.getD .normal
  if e.has "senza-misura" then pure { beats := "", beatType := 0, symbol, senzaMisura := true }
  else
    let beatType? ← ask (e.childValue? .u32 "beat-type")
    pure { beats := (e.childText? "beats").getD "4", beatType := beatType?.getD 4, symbol,
           senzaMisura := false }

/-- The number of staves of a part. -/
def staffCountOfElement (e : Element) : Journaled Nat := do
  let count? ← ask (e.value? .i64)
  staffCount e.line .stavesNotPositive .stavesTooLarge (count?.getD 1)

/-- The clef of an element. -/
def Clef.ofElement (e : Element) : Journaled Clef := do
  let staffNumber ←
    match ← ask (e.attrValue? .i64 "number") with
    | none => pure 1
    | some n => staffCount e.line .clefStaffNotPositive .clefStaffTooLarge n
  let line? ← ask (e.childValue? .u8 "line")
  let sign := (e.childText? "sign").getD ""
  let kind ←
    match ClefKind.ofSign? sign line? with
    | some kind => pure kind
    | none => do
      find e.line (.unknownWord .clefSign sign)
      pure ClefKind.treble
  let octaveChange? ← ask (e.childValue? .i8 "clef-octave-change")
  pure { kind, octaveChange := octaveChange?.getD 0, staffNumber }

end Partwise
