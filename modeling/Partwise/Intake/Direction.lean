import Partwise.Intake.Place

/-!
# Intake · Direction: reading directions and tempo marks

A direction holds marks for the next note and directions that stand in the voice by themselves. A
sound that gives a tempo stands for a tempo mark where the direction has none.
-/

namespace Partwise

open Markup Text

/-- What a direction holds. -/
structure DirectionContent where
  attachments : Attachments := ∅
  standing : List Direction := []

/-- A count of dots, which is kept in eight bits. -/
def dotCount (dots : List Element) : Nat :=
  min dots.length 255

/-- A tempo mark of which only the beats per minute are known. -/
def Tempo.ofSound (tempo : String) : Tempo :=
  { beatUnit? := none, perMinute? := some tempo, words? := none }

/-- The tempo mark of an element. -/
def Tempo.ofMetronome (e : Element) : Journaled Tempo := do
  let noteType? ←
    match e.child? "beat-unit" with
    | none => pure none
    | some unit => wordOrNone (α := NoteType) unit.line .beatUnit (unit.text?.getD "")
  pure
    { beatUnit? := noteType?.map fun noteType =>
        { noteType, dots := dotCount (e.childrenNamed "beat-unit-dot") }
      perMinute? := e.childText? "per-minute"
      words? := none }

/-- The wedge of an element, if it has a type. -/
def Wedge.ofElement (e : Element) : Journaled (Option Wedge) := do
  match ← wordOrNone (α := WedgeKind) e.line .wedgeType ((e.attr? "type").getD "") with
  | none => pure none
  | some kind =>
    let number? ← ask (e.attrValue? .u32 "number")
    pure (some { kind, number := number?.getD 1, niente := e.attr? "niente" = some "yes" })

/-- The dynamic mark that an element is. What has no sign is kept by its name, and a mark of another
kind by its text. -/
def Dynamics.ofElement (e : Element) : Dynamics :=
  if e.name = "other-dynamics" then .other (e.text?.getD "")
  else (Dynamics.ofWord? e.name).getD (.other e.name)

namespace DirectionContent

/-- The content with one more mark for the next note. -/
def attach (d : DirectionContent) (a : Attachments) : DirectionContent :=
  { d with attachments := d.attachments ++ a }

/-- The content with one more standing direction. -/
def stand (d : DirectionContent) (direction : Direction) : DirectionContent :=
  { d with standing := d.standing ++ [direction] }

/-- The content with what one direction type says. -/
def read (placement? : Option Placement) (d : DirectionContent) (e : Element) :
    Journaled DirectionContent :=
  match e.name with
  | "dynamics" => pure (d.attach { dynamics := e.children.map Dynamics.ofElement })
  | "wedge" => do pure (d.attach { wedges := (← Wedge.ofElement e).toList })
  | "words" =>
    pure (d.attach { words := e.text?.toList.map fun text => { text, placement? } })
  | "pedal" => do
    let pedal? ← wordOrNone (α := PedalKind) e.line .pedalType ((e.attr? "type").getD "")
    pure (d.attach { pedals := pedal?.toList })
  | "metronome" => do pure (d.stand (.tempo (← Tempo.ofMetronome e)))
  | "rehearsal" => pure (d.stand (.rehearsal (e.text?.getD "")))
  | "segno" => pure (d.stand .segno)
  | "coda" => pure (d.stand .coda)
  | name => do
    find e.line (.skipped name .directionType)
    pure d

/-- The content with the tempo of a sound, if it has no tempo mark yet. -/
def withSound (d : DirectionContent) (tempo? : Option String) : DirectionContent :=
  match tempo? with
  | some tempo => if d.standing.any Direction.isTempo then d else d.stand (.tempo (.ofSound tempo))
  | none => d

/-- What a direction element holds. -/
def ofElement (e : Element) : Journaled DirectionContent := do
  let placement? := (e.attr? "placement").bind Vocabulary.ofWord?
  let types := (e.childrenNamed "direction-type").flatMap (·.children)
  let content ← types.foldlM (read placement?) {}
  pure (content.withSound ((e.child? "sound").bind (·.attr? "tempo")))

end DirectionContent

end Partwise
