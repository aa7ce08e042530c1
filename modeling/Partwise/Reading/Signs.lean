import Partwise.Intake.Direction
import Partwise.Intake.Signature
import Partwise.Reading.Cursor

/-!
# Reading · Signs: what holds in all voices, and what directions say

Divisions, keys, times and clefs come into force in the part, so that later voices begin with them,
and are put into the voices that are there already. Marks for notes wait for the next note; standing
directions go into a voice at once.
-/

namespace Partwise

open Markup

/-! ## Attributes -/

namespace Part

/-- The part with other divisions of a whole note, in force in all its voices. -/
def withDivisions (p : Part) (perWhole : Nat) : Part :=
  { p with divisionsPerWhole := perWhole }.mapVoices fun voice =>
    { voice with divisionsPerWhole := perWhole }

/-- The part with a key in force, which all its voices change to. -/
def withKey (p : Part) (key : Key) : Part :=
  { p with key? := some key }.mapVoices fun voice => voice.append (.key key)

/-- The part with a time in force, which all its voices change to. -/
def withTime (p : Part) (time : Time) : Part :=
  { p with time? := some time }.mapVoices fun voice => voice.append (.time time)

/-- The part with a clef in force on its staff, which all voices there change to. -/
def withClef (p : Part) (clef : Clef) : Part :=
  (p.setClef clef).mapVoices fun voice =>
    if voice.staffNumber = clef.staffNumber then voice.append (.clef clef) else voice

end Part

/-- A value is read from a child, if there is one, and changes the part. -/
def changeByChild {α : Type} (e : Element) (name : String) (read : Element → Journaled α)
    (change : Part → α → Part) : Step Unit := do
  if let some child := e.child? name then
    let value ← read child
    changePart e.line fun part => change part value

/-- New divisions come into force. -/
def readDivisions (e : Element) : Step Unit := do
  let perWhole ← divisionsOfElement e
  changePart e.line fun part => part.withDivisions perWhole
  tell (.divisionsSet e.line perWhole)

/-- What attributes hold besides signs that are kept. -/
def isLayoutOfStaves (name : String) : Bool :=
  name == "transpose" || name == "measure-style" || name == "staff-details"

/-- Attributes are read: divisions, key, time, staves, and the clefs one by one. -/
def readAttributes (e : Element) : Step Unit := do
  if let some divisions := e.child? "divisions" then readDivisions divisions
  changeByChild e "key" Key.ofElement Part.withKey
  changeByChild e "time" Time.ofElement Part.withTime
  changeByChild e "staves" staffCountOfElement Part.ensureStaves
  (e.childrenNamed "clef").forM fun child => do
    let clef ← Clef.ofElement child
    changePart e.line fun part => part.withClef clef
  (e.children.filter fun child => isLayoutOfStaves child.name).forM fun child =>
    find child.line (.skipped child.name .structureless)

/-! ## Directions -/

/-- A direction is read. It names a voice like a note does, or else belongs to the current one. -/
def readDirection (settings : Settings) (e : Element) : Step Unit := do
  let current := (← get).passage.current
  let key ← (← surroundings settings).place e current
  let content ← DirectionContent.ofElement e
  changePassage fun p => { p with pending := p.pending ++ content.attachments }
  content.standing.forM fun direction => appendTo e.line key (.direction direction)

/-- A sound between notes is read, of which only the tempo is kept. -/
def readSound (e : Element) : Step Unit := do
  match e.attr? "tempo" with
  | none => find e.line (.skipped e.name .soundWithoutTempo)
  | some tempo =>
    appendTo e.line (← get).passage.current (.direction (.tempo (.ofSound tempo)))

end Partwise
