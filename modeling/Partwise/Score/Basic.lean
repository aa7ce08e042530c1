import Partwise.Score.Group

/-!
# Score · Basic: scores and where they come from

A score is a forest of part groups with the titles, people and rights that its header names.
-/

namespace Partwise

/-- Someone who made the music, with what they did. -/
structure Creator where
  kind? : Option String
  name : String
deriving DecidableEq, Repr

instance : ToJson Creator where
  toJson c := .object [("kind", toJson c.kind?), ("name", toJson c.name)]

instance : OfJson Creator where
  ofJson? j := do some { kind? := ← j.get? "kind", name := ← j.get? "name" }

/-- What the header of a document says. -/
structure Identification where
  workNumber? : Option String := none
  workTitle? : Option String := none
  opus? : Option String := none
  movementNumber? : Option String := none
  movementTitle? : Option String := none
  creators : List Creator := []
  rights : List String := []
  software : List String := []
  encodingDate? : Option String := none
  source? : Option String := none
deriving DecidableEq, Repr

namespace Identification

/-- The names of those who did something. -/
def creatorsOf (i : Identification) (kind : String) : List String :=
  (i.creators.filter fun c => c.kind? = some kind).map Creator.name

/-- The title of the movement, or that of the work where the movement has none. -/
def title? (i : Identification) : Option String :=
  i.movementTitle?.or i.workTitle?

instance : ToJson Identification where
  toJson i := .object [("work_number", toJson i.workNumber?), ("work_title", toJson i.workTitle?),
    ("opus", toJson i.opus?), ("movement_number", toJson i.movementNumber?),
    ("movement_title", toJson i.movementTitle?), ("creators", toJson i.creators),
    ("rights", toJson i.rights), ("software", toJson i.software),
    ("encoding_date", toJson i.encodingDate?), ("source", toJson i.source?)]

instance : OfJson Identification where
  ofJson? j := do
    some { workNumber? := ← j.get? "work_number", workTitle? := ← j.get? "work_title",
           opus? := ← j.get? "opus", movementNumber? := ← j.get? "movement_number",
           movementTitle? := ← j.get? "movement_title", creators := ← j.get? "creators",
           rights := ← j.get? "rights", software := ← j.get? "software",
           encodingDate? := ← j.get? "encoding_date", source? := ← j.get? "source" }

end Identification

/-- A score. -/
structure Score where
  identification : Identification
  groups : List PartGroup
deriving DecidableEq

namespace Score

/-- The parts of a score in order. -/
def parts (s : Score) : List Part := s.groups.flatMap PartGroup.parts

/-- The part with an id. -/
def part? (s : Score) (id : String) : Option Part := s.parts.find? fun p => p.id = id

instance : ToJson Score where
  toJson s := .object [("identification", toJson s.identification),
    ("part_groups", toJson s.groups)]

instance : OfJson Score where
  ofJson? j := do
    some { identification := ← j.get? "identification", groups := ← j.get? "part_groups" }

end Score

end Partwise
