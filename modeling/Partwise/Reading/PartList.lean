import Partwise.Intake.Place
import Partwise.Reading.State

/-!
# Reading · PartList: declaring parts and nesting their groups

Open groups are kept in the order of their ordering keys, a group without a key innermost. Parts are
declared into the innermost open group; a group that is closed goes into the innermost one still
open, or among the roots where there is none. Members stand in the order they were declared in,
whenever they were closed.
-/

namespace Partwise

open Markup Text

/-! ## Groups -/

/-- Members with one more in its place in the sequence of declarations. -/
def insertMember (m : DraftMember) : List DraftMember → List DraftMember
  | [] => [m]
  | other :: others =>
    if Nat.blt m.sequence other.sequence then m :: other :: others
    else other :: insertMember m others

namespace PartList

/-- The part list with one more member in the innermost open group. -/
def insertInnermost (l : PartList) (m : DraftMember) : PartList :=
  { l with openGroups :=
      match l.openGroups.getLast? with
      | some innermost =>
        l.openGroups.dropLast ++ [{ innermost with members := insertMember m innermost.members }]
      | none => [] }

/-- The group lies inside a group with the ordering key, whose symbol stands further left. -/
def inside (key : Binary32) (draft : GroupDraft) : Bool :=
  draft.heading.orderingKey?.any fun own => key.less own

/-- The part list with one more open group, around the groups whose keys are greater. -/
def openGroup (l : PartList) (group : PartGroup) : PartList :=
  let draft : GroupDraft := { heading := group, members := [], sequence := l.declared + 1 }
  let around :=
    match group.orderingKey? with
    | none => l.openGroups.length
    | some key => (l.openGroups.findIdx? (inside key)).getD l.openGroups.length
  { l with
    openGroups := l.openGroups.insertIdx around draft
    declared := l.declared + 1 }

/-- The part list with a closed group put where it belongs. -/
def place (l : PartList) (draft : GroupDraft) : PartList :=
  if l.openGroups.isEmpty then { l with rootGroups := l.rootGroups ++ [draft] }
  else l.insertInnermost (.group draft)

/-- The innermost open group with a number, and the part list without it. -/
def takeGroup? (l : PartList) (number : String) : Option (GroupDraft × PartList) := do
  let i ← l.openGroups.reverse.findIdx? fun open' =>
    !open'.heading.isImplicit && open'.heading.id = number
  let at' := l.openGroups.length - 1 - i
  let draft ← l.openGroups[at']?
  some (draft, { l with openGroups := l.openGroups.eraseIdx at' })

/-- The part list with one more declared part. -/
def declarePart (l : PartList) (id : String) : PartList :=
  { l with declared := l.declared + 1 }.insertInnermost (.part id (l.declared + 1))

end PartList

/-- A change of the part list. -/
def changePartList (f : PartList → PartList) : Step Unit :=
  modify fun r => { r with partList := f r.partList }

/-- A group is closed. -/
def closeGroup (draft : GroupDraft) : Step Unit := do
  tell (.groupClosed draft.heading.id draft.members.length)
  changePartList fun l => l.place draft

/-- The innermost open group is closed; that it is still open is a finding. -/
def closeInnermost (line : Nat) : Step Unit := do
  let openGroups := (← get).partList.openGroups
  if let some draft := openGroups.getLast? then
    changePartList fun l => { l with openGroups := openGroups.dropLast }
    if !draft.heading.isImplicit then find line (.groupNotClosed draft.heading.id)
    closeGroup draft

/-- All open groups are closed, the innermost first. -/
def closeGroups (line : Nat) : Step Unit := do
  let count := (← get).partList.openGroups.length
  (List.range count).forM fun _ => closeInnermost line

/-! ## Reading declarations -/

/-- The group that an element starts, still without members. -/
def PartGroup.ofElement (e : Element) (number : String) : Journaled PartGroup := do
  let symbolElement := e.child? "group-symbol"
  let symbol ←
    match symbolElement.bind (·.text?) with
    | none => pure GroupSymbol.none
    | some word => wordOr e.line .groupSymbol GroupSymbol.none word
  let orderingKey? ←
    match symbolElement with
    | none => pure none
    | some symbolElement => ask (symbolElement.attrValue? .f32 "default-x")
  let barline := e.childText? "group-barline"
  pure
    { id := number
      name? := e.childText? "group-name"
      abbreviation? := e.childText? "group-abbreviation"
      symbol, orderingKey?
      barline := barline = some "yes" || barline = some "Mensurstrich"
      isImplicit := false
      members := []
      line := e.line }

/-- A group starts or stops. -/
def readPartGroup (e : Element) : Step Unit := do
  let number := (e.attr? "number").getD "1"
  match (e.attr? "type").getD "" with
  | "start" => do
    let group ← PartGroup.ofElement e number
    tell (.groupStarted e.line number group.orderingKey?)
    changePartList fun l => l.openGroup group
  | "stop" => do
    match (← get).partList.takeGroup? number with
    | some (draft, rest) =>
      changePartList fun _ => rest
      closeGroup draft
    | none => find e.line (.groupNotOpen number)
  | word => find e.line (.unknownWord .partGroupType word)

/-- The group for parts that are declared outside of all groups. -/
def PartGroup.implicit (line : Nat) : PartGroup where
  id := "implicit"
  name? := none
  abbreviation? := none
  symbol := .none
  orderingKey? := none
  barline := false
  isImplicit := true
  members := []
  line := line

/-- The part that an element declares, still without music. -/
def Part.ofElement (e : Element) (id : String) : Part :=
  { id
    name? := e.childText? "part-name"
    abbreviation? := e.childText? "part-abbreviation"
    instrumentName? := (e.child? "score-instrument").bind (·.childText? "instrument-name")
    line := e.line }

/-- A part is declared. Of several declarations of one id the first counts. -/
def readScorePart (e : Element) : Step Unit := do
  let some id := e.attr? "id" | throw (.markup (.missing e.line "score-part@id"))
  if (← get).parts.any fun part => part.id = id then find e.line (.duplicatePart id)
  else
    if (← get).partList.openGroups.isEmpty then
      changePartList fun l => l.openGroup (PartGroup.implicit e.line)
    changePartList fun l => l.declarePart id
    tell (.partDeclared e.line id)
    modify fun r => { r with parts := r.parts ++ [Part.ofElement e id] }

/-! ## The forest -/

mutual

/-- The group of a draft with its parts, and the parts that are left over. -/
def GroupDraft.assemble (parts : List Part) : GroupDraft → Except Failure (PartGroup × List Part)
  | ⟨heading, members, _⟩ => do
    let (members, left) ← assembleMembers heading.line parts members
    .ok ({ heading with members }, left)

/-- A member of a group with its parts, and the parts that are left over. -/
def DraftMember.assemble (line : Nat) (parts : List Part) :
    DraftMember → Except Failure (GroupMember × List Part)
  | .part id _ =>
    match parts.find? fun part => part.id = id with
    | some part => .ok (.part part, parts.filter fun part => part.id ≠ id)
    | none => .error (.inconsistent line (.partPlacedTwice id))
  | .group draft => do
    let (group, left) ← draft.assemble parts
    .ok (.group group, left)

/-- The members of a group with their parts, and the parts that are left over. -/
def assembleMembers (line : Nat) (parts : List Part) :
    List DraftMember → Except Failure (List GroupMember × List Part)
  | [] => .ok ([], parts)
  | m :: ms => do
    let (member, left) ← m.assemble line parts
    let (members, left) ← assembleMembers line left ms
    .ok (member :: members, left)

end

/-- The groups of a list of drafts. Each part is placed once. -/
def assembleGroups (parts : List Part) : List GroupDraft → Except Failure (List PartGroup)
  | [] => .ok []
  | draft :: drafts => do
    let (group, left) ← draft.assemble parts
    .ok (group :: (← assembleGroups left drafts))

end Partwise
