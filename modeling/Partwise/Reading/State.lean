import Partwise.Report.Journal
import Partwise.Score.Basic

/-!
# Reading · State: how far the reading of a document has come

A document is read from its first element to its last. `Reading` is what is known after some of it:
the header, the part list with its open groups, the parts with the music so far, and the `Passage`,
which is everything that matters only until the current part ends. A `Step` changes it, keeps a
journal and may fail.
-/

namespace Partwise

/-! ## Part lists under construction -/

mutual

/-- A group of a part list that is being read. Its parts are known by their ids, and each member by
its place in the sequence of declarations. -/
structure GroupDraft where
  /-- The group, still without members. -/
  heading : PartGroup
  members : List DraftMember
  /-- Its place in the sequence of declarations. -/
  sequence : Nat

/-- A member of a group that is being read. -/
inductive DraftMember where
  | part (id : String) (sequence : Nat)
  | group (draft : GroupDraft)

end

/-- A member's place in the sequence of declarations. -/
def DraftMember.sequence : DraftMember → Nat
  | part _ sequence => sequence
  | group draft => draft.sequence

/-- The groups of the part list so far. -/
structure PartList where
  /-- The groups that are open, from the outermost to the innermost. -/
  openGroups : List GroupDraft := []
  /-- The groups that are closed and inside no other. -/
  rootGroups : List GroupDraft := []
  /-- How many groups and parts were declared. -/
  declared : Nat := 0

/-! ## Passages -/

/-- Where the reading stands within a part. -/
structure Passage where
  /-- The voice of the last note. -/
  current : VoiceKey := ⟨1, 1⟩
  /-- The starts of repeats and endings that no barline has ended yet, the last one first. -/
  markers : List BarlineCategory := []
  measureNumber : String := ""
  /-- The position in document order, which notes and movements in time change. -/
  position : WholeNotes := 0
  /-- How far each voice came in this measure, in ascending order of the voices. -/
  extents : List (VoiceKey × WholeNotes) := []
  /-- The voices that have content since the last check, ascending. -/
  unchecked : List VoiceKey := []
  /-- The open tuplets, the innermost first. -/
  tuplets : List Tuplet := []
  /-- The voice whose chord the next member may extend. -/
  chord? : Option VoiceKey := none
  /-- Marks that wait for a note. -/
  pending : Attachments := ∅

namespace Passage

/-- How far a voice came in this measure. -/
def extent (p : Passage) (key : VoiceKey) : WholeNotes :=
  (p.extents.lookup key).getD 0

/-- The passage after a voice came to a position. -/
def reach (p : Passage) (key : VoiceKey) (position : WholeNotes) : Passage :=
  let farthest := if Rat.blt (p.extent key) position then position else p.extent key
  { p with extents := upsert VoiceKey.before Prod.fst (key, farthest) p.extents }

/-- The passage after a voice was given content. -/
def touch (p : Passage) (key : VoiceKey) : Passage :=
  { p with unchecked := upsert VoiceKey.before id key p.unchecked }

/-- The farthest that any voice came in this measure. -/
def longest (p : Passage) : WholeNotes :=
  p.extents.foldl (fun longest e => if Rat.blt longest e.2 then e.2 else longest) 0

/-- The voice that the innermost open tuplet belongs to. -/
def tupletKey? (p : Passage) : Option VoiceKey :=
  p.tuplets.head?.map fun t => ⟨t.staffNumber, t.voiceNumber⟩

end Passage

/-! ## Readings -/

/-- What is known of a document after some of it. -/
structure Reading where
  identification : Identification := {}
  partList : PartList := {}
  /-- The declared parts in the order of their declarations, with the music so far. -/
  parts : List Part := []
  /-- The part that is being read. -/
  partId? : Option String := none
  passage : Passage := {}

namespace Reading

/-- The part that is being read. -/
def part? (r : Reading) : Option Part :=
  r.partId?.bind fun id => r.parts.find? fun p => p.id = id

/-- The reading with the part of that id in a new state. -/
def setPart (r : Reading) (part : Part) : Reading :=
  { r with parts := r.parts.map fun p => if p.id = part.id then part else p }

end Reading

/-! ## Steps -/

/-- A step of the reading. -/
abbrev Step := StateT Reading Journaled

/-- A change of the passage. -/
def changePassage (f : Passage → Passage) : Step Unit :=
  modify fun r => { r with passage := f r.passage }

/-- The part that is being read; music outside of all parts ends the reading. -/
def currentPart (line : Nat) : Step Part := do
  match (← get).part? with
  | some part => pure part
  | none => throw (.inconsistent line .contentOutsidePart)

/-- A change of the part that is being read. -/
def changePart (line : Nat) (f : Part → Part) : Step Unit := do
  let part ← currentPart line
  modify fun r => r.setPart (f part)

/-- A voice of the part that is being read. If it is not there yet, it begins now. -/
def voiceAt (line : Nat) (key : VoiceKey) : Step Voice := do
  let part ← currentPart line
  match part.voice? key with
  | some voice => pure voice
  | none =>
    tell (.voiceBegun part.id key)
    modify fun r => r.setPart (part.ensureVoice key)
    pure (part.newVoice key)

/-- A change of a voice of the part that is being read. -/
def changeVoice (line : Nat) (key : VoiceKey) (f : Voice → Voice) : Step Unit := do
  discard (voiceAt line key)
  changePart line fun part => part.modifyVoice key f

/-- One more element at the end of a voice. -/
def appendTo (line : Nat) (key : VoiceKey) (e : VoiceElement) : Step Unit :=
  changeVoice line key fun voice => voice.append e

end Partwise
