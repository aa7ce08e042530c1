import Partwise.Score.Signature
import Partwise.Score.Barline
import Partwise.Score.Tuplet

/-!
# Score · Voice: what a voice holds, repeats included

A voice holds elements in the order of the music: notes, chords and tuplets, barlines, clefs, keys,
times and directions, checks at the ends of measures, and repeats. A repeat holds the elements of
its body and of its endings. While a voice is read, its content stands in three places: `elements`
is closed, `pending?` is a repeat whose endings are still being collected, and `chunk` holds what
has come since the last boundary of a repeat. `Voice.flatten` is all of it in the order of the
music.
-/

namespace Partwise

/-- How an ending is closed: with a hook, or open to the right. -/
inductive EndingKind where
  | hooked | hookless
deriving DecidableEq, Repr

instance : Vocabulary EndingKind where
  all := [.hooked, .hookless]
  name
    | .hooked => "Hooked" | .hookless => "Hookless"
  find_name x := by cases x <;> decide

mutual

/-- One ending of a repeat. -/
structure Ending where
  /-- The rounds that end this way. -/
  numbers : List Nat
  kind : EndingKind
  chunk : List VoiceElement

/-- A repeated passage. -/
structure Repeat where
  /-- What every round begins with. -/
  body : List VoiceElement
  endings : List Ending
  /-- The document opens the repeat itself. -/
  explicitStart : Bool
  /-- How often the passage is played, where the document says so. -/
  times? : Option Nat

/-- What a voice holds. -/
inductive VoiceElement where
  | note (n : Note)
  | chord (c : Chord)
  | tuplet (t : Tuplet)
  | barline (b : Barline)
  | repeated (r : Repeat)
  | clef (c : Clef)
  | key (k : Key)
  | time (t : Time)
  | direction (d : Direction)
  /-- The end of a measure, with the number of the next one if the part goes on. -/
  | barCheck (nextMeasureNumber? : Option String)

end

instance : Inhabited Repeat := ⟨⟨[], [], false, none⟩⟩

/-! ## Measure, length and notes -/

mutual

/-- The measure an element was read in. A repeat is as old as the first element of its body that
says where it was read. -/
def VoiceElement.measureNumber? : VoiceElement → Option String
  | .note n => some n.measureNumber
  | .chord c => some c.measureNumber
  | .tuplet t => some t.measureNumber
  | .barline b => some b.measureNumber
  | .repeated r => r.measureNumber?
  | _ => none

/-- The measure a repeat was read in. -/
def Repeat.measureNumber? : Repeat → Option String
  | { body, .. } => firstMeasureNumber? body

/-- The first measure number that the elements have. -/
def firstMeasureNumber? : List VoiceElement → Option String
  | [] => none
  | e :: es => e.measureNumber?.or (firstMeasureNumber? es)

end

/-- The time an element takes. A repeat is not counted. -/
def VoiceElement.soundingWholeNotes : VoiceElement → WholeNotes
  | .note n => n.soundingWholeNotes
  | .chord c => c.soundingWholeNotes
  | .tuplet t => t.soundingWholeNotes
  | _ => 0

mutual

/-- The notes of an element in order. -/
def VoiceElement.notes : VoiceElement → List Note
  | .note n => [n]
  | .chord c => c.notes
  | .tuplet t => t.notes
  | .repeated r => r.notes
  | _ => []

/-- The notes of a repeat: those of its body, then those of its endings. -/
def Repeat.notes : Repeat → List Note
  | { body, endings, .. } => notesOfElements body ++ notesOfEndings endings

/-- The notes of a list of elements in order. -/
def notesOfElements : List VoiceElement → List Note
  | [] => []
  | e :: es => e.notes ++ notesOfElements es

/-- The notes of a list of endings in order. -/
def notesOfEndings : List Ending → List Note
  | [] => []
  | { chunk, .. } :: endings => notesOfElements chunk ++ notesOfEndings endings

end

mutual

/-- An element in the order of the music: a repeat is its body and then its endings. -/
def VoiceElement.flatten : VoiceElement → List VoiceElement
  | .repeated r => r.flatten
  | e => [e]

/-- A repeat in the order of the music. -/
def Repeat.flatten : Repeat → List VoiceElement
  | { body, endings, .. } => flattenElements body ++ flattenEndings endings

/-- A list of elements in the order of the music. -/
def flattenElements : List VoiceElement → List VoiceElement
  | [] => []
  | e :: es => e.flatten ++ flattenElements es

/-- A list of endings in the order of the music. -/
def flattenEndings : List Ending → List VoiceElement
  | [] => []
  | { chunk, .. } :: endings => flattenElements chunk ++ flattenEndings endings

end

namespace VoiceElement

/-- The barline that an element is, if it is one. -/
def barline? : VoiceElement → Option Barline
  | barline b => some b
  | _ => none

/-- The repeat that an element is, if it is one. -/
def repeat? : VoiceElement → Option Repeat
  | .repeated r => some r
  | _ => none

end VoiceElement

/-- The barline that a chunk opens with, if it opens with one. -/
def firstBarline? (chunk : List VoiceElement) : Option Barline :=
  chunk.head?.bind VoiceElement.barline?

/-! ## Equality -/

mutual

/-- Two elements are the same, kind by kind. -/
def VoiceElement.same : VoiceElement → VoiceElement → Bool
  | .note x, .note y => x = y
  | .chord x, .chord y => x = y
  | .tuplet x, .tuplet y => x = y
  | .barline x, .barline y => x = y
  | .repeated x, .repeated y => x.same y
  | .clef x, .clef y => x = y
  | .key x, .key y => x = y
  | .time x, .time y => x = y
  | .direction x, .direction y => x = y
  | .barCheck x, .barCheck y => x = y
  | _, _ => false

/-- Two repeats are the same, part by part. -/
def Repeat.same : Repeat → Repeat → Bool
  | ⟨body₁, endings₁, explicit₁, times₁⟩, ⟨body₂, endings₂, explicit₂, times₂⟩ =>
    sameElements body₁ body₂ && sameEndings endings₁ endings₂ && explicit₁ = explicit₂ &&
      times₁ = times₂

/-- Two lists of elements are the same, element by element. -/
def sameElements : List VoiceElement → List VoiceElement → Bool
  | [], [] => true
  | a :: as, b :: bs => a.same b && sameElements as bs
  | _, _ => false

/-- Two lists of endings are the same, ending by ending. -/
def sameEndings : List Ending → List Ending → Bool
  | [], [] => true
  | ⟨numbers₁, kind₁, chunk₁⟩ :: as, ⟨numbers₂, kind₂, chunk₂⟩ :: bs =>
    numbers₁ = numbers₂ && kind₁ = kind₂ && sameElements chunk₁ chunk₂ && sameEndings as bs
  | _, _ => false

end

mutual

theorem VoiceElement.same_iff (a b : VoiceElement) : a.same b = true ↔ a = b := by
  match a with
  | .repeated r =>
    cases b with
    | repeated s => simp [VoiceElement.same, r.same_iff s]
    | _ => simp [VoiceElement.same]
  | .note _ => cases b <;> simp [VoiceElement.same]
  | .chord _ => cases b <;> simp [VoiceElement.same]
  | .tuplet _ => cases b <;> simp [VoiceElement.same]
  | .barline _ => cases b <;> simp [VoiceElement.same]
  | .clef _ => cases b <;> simp [VoiceElement.same]
  | .key _ => cases b <;> simp [VoiceElement.same]
  | .time _ => cases b <;> simp [VoiceElement.same]
  | .direction _ => cases b <;> simp [VoiceElement.same]
  | .barCheck _ => cases b <;> simp [VoiceElement.same]

theorem Repeat.same_iff (r s : Repeat) : r.same s = true ↔ r = s := by
  match r, s with
  | ⟨body₁, endings₁, _, _⟩, ⟨body₂, endings₂, _, _⟩ =>
    simp [Repeat.same, sameElements_iff body₁ body₂, sameEndings_iff endings₁ endings₂, and_assoc]

theorem sameElements_iff (as bs : List VoiceElement) : sameElements as bs = true ↔ as = bs := by
  match as, bs with
  | [], [] => simp [sameElements]
  | [], _ :: _ => simp [sameElements]
  | _ :: _, [] => simp [sameElements]
  | a :: as, b :: bs => simp [sameElements, a.same_iff b, sameElements_iff as bs]

theorem sameEndings_iff (as bs : List Ending) : sameEndings as bs = true ↔ as = bs := by
  match as, bs with
  | [], [] => simp [sameEndings]
  | [], _ :: _ => simp [sameEndings]
  | _ :: _, [] => simp [sameEndings]
  | ⟨_, _, chunk₁⟩ :: as, ⟨_, _, chunk₂⟩ :: bs =>
    simp [sameEndings, sameElements_iff chunk₁ chunk₂, sameEndings_iff as bs, and_assoc]

end

instance : DecidableEq VoiceElement := fun a b => decidable_of_iff _ (a.same_iff b)

instance : DecidableEq Repeat := fun r s => decidable_of_iff _ (r.same_iff s)

/-! ## JSON form -/

mutual

/-- The JSON form of an element. -/
def VoiceElement.form : VoiceElement → Json
  | .note n => .object [("Note", toJson n)]
  | .chord c => .object [("Chord", toJson c)]
  | .tuplet t => .object [("Tuplet", toJson t)]
  | .barline b => .object [("Barline", toJson b)]
  | .repeated r => .object [("Repeat", r.form)]
  | .clef c => .object [("Clef", toJson c)]
  | .key k => .object [("Key", toJson k)]
  | .time t => .object [("Time", toJson t)]
  | .direction d => .object [("Direction", toJson d)]
  | .barCheck next? => .object [("BarCheck", .object [("next_measure_number", toJson next?)])]

/-- The JSON form of a repeat. -/
def Repeat.form : Repeat → Json
  | { body, endings, explicitStart, times? } => .object
    [("common_part", .object [("elements", .array (formsOfElements body))]),
     ("endings", .array (formsOfEndings endings)), ("explicit_start", toJson explicitStart),
     ("times", toJson times?)]

/-- The JSON forms of a list of elements. -/
def formsOfElements : List VoiceElement → List Json
  | [] => []
  | e :: es => e.form :: formsOfElements es

/-- The JSON forms of a list of endings. -/
def formsOfEndings : List Ending → List Json
  | [] => []
  | { numbers, kind, chunk } :: endings =>
    .object [("numbers", toJson numbers), ("kind", toJson kind),
      ("chunk", .object [("elements", .array (formsOfElements chunk))])] :: formsOfEndings endings

end

/-- The JSON form of a chunk. -/
def chunkForm (chunk : List VoiceElement) : Json :=
  .object [("elements", .array (formsOfElements chunk))]

mutual

/-- The element that a JSON form stands for. -/
def VoiceElement.ofForm? (j : Json) : Option VoiceElement :=
  match j with
  | .object [("Note", n)] => (ofJson? n).map VoiceElement.note
  | .object [("Chord", c)] => (ofJson? c).map VoiceElement.chord
  | .object [("Tuplet", t)] => (ofJson? t).map VoiceElement.tuplet
  | .object [("Barline", b)] => (ofJson? b).map VoiceElement.barline
  | .object [("Repeat", r)] => (Repeat.ofForm? r).map VoiceElement.repeated
  | .object [("Clef", c)] => (ofJson? c).map VoiceElement.clef
  | .object [("Key", k)] => (ofJson? k).map VoiceElement.key
  | .object [("Time", t)] => (ofJson? t).map VoiceElement.time
  | .object [("Direction", d)] => (ofJson? d).map VoiceElement.direction
  | .object [("BarCheck", b)] => (b.get? "next_measure_number").map VoiceElement.barCheck
  | _ => none
termination_by sizeOf j

/-- The repeat that a JSON form stands for. -/
def Repeat.ofForm? (j : Json) : Option Repeat := do
  let body ← j.part? "common_part"
  let endings ← (← j.items? "endings").mapM fun item => Ending.ofForm? item.val
  some { body := ← chunkOfForm? body.val, endings := endings,
         explicitStart := ← j.get? "explicit_start", times? := ← j.get? "times" }
termination_by sizeOf j
decreasing_by
  · exact item.property
  · exact body.property

/-- The ending that a JSON form stands for. -/
def Ending.ofForm? (j : Json) : Option Ending := do
  let chunk ← j.part? "chunk"
  some { numbers := ← j.get? "numbers", kind := ← j.get? "kind",
         chunk := ← chunkOfForm? chunk.val }
termination_by sizeOf j
decreasing_by exact chunk.property

/-- The elements of the chunk that a JSON form stands for. -/
def chunkOfForm? (j : Json) : Option (List VoiceElement) := do
  (← j.items? "elements").mapM fun item => VoiceElement.ofForm? item.val
termination_by sizeOf j
decreasing_by exact item.property

end

instance : ToJson VoiceElement := ⟨VoiceElement.form⟩
instance : OfJson VoiceElement := ⟨VoiceElement.ofForm?⟩
instance : ToJson Repeat := ⟨Repeat.form⟩
instance : OfJson Repeat := ⟨Repeat.ofForm?⟩

/-! ## Voices -/

/-- A voice, complete or while it is being read. -/
structure Voice where
  number : Nat
  staffNumber : Nat
  /-- Closed content. -/
  elements : List VoiceElement := []
  /-- What has come since the last boundary of a repeat. -/
  chunk : List VoiceElement := []
  /-- A repeat whose endings are still being collected. -/
  pending? : Option Repeat := none
  positionInMeasure : WholeNotes := 0
  divisionsPerWhole : Nat
  /-- The stanzas the voice has sung so far, in ascending order. -/
  stanzas : List String := []
  /-- How many slurs are open, and the first chunk of the note that opened the outermost. -/
  slurDepth : Nat := 0
  slurOpening? : Option LyricKind := none
deriving DecidableEq

/-- A voice of a part is known by the numbers of its staff and its own. -/
structure VoiceKey where
  staff : Nat
  voice : Nat
deriving DecidableEq, Repr

/-- Voices are ordered by staff and, on one staff, by their own numbers. -/
def VoiceKey.before (a b : VoiceKey) : Bool :=
  Nat.blt a.staff b.staff || (a.staff == b.staff && Nat.blt a.voice b.voice)

namespace Voice

/-- The numbers of the voice's staff and its own. -/
def key (v : Voice) : VoiceKey := ⟨v.staffNumber, v.number⟩

/-- An empty voice. -/
def empty (number staffNumber divisionsPerWhole : Nat) : Voice :=
  { number, staffNumber, divisionsPerWhole }

/-- One more element at the end. -/
def append (v : Voice) (e : VoiceElement) : Voice :=
  { v with chunk := v.chunk ++ [e] }

/-- The open chunk becomes closed content. -/
def flush (v : Voice) : Voice :=
  { v with elements := v.elements ++ v.chunk, chunk := [] }

/-- The closed content and the open chunk; a pending repeat is left out. -/
def settled (v : Voice) : List VoiceElement := v.elements ++ v.chunk

/-- The notes of the closed content and the open chunk. -/
def notes (v : Voice) : List Note := notesOfElements v.settled

/-- The repeats among the closed content. -/
def repeats (v : Voice) : List Repeat := v.elements.filterMap VoiceElement.repeat?

/-- All content in the order of the music: closed content, the pending repeat, the open chunk. -/
def flatten (v : Voice) : List VoiceElement :=
  flattenElements (v.elements ++ v.pending?.toList.map VoiceElement.repeated ++ v.chunk)

/-- Closing the open chunk changes nothing about the notes. -/
theorem notes_flush (v : Voice) : v.flush.notes = v.notes := by
  simp [notes, settled, flush]

instance : ToJson Voice where
  toJson v := .object [("number", toJson v.number), ("staff_number", toJson v.staffNumber),
    ("elements", toJson v.elements), ("current_chunk", chunkForm v.chunk),
    ("pending_repeat", toJson v.pending?),
    ("position_in_measure", toJson v.positionInMeasure),
    ("divisions_per_whole", toJson v.divisionsPerWhole), ("stanzas", toJson v.stanzas)]

instance : OfJson Voice where
  ofJson? j := do
    some { number := ← j.get? "number", staffNumber := ← j.get? "staff_number",
           elements := ← j.get? "elements",
           chunk := ← chunkOfForm? (← j.member? "current_chunk"),
           pending? := ← j.get? "pending_repeat",
           positionInMeasure := ← j.get? "position_in_measure",
           divisionsPerWhole := ← j.get? "divisions_per_whole", stanzas := ← j.get? "stanzas" }

end Voice

end Partwise
