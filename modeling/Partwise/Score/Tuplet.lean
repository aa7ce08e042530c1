import Partwise.Score.Chord

/-!
# Score · Tuplet: groups of notes in another time, nested as they are written

A tuplet holds notes, chords and further tuplets. It sounds as long as its members together, and
`Tuplet.count` counts it and every tuplet inside it.
-/

namespace Partwise

mutual

/-- A group of notes in the time of another number of notes. -/
structure Tuplet where
  number : Nat
  actualNotes : Nat
  normalNotes : Nat
  divisionsPerWhole : Nat
  staffNumber : Nat
  voiceNumber : Nat
  measureNumber : String
  positionInMeasure : WholeNotes
  members : List TupletMember
  line : Nat

/-- A member of a tuplet. -/
inductive TupletMember where
  | note (n : Note)
  | chord (c : Chord)
  | tuplet (t : Tuplet)

end

/-! ## Length, number and notes -/

mutual

/-- How long the members sound together. -/
def Tuplet.soundingWholeNotes : Tuplet → WholeNotes
  | { members, .. } => soundingOfMembers members

/-- How long a member sounds. -/
def TupletMember.soundingWholeNotes : TupletMember → WholeNotes
  | .note n => n.soundingWholeNotes
  | .chord c => c.soundingWholeNotes
  | .tuplet t => t.soundingWholeNotes

/-- How long a list of members sounds. -/
def soundingOfMembers : List TupletMember → WholeNotes
  | [] => 0
  | m :: ms => m.soundingWholeNotes + soundingOfMembers ms

end

mutual

/-- How long the members sound together, where every partial sum fits words. -/
def Tuplet.sounding? : Tuplet → Option WholeNotes
  | { members, .. } => soundingFrom? 0 members

/-- How long a member sounds, where every partial sum fits words. -/
def TupletMember.sounding? : TupletMember → Option WholeNotes
  | .note n => some n.soundingWholeNotes
  | .chord c => some c.soundingWholeNotes
  | .tuplet t => t.sounding?

/-- A length to which those of a list of members are added one by one. -/
def soundingFrom? (total : WholeNotes) : List TupletMember → Option WholeNotes
  | [] => some total
  | m :: ms => do soundingFrom? (← total.plus? (← m.sounding?)) ms

end

mutual

/-- The number of tuplets, from this one inward. -/
def Tuplet.count : Tuplet → Nat
  | { members, .. } => 1 + countOfMembers members

/-- The number of tuplets in a member. -/
def TupletMember.count : TupletMember → Nat
  | .note _ => 0
  | .chord _ => 0
  | .tuplet t => t.count

/-- The number of tuplets in a list of members. -/
def countOfMembers : List TupletMember → Nat
  | [] => 0
  | m :: ms => m.count + countOfMembers ms

end

mutual

/-- The notes of a tuplet in order. -/
def Tuplet.notes : Tuplet → List Note
  | { members, .. } => notesOfMembers members

/-- The notes of a member in order. -/
def TupletMember.notes : TupletMember → List Note
  | .note n => [n]
  | .chord c => c.notes
  | .tuplet t => t.notes

/-- The notes of a list of members in order. -/
def notesOfMembers : List TupletMember → List Note
  | [] => []
  | m :: ms => m.notes ++ notesOfMembers ms

end

/-! ## Equality -/

mutual

/-- Equality of tuplets is decided part by part. -/
def Tuplet.decEq : (s t : Tuplet) → Decidable (s = t)
  | ⟨a₁, b₁, c₁, d₁, e₁, f₁, g₁, h₁, ms, l₁⟩, ⟨a₂, b₂, c₂, d₂, e₂, f₂, g₂, h₂, ns, l₂⟩ =>
    match decEqMembers ms ns with
    | .isTrue hm =>
      if h : a₁ = a₂ ∧ b₁ = b₂ ∧ c₁ = c₂ ∧ d₁ = d₂ ∧ e₁ = e₂ ∧ f₁ = f₂ ∧ g₁ = g₂ ∧ h₁ = h₂ ∧ l₁ = l₂
      then .isTrue (by simp_all)
      else .isFalse (by simp_all)
    | .isFalse hm => .isFalse (by simp_all)

/-- Equality of members is decided kind by kind. -/
def TupletMember.decEq : (s t : TupletMember) → Decidable (s = t)
  | .note m, .note n => decidable_of_iff (m = n) (by simp)
  | .chord c, .chord d => decidable_of_iff (c = d) (by simp)
  | .tuplet s, .tuplet t =>
    match Tuplet.decEq s t with
    | .isTrue h => .isTrue (by simp [h])
    | .isFalse h => .isFalse (by simp [h])
  | .note _, .chord _ => .isFalse (by simp)
  | .note _, .tuplet _ => .isFalse (by simp)
  | .chord _, .note _ => .isFalse (by simp)
  | .chord _, .tuplet _ => .isFalse (by simp)
  | .tuplet _, .note _ => .isFalse (by simp)
  | .tuplet _, .chord _ => .isFalse (by simp)

/-- Equality of lists of members is decided member by member. -/
def decEqMembers : (ms ns : List TupletMember) → Decidable (ms = ns)
  | [], [] => .isTrue rfl
  | [], _ :: _ => .isFalse (by simp)
  | _ :: _, [] => .isFalse (by simp)
  | m :: ms, n :: ns =>
    match TupletMember.decEq m n, decEqMembers ms ns with
    | .isTrue h, .isTrue hs => .isTrue (by simp [h, hs])
    | .isFalse h, _ => .isFalse (by simp [h])
    | _, .isFalse hs => .isFalse (by simp [hs])

end

instance : DecidableEq Tuplet := Tuplet.decEq
instance : DecidableEq TupletMember := TupletMember.decEq

/-! ## JSON form -/

mutual

/-- The JSON form of a tuplet. -/
def Tuplet.form : Tuplet → Json
  | { number, actualNotes, normalNotes, divisionsPerWhole, staffNumber, voiceNumber,
      measureNumber, positionInMeasure, members, line } => .object
    [("number", toJson number), ("actual_notes", toJson actualNotes),
     ("normal_notes", toJson normalNotes), ("divisions_per_whole", toJson divisionsPerWhole),
     ("staff_number", toJson staffNumber), ("voice_number", toJson voiceNumber),
     ("measure_number", toJson measureNumber), ("position_in_measure", toJson positionInMeasure),
     ("elements", .array (formsOfMembers members)), ("line", toJson line)]

/-- The JSON form of a member. -/
def TupletMember.form : TupletMember → Json
  | .note n => .object [("Note", toJson n)]
  | .chord c => .object [("Chord", toJson c)]
  | .tuplet t => .object [("Tuplet", t.form)]

/-- The JSON forms of a list of members. -/
def formsOfMembers : List TupletMember → List Json
  | [] => []
  | m :: ms => m.form :: formsOfMembers ms

end

mutual

/-- The tuplet that a JSON form stands for. -/
def Tuplet.ofForm? (j : Json) : Option Tuplet := do
  let members ← (← j.items? "elements").mapM fun item => TupletMember.ofForm? item.val
  some { number := ← j.get? "number", actualNotes := ← j.get? "actual_notes",
         normalNotes := ← j.get? "normal_notes",
         divisionsPerWhole := ← j.get? "divisions_per_whole",
         staffNumber := ← j.get? "staff_number", voiceNumber := ← j.get? "voice_number",
         measureNumber := ← j.get? "measure_number",
         positionInMeasure := ← j.get? "position_in_measure",
         members := members, line := ← j.get? "line" }
termination_by sizeOf j
decreasing_by exact item.property

/-- The member that a JSON form stands for. -/
def TupletMember.ofForm? (j : Json) : Option TupletMember :=
  match j with
  | .object [("Note", n)] => (ofJson? n).map TupletMember.note
  | .object [("Chord", c)] => (ofJson? c).map TupletMember.chord
  | .object [("Tuplet", t)] => (Tuplet.ofForm? t).map TupletMember.tuplet
  | _ => none
termination_by sizeOf j

end

instance : ToJson Tuplet := ⟨Tuplet.form⟩
instance : ToJson TupletMember := ⟨TupletMember.form⟩
instance : OfJson Tuplet := ⟨Tuplet.ofForm?⟩
instance : OfJson TupletMember := ⟨TupletMember.ofForm?⟩

end Partwise
