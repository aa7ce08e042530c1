import Partwise.Report.Journal
import Partwise.Score.Part

/-!
# Intake · Place: which voice an element belongs to, and how long it lasts

An element may name its staff and its voice. What it leaves out is taken from a default place, and
on a staff other than that of the default from the first voice there. Numbers out of range end the
reading. Durations are counted in the divisions of the part they stand in.
-/

namespace Partwise

open Markup Text

/-- What the values of an element depend on besides the element itself. -/
structure Surroundings where
  /-- The highest voice number that is accepted. -/
  greatestVoice : Nat
  /-- The part that is being read. -/
  part? : Option Part

/-- A number of staves or of a staff, which is positive and fits 32 bits. -/
def staffCount (line : Nat) (notPositive tooLarge : Int → RangeFault) (n : Int) : Journaled Nat :=
  if n ≤ 0 then throw (.range line (notPositive n))
  else if 0x100000000 ≤ n then throw (.range line (tooLarge n))
  else pure n.toNat

/-- The first text with an attribute's value or none at all, when the value is a word of a list. -/
def attrWord {α : Type} [Vocabulary α] (e : Element) (name : String) (line : Nat) (list : WordList)
    (default : α) : Journaled (Option α) :=
  match e.attr? name with
  | none => pure none
  | some word => some <$> wordOr line list default word

namespace Surroundings

/-- The number of the first voice on a staff, 1 where the staff has no voice yet. -/
def firstVoiceOn (s : Surroundings) (staff : Nat) : Nat :=
  ((s.part?.bind fun p => (p.voicesOn staff).head?).map Voice.number).getD 1

/-- The place of an element. -/
def place (s : Surroundings) (e : Element) (default : VoiceKey) : Journaled VoiceKey := do
  let staff ←
    match ← ask (e.childValue? .i64 "staff") with
    | none => pure default.staff
    | some n => staffCount e.line .staffNotPositive .staffTooLarge n
  let voice ←
    match ← ask (e.childValue? .i64 "voice") with
    | none =>
      pure (if staff = default.staff then default.voice else s.firstVoiceOn staff)
    | some n =>
      if n < 1 ∨ s.greatestVoice < n then throw (.range e.line (.voiceOutside n s.greatestVoice))
      else pure n.toNat
  pure ⟨staff, voice⟩

/-- A number of divisions as a length of time. -/
def wholeNotes (s : Surroundings) (line : Nat) (divisions : Int) : Journaled WholeNotes :=
  match s.part? with
  | none => throw (.inconsistent line .durationOutsidePart)
  | some p => pure (mkRat divisions p.divisionsPerWhole)

/-- The duration that an element must have. -/
def duration (s : Surroundings) (e : Element) : Journaled WholeNotes := do
  s.wholeNotes e.line (← ask (e.requiredChild .i64 "duration"))

end Surroundings

end Partwise
