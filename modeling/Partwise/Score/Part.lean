import Partwise.Score.Ordered
import Partwise.Score.Voice

/-!
# Score · Part: parts with their staves, voices and current signs

A part has staves and on them voices, both in ascending order of their numbers. It remembers the
clef of each staff, the key, the time and the divisions that are in force, so that a voice which
comes in later can begin with them: `Part.ensureVoice` is where a voice comes into being.
-/

namespace Partwise

/-- A part of a score. -/
structure Part where
  id : String
  name? : Option String := none
  abbreviation? : Option String := none
  instrumentName? : Option String := none
  /-- The numbers of the staves, ascending; a staff may be without voices. -/
  staves : List Nat := []
  /-- The voices of all staves, ascending by staff and voice number. -/
  voices : List Voice := []
  /-- Divisions of a whole note, which durations are counted in. -/
  divisionsPerWhole : Nat := 4
  /-- The clef in force on each staff, ascending by staff number. -/
  clefs : List Clef := []
  key? : Option Key := none
  time? : Option Time := none
  /-- The number of the last measure that was entered. -/
  measureNumber : String := ""
  line : Nat
deriving DecidableEq

namespace Part

/-! ## Voices by their keys -/

/-- The voice with a key. -/
def voice? (p : Part) (key : VoiceKey) : Option Voice :=
  p.voices.find? fun v => v.key = key

/-- The voices of a staff, ascending. -/
def voicesOn (p : Part) (staff : Nat) : List Voice :=
  p.voices.filter fun v => v.staffNumber = staff

/-- The part with every voice changed. -/
def mapVoices (p : Part) (f : Voice → Voice) : Part :=
  { p with voices := p.voices.map f }

/-- The part with the voice of a key changed, if there is one. -/
def modifyVoice (p : Part) (key : VoiceKey) (f : Voice → Voice) : Part :=
  p.mapVoices fun v => if v.key = key then f v else v

/-! ## New voices -/

/-- The clef in force on a staff. -/
def clef? (p : Part) (staff : Nat) : Option Clef :=
  p.clefs.find? fun c => c.staffNumber = staff

/-- What a voice begins with: the clef of its staff, the key and the time in force. -/
def opening (p : Part) (staff : Nat) : List VoiceElement :=
  (p.clef? staff).toList.map .clef ++ p.key?.toList.map .key ++ p.time?.toList.map .time

/-- A voice that begins now. -/
def newVoice (p : Part) (key : VoiceKey) : Voice :=
  { Voice.empty key.voice key.staff p.divisionsPerWhole with chunk := p.opening key.staff }

/-- The part with a voice and its staff, which begin now if they are not there yet. -/
def ensureVoice (p : Part) (key : VoiceKey) : Part :=
  if (p.voice? key).isSome then p
  else
    { p with
      staves := insertNumber key.staff p.staves
      voices := upsert VoiceKey.before Voice.key (p.newVoice key) p.voices }

theorem key_newVoice (p : Part) (key : VoiceKey) : (p.newVoice key).key = key := rfl

/-- After `ensureVoice` the voice is there. -/
theorem isSome_voice?_ensureVoice (p : Part) (key : VoiceKey) :
    ((p.ensureVoice key).voice? key).isSome := by
  unfold ensureVoice
  split
  · assumption
  · simp only [voice?, List.find?_isSome]
    exact ⟨p.newVoice key, mem_upsert_self _ _ _ _, by simp [key_newVoice]⟩

/-- The part with the staves up to a number. -/
def ensureStaves (p : Part) (count : Nat) : Part :=
  { p with staves := List.range' 1 count ++ p.staves.filter (count < ·) }

/-- The part with a clef in force on its staff. -/
def setClef (p : Part) (clef : Clef) : Part :=
  { p with clefs := upsert Nat.blt Clef.staffNumber clef p.clefs }

/-! ## JSON form -/

/-- Numbered values as the members of an object. -/
def numbered {α : Type} [ToJson α] (number : α → Nat) (xs : List α) : Json :=
  .object (xs.map fun x => (toString (number x), toJson x))

/-- The JSON form of a staff with its voices. -/
def staffForm (p : Part) (staff : Nat) : Json :=
  .object [("number", toJson staff), ("voices", numbered Voice.number (p.voicesOn staff))]

instance : ToJson Part where
  toJson p := .object [("id", toJson p.id), ("name", toJson p.name?),
    ("abbreviation", toJson p.abbreviation?), ("instrument_name", toJson p.instrumentName?),
    ("staves", .object (p.staves.map fun staff => (toString staff, p.staffForm staff))),
    ("divisions_per_whole", toJson p.divisionsPerWhole),
    ("clefs", numbered Clef.staffNumber p.clefs), ("key", toJson p.key?),
    ("time", toJson p.time?), ("measure_number", toJson p.measureNumber), ("line", toJson p.line)]

/-- Values in ascending order of their numbers, which name them. Of several values with one number
the last one counts. -/
def numbered? {α : Type} (read : Json → Option α) (number : α → Nat) : Json → Option (List α)
  | .object members => do
    let xs ← members.mapM fun m => do
      let x ← read m.2
      if m.1 = toString (number x) then some x else none
    some (xs.foldl (fun kept x => upsert Nat.blt number x kept) [])
  | _ => none

/-- The number of a staff and its voices, which all say that they are on it. -/
def staffOfForm? (j : Json) : Option (Nat × List Voice) := do
  let staff ← j.get? "number"
  let voices ← numbered? ofJson? Voice.number (← j.member? "voices")
  if voices.all fun v => v.staffNumber = staff then some (staff, voices) else none

instance : OfJson Part where
  ofJson? j := do
    let staves ← numbered? staffOfForm? Prod.fst (← j.member? "staves")
    some { id := ← j.get? "id", name? := ← j.get? "name",
           abbreviation? := ← j.get? "abbreviation",
           instrumentName? := ← j.get? "instrument_name",
           staves := staves.map (·.1), voices := staves.flatMap (·.2),
           divisionsPerWhole := ← j.get? "divisions_per_whole",
           clefs := ← numbered? ofJson? Clef.staffNumber (← j.member? "clefs"),
           key? := ← j.get? "key", time? := ← j.get? "time",
           measureNumber := ← j.get? "measure_number", line := ← j.get? "line" }

end Part

end Partwise
