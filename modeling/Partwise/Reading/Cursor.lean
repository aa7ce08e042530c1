import Partwise.Intake.Place
import Partwise.Reading.State

/-!
# Reading · Cursor: time within a measure

Every voice has a position in the measure, and the document has one of its own, which notes and
movements in time change. A voice that is behind the document when it is given content is first
padded with an invisible rest, so what it is given next begins where the document stands.
-/

namespace Partwise

/-- What decoders must know of the reading. -/
def surroundings (settings : Settings) : Step Surroundings := do
  pure { greatestVoice := settings.maxVoiceNumber, part? := (← get).part? }

/-- A position after a duration. -/
def later (line : Nat) (position duration : WholeNotes) : Journaled WholeNotes :=
  demand (position.plus? duration) (.range line (.sumOverflows position duration))

/-- A position before which a duration ends. -/
def earlier (line : Nat) (position duration : WholeNotes) : Journaled WholeNotes :=
  demand (position.minus? duration) (.range line (.differenceOverflows position duration))

/-- A voice has consumed a duration: it moves forward, and the document stands where it stands. -/
def advance (line : Nat) (key : VoiceKey) (duration : WholeNotes) : Step Unit := do
  let voice ← voiceAt line key
  let position ← later line voice.positionInMeasure duration
  changePart line fun part =>
    part.modifyVoice key fun voice => { voice with positionInMeasure := position }
  changePassage fun p => ({ p with position }.reach key position).touch key

/-- An invisible rest of a voice, which begins where the voice stands. -/
def skipRest (voice : Voice) (duration : WholeNotes) (measure : String) (line : Nat) : Note :=
  { Note.skip duration voice.staffNumber voice.number measure line with
    positionInMeasure := voice.positionInMeasure }

/-- A voice is given an invisible rest. -/
def rest (line : Nat) (key : VoiceKey) (duration : WholeNotes) : Step Unit := do
  let measure := (← get).passage.measureNumber
  changeVoice line key fun voice =>
    voice.append (.note (skipRest voice duration measure line))

/-- A voice that is behind the document is padded up to where the document stands. -/
def catchUp (line : Nat) (key : VoiceKey) : Step Unit := do
  let target := (← get).passage.position
  let voice ← voiceAt line key
  let gap ← earlier line target voice.positionInMeasure
  if Rat.blt 0 gap then
    rest line key gap
    tell (.padded line key gap)
    advance line key gap

/-- The document goes back in time, and so does its current voice. Going back beyond the start of
the measure is a finding. -/
def goBack (line : Nat) (duration : WholeNotes) : Step Unit := do
  let passage := (← get).passage
  let position ← earlier line passage.position duration
  changePassage fun p => { p with position }
  let reached ←
    match (← get).part?.bind fun part => part.voice? passage.current with
    | none => pure position
    | some voice =>
      let moved ← earlier line voice.positionInMeasure duration
      changePart line fun part =>
        part.modifyVoice passage.current fun voice => { voice with positionInMeasure := moved }
      pure moved
  if Rat.blt reached 0 then
    let before ← demand reached.neg? (.overflow line)
    find line (.backupBeforeMeasureStart duration passage.measureNumber before)

/-- A voice goes forward in time: the movement is an invisible rest. -/
def goForward (line : Nat) (key : VoiceKey) (duration : WholeNotes) : Step Unit := do
  catchUp line key
  rest line key duration
  advance line key duration

end Partwise
