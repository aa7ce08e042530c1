import Partwise.Report.Diagnostic
import Partwise.Score.Attachment
import Partwise.Score.Duration

/-!
# Report · Finding: what reading a document may find and pass over

The findings of reading, by cause, and the diagnostic that each one is written as. None of them ends
the reading: a word in no list is replaced by a default, a warning is about music that is read all
the same, and what is skipped is no part of a score.
-/

namespace Partwise

/-- The lists of words that a document may have a word outside of. -/
inductive WordList where
  | barlineLocation | barStyle | endingType | repeatDirection | repeatWinged
  | partGroupType | groupSymbol | clefSign | keyMode | timeSymbol | step | noteType | beatUnit
  | tieType | slurType | tupletType | wedgeType | pedalType | syllabic
deriving DecidableEq, Repr

namespace WordList

/-- The kind of the diagnostic on a word outside the list. -/
def kind : WordList → String
  | barlineLocation => "unknown_barline_location"
  | barStyle => "unknown_bar_style"
  | endingType => "unknown_ending_type"
  | repeatDirection => "unknown_repeat_direction"
  | repeatWinged => "unknown_repeat_winged"
  | partGroupType => "unknown_part_group_type"
  | groupSymbol => "unknown_group_symbol"
  | clefSign => "unknown_clef_sign"
  | keyMode => "unknown_key_mode"
  | timeSymbol => "unknown_time_symbol"
  | step => "unknown_step"
  | noteType => "unknown_note_type"
  | beatUnit => "unknown_beat_unit"
  | tieType => "unknown_tie_type"
  | slurType => "unknown_slur_type"
  | tupletType => "unknown_tuplet_type"
  | wedgeType => "unknown_wedge_type"
  | pedalType => "unknown_pedal_type"
  | syllabic => "unknown_syllabic"

/-- What the words of the list are. -/
def noun : WordList → String
  | barlineLocation => "barline location"
  | barStyle => "bar style"
  | endingType => "ending type"
  | repeatDirection => "repeat direction"
  | repeatWinged => "repeat winged"
  | partGroupType => "part-group type"
  | groupSymbol => "group symbol"
  | clefSign => "clef sign"
  | keyMode => "key mode"
  | timeSymbol => "time symbol"
  | step => "diatonic step"
  | noteType => "note type"
  | beatUnit => "beat unit"
  | tieType => "tie type"
  | slurType => "slur type"
  | tupletType => "tuplet type"
  | wedgeType => "wedge type"
  | pedalType => "pedal type"
  | syllabic => "syllabic"

/-- What is done with a word outside the list. -/
def remedy : WordList → String
  | barlineLocation => "using right"
  | barStyle => "using regular"
  | endingType => "ignoring the ending"
  | repeatDirection => "ignoring the repeat"
  | repeatWinged => "using none"
  | partGroupType => "ignoring the element"
  | groupSymbol => "using none"
  | clefSign => "using treble"
  | keyMode => "using major"
  | timeSymbol => "using normal"
  | step => "using C"
  | syllabic => "using single"
  | _ => "ignoring it"

end WordList

/-- Why an element is skipped. -/
inductive SkipReason where
  | chordSymbol | figuredBass | layout | structureless | directionType | soundWithoutTempo
deriving DecidableEq, Repr

/-- The reason in words. -/
def SkipReason.text : SkipReason → String
  | chordSymbol => "chord symbols are not ingested"
  | figuredBass => "figured bass is not ingested"
  | layout => "layout hints are not ingested"
  | structureless => "not part of the score structure"
  | directionType => "direction type not ingested"
  | soundWithoutTempo => "only tempo is ingested from <sound>"

/-- What reading may find. -/
inductive Finding where
  | unknownWord (list : WordList) (word : String)
  | unknownArticulation (name : String)
  | unknownAlteration (semitones : Binary32)
  | missingDuration (wholeNotes : WholeNotes)
  | backupBeforeMeasureStart (duration : WholeNotes) (measure : String) (before : WholeNotes)
  | incompleteVoice (measure : String) (voice staff : Nat) (lasts longest : WholeNotes)
  | attachmentsOnRest
  | attachmentsDropped (dropped : Attachments) (measure : String)
  | emptyTuplet (number : Nat)
  | unterminatedTuplets (count : Nat)
  | unterminatedRepeats (voices : Nat)
  | groupNotOpen (number : String)
  | groupNotClosed (number : String)
  | duplicatePart (id : String)
  | skipped (element : String) (reason : SkipReason)
deriving DecidableEq, Repr

namespace Finding

/-- How severe the finding is. -/
def severity : Finding → Severity
  | unknownWord _ _ => .error
  | unknownArticulation _ => .error
  | unknownAlteration _ => .error
  | skipped _ _ => .info
  | _ => .warning

/-- The kind of the finding. -/
def kind : Finding → String
  | unknownWord list _ => list.kind
  | unknownArticulation _ => "unknown_articulation"
  | unknownAlteration _ => "unknown_alteration"
  | missingDuration _ => "missing_duration"
  | backupBeforeMeasureStart _ _ _ => "backup_before_measure_start"
  | incompleteVoice _ _ _ _ _ => "incomplete_voice_measure"
  | attachmentsOnRest => "attachments_on_rest"
  | attachmentsDropped _ _ => "attachments_dropped"
  | emptyTuplet _ => "empty_tuplet"
  | unterminatedTuplets _ => "unterminated_tuplet"
  | unterminatedRepeats _ => "unterminated_repeat"
  | groupNotOpen _ => "part_group_not_open"
  | groupNotClosed _ => "part_group_not_closed"
  | duplicatePart _ => "duplicate_part_declaration"
  | skipped _ _ => "skipped"

/-- The finding in words. -/
def message : Finding → String
  | unknownWord list word => s!"unknown {list.noun} '{word}', {list.remedy}"
  | unknownArticulation name => s!"unknown articulation <{name}>, ignoring it"
  | unknownAlteration semitones =>
    s!"alteration {Layout.plain.text semitones} is not a quarter-tone step, using natural"
  | missingDuration wholeNotes => s!"note without <duration>, using {wholeNotes.text} whole notes"
  | backupBeforeMeasureStart duration measure before =>
    s!"backup of {duration.text} whole notes in measure {measure} goes {before.text} " ++
      "before the measure start"
  | incompleteVoice measure voice staff lasts longest =>
    s!"measure {measure}: voice {voice} of staff {staff} lasts {lasts.text} whole notes, " ++
      s!"the longest voice lasts {longest.text}"
  | attachmentsOnRest => "dynamics, wedges or words attached to a rest"
  | attachmentsDropped dropped measure =>
    s!"{dropped.dynamics.length} dynamic(s), {dropped.wedges.length} wedge(s), " ++
      s!"{dropped.words.length} word(s) and {dropped.pedals.length} pedal mark(s) " ++
      s!"had no note to attach to in measure {measure}"
  | emptyTuplet number => s!"tuplet {number} has no members, dropping it"
  | unterminatedTuplets count => s!"{count} tuplet(s) still open, closing them"
  | unterminatedRepeats voices => s!"{voices} voice(s) end the part inside a repeat"
  | groupNotOpen number => s!"part-group {number} stopped but never started"
  | groupNotClosed number => s!"part-group {number} was never stopped"
  | duplicatePart id => s!"part '{id}' declared more than once, keeping the first"
  | skipped element reason => s!"<{element}>: {reason.text}"

/-- The finding on a line as a diagnostic. -/
def onLine (f : Finding) (line : Nat) : Diagnostic :=
  ⟨line, f.severity, f.kind, f.message⟩

end Finding

end Partwise
