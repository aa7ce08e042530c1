import Partwise.Report.Failure
import Partwise.Report.Finding
import Partwise.Score.Note
import Partwise.Score.Voice
import Partwise.Settings.Basic

/-!
# Report · Journal: all that is said while a document is read

A journal holds, last first, the findings and the events of a reading. The findings are its
diagnostics; the whole journal is its log, in which an event on a topic shows only where the
settings trace that topic. A journal outlives a reading that fails.
-/

namespace Partwise

/-! ## Events -/

/-- What happens while a document is read, apart from findings. -/
inductive Event where
  | begun (root : String) (elements : Nat)
  | ignored (line : Nat) (element : String)
  | partEntered (line : Nat) (id : String)
  | voiceBegun (part : String) (key : VoiceKey)
  | divisionsSet (line : Nat) (perWhole : Nat)
  | padded (line : Nat) (key : VoiceKey) (gap : WholeNotes)
  | ornamentDropped (line : Nat) (name : String)
  | notationDropped (line : Nat) (name : String)
  | measureEntered (line : Nat) (number : String)
  | noteRead (line : Nat) (content : NoteContent) (key : VoiceKey) (lasts : WholeNotes)
      (inChord : Bool)
  | chordMember (line : Nat) (key : VoiceKey)
  | tupletOpened (line : Nat) (number actual normal depth : Nat)
  | tupletClosed (line : Nat) (number members depth : Nat)
  | barlineRead (line : Nat) (category : BarlineCategory) (location : BarlineLocation)
      (measure : String)
  | repeatClosed (key : VoiceKey) (endings : Nat) (explicitStart : Bool)
  | lyricAligned (line : Nat) (stanza : String) (kind : LyricKind) (text? : Option String)
  | groupStarted (line : Nat) (number : String) (orderingKey? : Option Binary32)
  | groupClosed (number : String) (members : Nat)
  | partDeclared (line : Nat) (id : String)
  | finished (parts diagnostics : Nat)
  | markupRefused (fault : Markup.Fault)
  | aborted (failure : Failure)

namespace Event

/-- The topic of an event; an event without one always shows. -/
def topic? : Event → Option Topic
  | measureEntered .. => some .notes
  | noteRead .. => some .notes
  | chordMember .. => some .notes
  | tupletOpened .. => some .tuplets
  | tupletClosed .. => some .tuplets
  | barlineRead .. => some .repeats
  | repeatClosed .. => some .repeats
  | lyricAligned .. => some .lyrics
  | groupStarted .. => some .partGroups
  | groupClosed .. => some .partGroups
  | partDeclared .. => some .partGroups
  | _ => none

/-- An ordering key in words. -/
def orderingText : Option Binary32 → String
  | some x => s!"Some({Layout.exact.text x})"
  | none => "None"

/-- The event in words. -/
def text : Event → String
  | begun root elements => s!"ingesting <{root}> ({elements} elements)"
  | ignored line element => s!"line {line}: ignoring <{element}>"
  | partEntered line id => s!"line {line}: entering part '{id}'"
  | voiceBegun part key => s!"part '{part}': new voice {key.voice} in staff {key.staff}"
  | divisionsSet line perWhole => s!"line {line}: {perWhole} divisions per whole note"
  | padded line key gap =>
    s!"line {line}: voice {key.staff}/{key.voice} padded by {gap.text} whole notes"
  | ornamentDropped line name => s!"line {line}: ornament <{name}> not kept"
  | notationDropped line name => s!"line {line}: notation <{name}> not kept"
  | measureEntered line number => s!"line {line}: measure {number}"
  | noteRead line content key lasts inChord =>
    s!"line {line}: note {content.trace} in voice {key.staff}/{key.voice}, " ++
      s!"{lasts.text} whole notes" ++ (if inChord then ", chord member" else "")
  | chordMember line key => s!"line {line}: chord member in voice {key.staff}/{key.voice}"
  | tupletOpened line number actual normal depth =>
    s!"line {line}: tuplet {number} {actual}:{normal} opens at depth {depth}"
  | tupletClosed line number members depth =>
    s!"line {line}: tuplet {number} closes with {members} element(s), depth now {depth}"
  | barlineRead line category location measure =>
    s!"line {line}: barline {Vocabulary.name category} at {Vocabulary.name location} " ++
      s!"in measure {measure}"
  | repeatClosed key endings explicitStart =>
    s!"voice {key.staff}/{key.voice}: repeat closes with {endings} ending(s), " ++
      (if explicitStart then "explicit" else "implicit") ++ " start"
  | lyricAligned line stanza kind text? =>
    s!"line {line}: stanza {stanza} chunk {Vocabulary.name kind} " ++
      NoteContent.traceOption (text?.map Text.quoted)
  | groupStarted line number orderingKey? =>
    s!"line {line}: part group '{number}' starts, ordering key {orderingText orderingKey?}"
  | groupClosed number members => s!"part group '{number}' closes with {members} member(s)"
  | partDeclared line id => s!"line {line}: part '{id}' declared"
  | finished parts diagnostics =>
    s!"ingestion finished: {parts} part(s), {diagnostics} diagnostic(s)"
  | markupRefused fault => s!"MusicXML parsing failed: {fault.message}"
  | aborted failure => s!"ingestion aborted: {failure.message}"

end Event

/-! ## Journals -/

/-- An entry of a journal. -/
inductive Entry where
  | found (line : Nat) (finding : Finding)
  | event (e : Event)

/-- All that was said, last first. -/
abbrev Journal := List Entry

/-- The levels of a log. -/
inductive Level where
  | debug | warn | error
deriving DecidableEq, Repr

instance : Vocabulary Level where
  all := [.debug, .warn, .error]
  name
    | .debug => "debug" | .warn => "warn" | .error => "error"
  find_name x := by cases x <;> decide

namespace Entry

/-- The diagnostic that an entry is, if it is one. -/
def diagnostic? : Entry → Option Diagnostic
  | found line finding => some (finding.onLine line)
  | event _ => none

/-- The level an entry is logged at. -/
def level : Entry → Level
  | found _ finding =>
    match finding.severity with
    | .error => .error
    | .warning => .warn
    | .info => .debug
  | event (.markupRefused _) => .error
  | event (.aborted _) => .error
  | event _ => .debug

/-- The entry in words. -/
def text : Entry → String
  | found line finding => (finding.onLine line).text
  | event e => e.text

/-- The entry shows under the settings. -/
def shows (settings : Settings) : Entry → Bool
  | found _ _ => true
  | event e => e.topic?.all settings.traces

end Entry

namespace Journal

/-- The findings of a journal in the order they were made in. -/
def diagnostics (j : Journal) : Diagnostics :=
  ⟨j.reverse.filterMap Entry.diagnostic?⟩

/-- The log of a journal: level and text of each entry that shows. -/
def log (j : Journal) (settings : Settings) : List (Level × String) :=
  (j.reverse.filter (Entry.shows settings)).map fun entry => (entry.level, entry.text)

end Journal

/-! ## Saying -/

/-- Readings that keep a journal and may fail; what was said before a failure stays said. -/
abbrev Journaled := ExceptT Failure (StateM Journal)

/-- Something is found on a line. -/
def find (line : Nat) (finding : Finding) : Journaled Unit :=
  modify (.found line finding :: ·)

/-- Something happens. -/
def tell (e : Event) : Journaled Unit :=
  modify (.event e :: ·)

/-- A value asked of the markup, or the failure that it is at fault. -/
def ask {α : Type} (x : Except Markup.Fault α) : Journaled α :=
  match x with
  | .ok a => pure a
  | .error fault => throw (.markup fault)

/-- A value that must be there, or the failure that it is not. -/
def demand {α : Type} (x? : Option α) (failure : Failure) : Journaled α :=
  match x? with
  | some a => pure a
  | none => throw failure

/-- A value that a word stands for, or a default, once it has been found that the word is in no
list. -/
def wordOr {α : Type} [Vocabulary α] (line : Nat) (list : WordList) (default : α) (word : String) :
    Journaled α :=
  match Vocabulary.ofWord? word with
  | some x => pure x
  | none => do
    find line (.unknownWord list word)
    pure default

/-- A value that a word stands for, or nothing, once it has been found that the word is in no
list. -/
def wordOrNone {α : Type} [Vocabulary α] (line : Nat) (list : WordList) (word : String) :
    Journaled (Option α) :=
  match Vocabulary.ofWord? word with
  | some x => pure (some x)
  | none => do
    find line (.unknownWord list word)
    pure none

end Partwise
