import Partwise.Markup.Document
import Partwise.Reading.Boundaries
import Partwise.Reading.PartList
import Partwise.Reading.Signs
import Partwise.Report.Transcript

/-!
# Reading · Document: reading whole documents

A partwise document is read from its root, element by element in document order. `Document.read`
reads a tree and `Document.readText` a text; both give the `Outcome`, a score or the failure that
ended the reading, with the journal of all that was said on the way.
-/

namespace Partwise

open Markup

/-! ## Header -/

namespace Identification

/-- The identification with what the element of a work says, which replaces what was said before. -/
def withWork (i : Identification) (e : Element) : Identification :=
  { i with
    workNumber? := e.childText? "work-number"
    workTitle? := e.childText? "work-title"
    opus? := (e.child? "opus").bind (·.attr? "href") }

/-- The texts of the children with a name. -/
def textsOf (e : Element) (name : String) : List String :=
  (e.childrenNamed name).filterMap (·.text?)

/-- The creators that an element names. -/
def creatorsOfElement (e : Element) : List Creator :=
  (e.childrenNamed "creator").filterMap fun creator =>
    creator.text?.map fun name => { kind? := creator.attr? "type", name }

/-- The identification with what one more identification element says: people, rights and software
come to those already known. -/
def withSource (i : Identification) (e : Element) : Identification :=
  let encoding? := e.child? "encoding"
  { i with
    creators := i.creators ++ creatorsOfElement e
    rights := i.rights ++ textsOf e "rights"
    software := i.software ++ encoding?.elim [] fun encoding => textsOf encoding "software"
    encodingDate? :=
      encoding?.elim i.encodingDate? fun encoding => encoding.childText? "encoding-date"
    source? := e.childText? "source" }

end Identification

/-- A change of the identification. -/
def identify (f : Identification → Identification) : Step Unit :=
  modify fun r => { r with identification := f r.identification }

/-! ## Elements in document order -/

/-- The duration of a movement in time, which is a boundary for tuplets and chords. -/
def movement (settings : Settings) (e : Element) : Step WholeNotes := do
  breakOff e.line
  (← surroundings settings).duration e

/-- A movement back in time is read. -/
def readBackup (settings : Settings) (e : Element) : Step Unit := do
  goBack e.line (← movement settings e)

/-- A movement forward in time is read. It belongs to the voice it names, but leaves the current
voice as it is. -/
def readForward (settings : Settings) (e : Element) : Step Unit := do
  let duration ← movement settings e
  let key ← (← surroundings settings).place e (← get).passage.current
  goForward e.line key duration

/-- An element is read that is not looked into any further. -/
def readLeaf (settings : Settings) (e : Element) : Step Unit :=
  match e.name with
  | "work" => identify fun i => i.withWork e
  | "movement-number" => identify fun i => { i with movementNumber? := e.text? }
  | "movement-title" => identify fun i => { i with movementTitle? := e.text? }
  | "identification" => identify fun i => i.withSource e
  | "part-group" => readPartGroup e
  | "score-part" => readScorePart e
  | "attributes" => readAttributes e
  | "note" => readNote settings e
  | "backup" => readBackup settings e
  | "forward" => readForward settings e
  | "barline" => readBarline e
  | "direction" => readDirection settings e
  | "sound" => readSound e
  | "harmony" => find e.line (.skipped e.name .chordSymbol)
  | "figured-bass" => find e.line (.skipped e.name .figuredBass)
  | "print" => find e.line (.skipped e.name .layout)
  | name => tell (.ignored e.line name)

mutual

/-- An element is read with everything inside it. -/
def visit (settings : Settings) (e : Element) : Step Unit :=
  match e with
  | ⟨name, attributes, text?, children, line⟩ =>
    let e : Element := ⟨name, attributes, text?, children, line⟩
    match name with
    | "score-partwise" => visitAll settings children
    | "part-list" => do
      visitAll settings children
      closeGroups line
    | "part" => do
      enterPart e
      visitAll settings children
      leavePart e
    | "measure" => do
      enterMeasure e
      visitAll settings children
      leaveMeasure e
    | _ => readLeaf settings e

/-- Elements are read one after the other. -/
def visitAll (settings : Settings) (es : List Element) : Step Unit :=
  match es with
  | [] => pure ()
  | e :: es => do
    visit settings e
    visitAll settings es

end

/-! ## Documents -/

/-- The score of a document, once all of it is read. -/
def complete : Step Score := do
  closeGroups 0
  let r ← get
  match assembleGroups r.parts r.partList.rootGroups with
  | .ok groups => pure { identification := r.identification, groups }
  | .error failure => throw failure

/-- How a reading came out: the score, or what ended the reading, and all that was said. -/
structure Outcome where
  score : Except Failure Score
  journal : Journal

namespace Outcome

/-- What was found in the document. -/
def diagnostics (o : Outcome) : Diagnostics := o.journal.diagnostics

/-- The score with what was found in the document. -/
def transcript (o : Outcome) : Except Failure Transcript :=
  o.score.map fun score => { score, diagnostics := o.diagnostics }

/-- What was said, as far as the settings trace it. -/
def log (o : Outcome) (settings : Settings) : List (Level × String) := o.journal.log settings

/-- A reading that was refused before it began. -/
def refused (fault : Fault) (journal : Journal) : Outcome :=
  { score := .error (.markup fault), journal }

/-- The outcome with its own last entry: that the reading is finished, or that it was aborted. -/
def closed (o : Outcome) : Outcome :=
  match o.score with
  | .ok score =>
    { o with journal :=
        .event (.finished score.parts.length o.diagnostics.marks.length) :: o.journal }
  | .error failure => { o with journal := .event (.aborted failure) :: o.journal }

end Outcome

namespace Document

/-- The reading of a root and all inside it. -/
def run (settings : Settings) (root : Element) : Outcome :=
  let reading : Step Score := do
    tell (.begun root.name root.size)
    visit settings root
    complete
  let (result, journal) := ((reading.run {}).run).run []
  { score := result.map Prod.fst, journal }

/-- A document is read from its tree. -/
def read (settings : Settings) (root : Element) : Outcome :=
  if root.name = "score-partwise" then (run settings root).closed
  else .refused (.rootNotPartwise root.name) []

/-- A document is read from its text. -/
def readText (settings : Settings) (text : String) : Outcome :=
  match Element.ofText text with
  | .ok root => read settings root
  | .error fault => .refused fault [.event (.markupRefused fault)]

/-- The text of the transcript of a document, or in words why there is none. -/
def transcribe (settings : Settings) (text : String) : Except String String :=
  match (readText settings text).transcript with
  | .ok transcript => .ok transcript.text
  | .error failure => .error s!"MusicXML ingestion error: {failure.message}"

end Document

end Partwise
