import Partwise.Json.Reader
import Partwise.Report.Diagnostic
import Partwise.Score.Basic

/-!
# Report · Transcript: a score together with what was found in its document

A transcript is all that is kept of a document that was read to its end. Its JSON form leaves out
the slurs that are open at the end of a voice, and an ordering key that is not finite is written as
one that is absent.
-/

namespace Partwise

/-- A score with the findings of its document. -/
structure Transcript where
  score : Score
  diagnostics : Diagnostics
deriving DecidableEq

namespace Transcript

instance : ToJson Transcript where
  toJson t := .object [("score", toJson t.score), ("diagnostics", toJson t.diagnostics)]

instance : OfJson Transcript where
  ofJson? j := do some { score := ← j.get? "score", diagnostics := ← j.get? "diagnostics" }

/-- The text of a transcript. -/
def text (t : Transcript) : String := (toJson t).render

/-- The transcript that a text writes. -/
def ofText? (text : String) : Option Transcript :=
  (Json.ofText? text).bind ofJson?

end Transcript

end Partwise
