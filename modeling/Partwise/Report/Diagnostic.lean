import Partwise.Score.Vocabulary

/-!
# Report · Diagnostic: marks on the lines of a document

A diagnostic says of a line what was found there, how severe it is and of which kind. They are
collected in the order they are found in; nothing is ever taken away.
-/

namespace Partwise

/-- How severe a finding is. -/
inductive Severity where
  | error | warning | info
deriving DecidableEq, Repr

instance : Vocabulary Severity where
  all := [.error, .warning, .info]
  name
    | .error => "error" | .warning => "warning" | .info => "info"
  find_name x := by cases x <;> decide

/-- Something found on a line of a document. -/
structure Diagnostic where
  line : Nat
  severity : Severity
  kind : String
  message : String
deriving DecidableEq, Repr

namespace Diagnostic

/-- The text of a diagnostic. -/
def text (d : Diagnostic) : String :=
  s!"line {d.line}: {Vocabulary.name d.severity} [{d.kind}]: {d.message}"

/-- A value that is in no list; reading goes on with another one. -/
def error (line : Nat) (kind message : String) : Diagnostic := ⟨line, .error, kind, message⟩

/-- Something that is probably not meant. -/
def warning (line : Nat) (kind message : String) : Diagnostic := ⟨line, .warning, kind, message⟩

/-- An element that is passed over. -/
def skipped (line : Nat) (element reason : String) : Diagnostic :=
  ⟨line, .info, "skipped", s!"<{element}>: {reason}"⟩

instance : ToJson Diagnostic where
  toJson d := .object [("line", toJson d.line), ("severity", toJson d.severity),
    ("kind", toJson d.kind), ("message", toJson d.message)]

instance : OfJson Diagnostic where
  ofJson? j := do
    some { line := ← j.get? "line", severity := ← j.get? "severity", kind := ← j.get? "kind",
           message := ← j.get? "message" }

end Diagnostic

/-- What was found in a document, in order. -/
structure Diagnostics where
  marks : List Diagnostic := []
deriving DecidableEq, Repr

namespace Diagnostics

/-- One more finding. -/
def add (ds : Diagnostics) (d : Diagnostic) : Diagnostics := ⟨ds.marks ++ [d]⟩

/-- The findings of a kind. -/
def ofKind (ds : Diagnostics) (kind : String) : List Diagnostic :=
  ds.marks.filter fun d => d.kind = kind

/-- The warnings. -/
def warnings (ds : Diagnostics) : List Diagnostic :=
  ds.marks.filter fun d => d.severity = .warning

/-- Some finding is an error. -/
def hasErrors (ds : Diagnostics) : Bool :=
  ds.marks.any fun d => d.severity = .error

instance : ToJson Diagnostics where
  toJson ds := .object [("marks", toJson ds.marks)]

instance : OfJson Diagnostics where
  ofJson? j := do some { marks := ← j.get? "marks" }

end Diagnostics

end Partwise
