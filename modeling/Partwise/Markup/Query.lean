import Partwise.Decimal.Binary32
import Partwise.Markup.Element

/-!
# Markup · Query: asking an element for a value in a format

A document is refused for one of four causes, and `Fault` lists them. The queries below read the
text of an element, of a child or of an attribute in a `Text.Format`; a text that is absent is no
value, a text that the format does not read is `Fault.invalidValue` with the line of the element
that holds it. Attribute values are read without the blanks at their ends, element texts as they
stand.
-/

namespace Partwise.Markup

/-- Why a document cannot be taken as a score. -/
inductive Fault where
  /-- The text is not well-formed markup. -/
  | notWellFormed
  /-- The root of the document is an element of another kind. -/
  | rootNotPartwise (root : String)
  /-- An element lacks a child or an attribute that it must have. -/
  | missing (line : Nat) (what : String)
  /-- A text does not stand for a value of the format that is asked for. -/
  | invalidValue (line : Nat) (what : String) (value : String) (expected : String)
deriving DecidableEq, Repr

namespace Fault

/-- What is said about the root of a document that is no partwise score. -/
def rootComplaint (root : String) : String :=
  if root == "score-timewise" then
    "score-timewise documents must be converted to score-partwise first"
  else s!"root element <{root}> is not score-partwise"

/-- The message of a fault. -/
def message : Fault → String
  | notWellFormed => "Invalid XML: XML parse error"
  | rootNotPartwise root => s!"Unsupported MusicXML format: {rootComplaint root}"
  | missing line what => s!"Missing required element <{what}> at line {line}"
  | invalidValue line what value expected =>
    s!"Invalid value '{value}' for <{what}> at line {line}: expected {expected}"

/-- The line a fault is about, when it is about one. -/
def line? : Fault → Option Nat
  | notWellFormed => none
  | rootNotPartwise _ => none
  | missing line _ => some line
  | invalidValue line _ _ _ => some line

end Fault

namespace Element

variable {α : Type}

/-- The element's own text as a value. -/
def value? (e : Element) (format : Text.Format α) : Except Fault (Option α) :=
  match e.text? with
  | none => .ok none
  | some raw =>
    match format.read raw with
    | some value => .ok (some value)
    | none => .error (.invalidValue e.line e.name raw format.name)

/-- The text of the first child with a name as a value. -/
def childValue? (e : Element) (format : Text.Format α) (name : String) :
    Except Fault (Option α) :=
  match e.child? name with
  | none => .ok none
  | some child => child.value? format

/-- The text of the first child with a name as a value, which must be there. -/
def requiredChild (e : Element) (format : Text.Format α) (name : String) : Except Fault α := do
  match ← e.childValue? format name with
  | some value => .ok value
  | none => .error (.missing e.line name)

/-- An attribute as a value, blanks at its ends left out. -/
def attrValue? (e : Element) (format : Text.Format α) (name : String) :
    Except Fault (Option α) :=
  match e.attr? name with
  | none => .ok none
  | some raw =>
    match format.read (Text.trim raw) with
    | some value => .ok (some value)
    | none => .error (.invalidValue e.line s!"{e.name}@{name}" raw format.name)

end Element

end Partwise.Markup
