import Partwise.Json.Value

/-!
# Score · Vocabulary: closed lists of named values

Clef kinds, note types, bar styles and their like come in closed lists. A `Vocabulary` gives every
value the name it has in written scores and, where documents spell the value, the words for it. A
name is read back as the value it names; a word that is in no list is the business of who asked.
-/

namespace Partwise

/-- A type whose values are listed and named. -/
class Vocabulary (α : Type) where
  /-- All values. -/
  all : List α
  /-- The name of a value in a written score. -/
  name : α → String
  /-- The words that documents have for values. -/
  words : List (String × α) := []
  /-- No value takes the name of another. -/
  find_name : ∀ x, all.find? (fun y => name y == name x) = some x

namespace Vocabulary

variable {α : Type} [Vocabulary α]

/-- The value that a document means by a word. -/
def ofWord? (word : String) : Option α :=
  (words (α := α)).lookup word

/-- The value with a name. -/
def named? (s : String) : Option α :=
  (all (α := α)).find? fun x => name x == s

/-- A name is read back as the value it names. -/
theorem named?_name (x : α) : named? (name x) = some x :=
  find_name x

instance : ToJson α := ⟨fun x => .string (name x)⟩

instance : OfJson α := ⟨fun j =>
  match j with
  | .string s => named? s
  | _ => none⟩

end Vocabulary

end Partwise
