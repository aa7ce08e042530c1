import Partwise.Yaml.Character

/-!
# Yaml · Scalar: texts that run over several lines

Within a scalar the blanks around a line end are dropped. One line feed between two characters is
read as a space, and of several the first is dropped; a separator of lines or paragraphs stands as
it is. `Scalar` holds what has been read, together with what counts only if more follows.
-/

namespace Partwise.Yaml

/-- A scalar that is being read, its last character first, with the blanks and line ends behind it
that count only if more follows. -/
structure Scalar where
  held : List Char := []
  /-- The blanks since the last character, as long as its line has not ended. -/
  blanks : List Char := []
  /-- The line of the last character has ended. -/
  ended : Bool := false
  /-- The line end of the last character, unless it was escaped. -/
  first? : Option Char := none
  /-- The line ends after that one. -/
  later : List Char := []

namespace Scalar

/-- What stands between the last character and one that follows, in reverse. -/
def between (s : Scalar) : List Char :=
  if !s.ended then s.blanks
  else if s.first? = some '\n' then (if s.later.isEmpty then [' '] else s.later)
  else s.later ++ s.first?.toList

/-- One more character. -/
def push (s : Scalar) (c : Char) : Scalar :=
  { held := c :: (s.between ++ s.held) }

/-- One more blank, which counts only within a line. -/
def pushBlank (s : Scalar) (c : Char) : Scalar :=
  if s.ended then s else { s with blanks := c :: s.blanks }

/-- The line ends. -/
def pushBreak (s : Scalar) (c : Char) : Scalar :=
  if s.ended then { s with later := lineEnd c :: s.later }
  else { s with blanks := [], ended := true, first? := some (lineEnd c) }

/-- The line ends by an escape, which leaves nothing in the scalar. -/
def pushEscapedBreak (s : Scalar) : Scalar :=
  { held := s.between ++ s.held, ended := true }

/-- A character of a scalar between quotation marks that means nothing else. -/
def pushAny (s : Scalar) (c : Char) : Scalar :=
  if isBreak c then s.pushBreak c
  else if isGap c then s.pushBlank c
  else s.push c

/-- The text up to the last character, which is where a plain scalar ends. -/
def trimmed (s : Scalar) : String :=
  String.ofList s.held.reverse

/-- The text up to here, which is where a quotation ends. -/
def whole (s : Scalar) : String :=
  String.ofList (s.between ++ s.held).reverse

end Scalar

end Partwise.Yaml
