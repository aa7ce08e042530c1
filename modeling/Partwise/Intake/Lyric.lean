import Partwise.Intake.Place
import Partwise.Voice.Singing

/-!
# Intake · Lyric: reading the lyrics of a note
-/

namespace Partwise

open Markup

/-- The text of a lyric: that of its one syllable, or those of several with spaces between them. -/
def lyricText? (e : Element) : Option String :=
  match (e.childrenNamed "text").filterMap (·.text?) with
  | [] => none
  | texts => some (" ".intercalate texts)

/-- The stanza that a lyric belongs to. -/
def Lyric.stanzaOf (e : Element) : String :=
  (e.attr? "number").getD "1"

/-- The lyric of an element. A lyric that has text but does not say where in the word it stands is a
word of its own. -/
def Lyric.ofElement (e : Element) : Journaled Lyric := do
  let text? := lyricText? e
  let kind? ←
    match e.childText? "syllabic" with
    | some word => some <$> wordOr e.line .syllabic LyricKind.single word
    | none => pure (if text?.isSome then some .single else none)
  pure
    { stanza := Lyric.stanzaOf e
      kind?, text?
      extend := e.has "extend"
      elision := e.has "elision"
      line := e.line }

end Partwise
