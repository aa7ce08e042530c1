import Partwise.Score.Ordered
import Partwise.Score.Voice

/-!
# Voice · Singing: which note sings which syllable

A voice learns its stanzas from the lyrics of its notes, and every later note has a chunk for each
of them. A note without a syllable of its own is tied, rests, goes on under a slur or sings nothing.
The voice therefore keeps count of its open slurs and of the chunk that the outermost of them
began on.
-/

namespace Partwise

/-- A lyric that a note brings along. -/
structure Lyric where
  stanza : String
  /-- The kind of the syllable, where there is one. -/
  kind? : Option LyricKind
  text? : Option String
  extend : Bool
  elision : Bool
  line : Nat
deriving DecidableEq, Repr

namespace Voice

/-- The kind of a chunk without a syllable. A slur that began on the end of a word goes on beyond
it. -/
def silentKind (v : Voice) (n : Note) : LyricKind :=
  if n.tie?.isSome then .tied
  else if n.isRest then .skip
  else if v.slurDepth = 0 then .none
  else if v.slurOpening? = some .end then .slurBeyondEnd
  else .slur

/-- One open slur less, down to none. -/
def stopSlur (v : Voice) : Voice :=
  let depth := v.slurDepth - 1
  { v with slurDepth := depth, slurOpening? := if depth = 0 then none else v.slurOpening? }

/-- One more open slur; the outermost one remembers the kind of the chunk it begins on. -/
def startSlur (kind : LyricKind) (v : Voice) : Voice :=
  { v with
    slurDepth := v.slurDepth + 1
    slurOpening? := if v.slurDepth = 0 then some kind else v.slurOpening? }

/-- The voice after the slur marks of a note: the slurs that stop on it stop first. -/
def markSlurs (v : Voice) (slurs : List Slur) (kind : LyricKind) : Voice :=
  let stopped := (slurs.filter fun s => s.kind = .stop).foldl (fun v _ => v.stopSlur) v
  (slurs.filter fun s => s.kind = .start).foldl (fun v _ => v.startSlur kind) stopped

/-- The voice with the stanzas of some lyrics among those it knows. -/
def learnStanzas (v : Voice) (lyrics : List Lyric) : Voice :=
  { v with stanzas := lyrics.foldl (fun known l => insertText l.stanza known) v.stanzas }

/-- The chunk of a note for a stanza: what the first lyric of that stanza says, and otherwise
nothing but a kind. -/
def lyricChunk (n : Note) (lyrics : List Lyric) (silent : LyricKind) (stanza : String) :
    LyricChunk :=
  match lyrics.find? fun l => l.stanza = stanza with
  | some l =>
    { stanza, kind := l.kind?.getD silent, text? := l.text?, wholeNotes := n.soundingWholeNotes,
      extend := l.extend, elision := l.elision, line := l.line }
  | none =>
    { stanza, kind := silent, text? := none, wholeNotes := n.soundingWholeNotes,
      extend := false, elision := false, line := n.line }

/-- The chunks of a note, one for each stanza that the voice knows. -/
def lyricChunks (v : Voice) (n : Note) (lyrics : List Lyric) : List LyricChunk :=
  v.stanzas.map (lyricChunk n lyrics (v.silentKind n))

/-- A note sings: the voice learns its stanzas and follows its slurs, the note gets its chunks. A
slur begins on the chunk of the first stanza. -/
def sing (v : Voice) (n : Note) (lyrics : List Lyric) : Voice × Note :=
  let learned := v.learnStanzas lyrics
  let chunks := learned.lyricChunks n lyrics
  let first := chunks.head?.elim (learned.silentKind n) LyricChunk.kind
  (learned.markSlurs n.slurs first, { n with lyrics := n.lyrics ++ chunks })

end Voice

end Partwise
