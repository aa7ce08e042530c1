import Partwise.Json.Value

/-!
# Settings · Basic: what a reader of scores may be told

The policies of reading (how attachments and lyrics are treated, which voice numbers are accepted)
and the topics on which reading is to be traced. Every setting has a default.
-/

namespace Partwise

/-- What reading can be traced on. -/
inductive Topic where
  | notes | tuplets | repeats | lyrics | partGroups
deriving DecidableEq, Repr

/-- What a reader of scores is told. -/
structure Settings where
  /-- Attachments pass over rests and wait for a note that sounds. -/
  delayRestsAttachments : Bool := false
  /-- The highest voice number that is accepted. -/
  maxVoiceNumber : Nat := 4
  /-- No lyrics are kept at all. -/
  ignoreLyrics : Bool := false
  /-- The stanzas that are kept; all of them where there is no list. -/
  stanzaFilter? : Option (List String) := none
  traceNotes : Bool := false
  traceTuplets : Bool := false
  traceRepeats : Bool := false
  traceLyrics : Bool := false
  tracePartGroups : Bool := false
deriving DecidableEq, Repr

namespace Settings

/-- The stanza is kept. -/
def keepsStanza (s : Settings) (stanza : String) : Bool :=
  match s.stanzaFilter? with
  | some kept => kept.contains stanza
  | none => true

/-- Reading is traced on the topic. -/
def traces (s : Settings) : Topic → Bool
  | .notes => s.traceNotes
  | .tuplets => s.traceTuplets
  | .repeats => s.traceRepeats
  | .lyrics => s.traceLyrics
  | .partGroups => s.tracePartGroups

/-- The settings with every topic traced. -/
def traceAll (s : Settings) : Settings :=
  { s with
    traceNotes := true
    traceTuplets := true
    traceRepeats := true
    traceLyrics := true
    tracePartGroups := true }

theorem traces_traceAll (s : Settings) (topic : Topic) : s.traceAll.traces topic = true := by
  cases topic <;> rfl

instance : ToJson Settings where
  toJson s := .object [("delay_rests_attachments", toJson s.delayRestsAttachments),
    ("max_voice_number", toJson s.maxVoiceNumber), ("ignore_lyrics", toJson s.ignoreLyrics),
    ("stanza_filter", toJson s.stanzaFilter?), ("trace_notes", toJson s.traceNotes),
    ("trace_tuplets", toJson s.traceTuplets), ("trace_repeats", toJson s.traceRepeats),
    ("trace_lyrics", toJson s.traceLyrics), ("trace_part_groups", toJson s.tracePartGroups)]

end Settings

end Partwise
