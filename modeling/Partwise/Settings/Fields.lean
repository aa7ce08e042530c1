import Partwise.Settings.Basic

/-!
# Settings · Fields: settings out of named or listed values

A file of settings names the ones it changes, or lists values in the order of the settings. What
kinds of values a file can hold is the business of its format; `ValueReader` says how a format's
values are read as flags, numbers and lists of texts.
-/

namespace Partwise

/-- How the values of a format are read. -/
structure ValueReader (α : Type) where
  flag? : α → Option Bool
  /-- A number of 32 bits without sign. -/
  number? : α → Option Nat
  /-- A list of texts, which may be left open. -/
  texts? : α → Option (Option (List String))

namespace Settings

/-- The names of all settings in their order. -/
def names : List String :=
  ["delay_rests_attachments", "max_voice_number", "ignore_lyrics", "stanza_filter", "trace_notes",
   "trace_tuplets", "trace_repeats", "trace_lyrics", "trace_part_groups"]

variable {α : Type}

/-- The settings with one of them changed. A name that is no setting's changes nothing. -/
def set? (reader : ValueReader α) (s : Settings) (field : String × α) : Option Settings :=
  let flag? := reader.flag? field.2
  match field.1 with
  | "delay_rests_attachments" => flag?.map fun b => { s with delayRestsAttachments := b }
  | "max_voice_number" => (reader.number? field.2).map fun n => { s with maxVoiceNumber := n }
  | "ignore_lyrics" => flag?.map fun b => { s with ignoreLyrics := b }
  | "stanza_filter" => (reader.texts? field.2).map fun kept? => { s with stanzaFilter? := kept? }
  | "trace_notes" => flag?.map fun b => { s with traceNotes := b }
  | "trace_tuplets" => flag?.map fun b => { s with traceTuplets := b }
  | "trace_repeats" => flag?.map fun b => { s with traceRepeats := b }
  | "trace_lyrics" => flag?.map fun b => { s with traceLyrics := b }
  | "trace_part_groups" => flag?.map fun b => { s with tracePartGroups := b }
  | _ => some s

/-- No name is in the list twice. -/
def distinct : List String → Bool
  | [] => true
  | name :: names => !names.contains name && distinct names

/-- The settings that named values give. No setting may be given twice. -/
def ofMembers? (reader : ValueReader α) (members : List (String × α)) : Option Settings :=
  let given := (members.map Prod.fst).filter fun name => names.contains name
  if distinct given then members.foldlM (set? reader) {} else none

/-- The settings that listed values give. The last settings may be left out. -/
def ofPositions? (reader : ValueReader α) (values : List α) : Option Settings :=
  if Nat.blt names.length values.length then none
  else (names.zip values).foldlM (set? reader) {}

end Settings

end Partwise
