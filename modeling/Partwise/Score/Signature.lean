import Partwise.Score.Duration

/-!
# Score · Signature: clefs, keys, times and tempo marks

The signs that stand in a voice and hold until the next of their kind. A clef is named by its sign
and the staff line it sits on; a time may be free of measure, and then has no measure length.
-/

namespace Partwise

/-! ## Clefs -/

/-- The clefs, by sign and staff line. -/
inductive ClefKind where
  | treble | frenchViolin | soprano | mezzoSoprano | alto | tenor | baritone | varBaritone
  | bass | subBass | percussion | tab | none
deriving DecidableEq, Repr

namespace ClefKind

instance : Vocabulary ClefKind where
  all := [treble, frenchViolin, soprano, mezzoSoprano, alto, tenor, baritone, varBaritone,
    bass, subBass, percussion, tab, none]
  name
    | treble => "Treble"
    | frenchViolin => "FrenchViolin"
    | soprano => "Soprano"
    | mezzoSoprano => "MezzoSoprano"
    | alto => "Alto"
    | tenor => "Tenor"
    | baritone => "Baritone"
    | varBaritone => "VarBaritone"
    | bass => "Bass"
    | subBass => "SubBass"
    | percussion => "Percussion"
    | tab => "Tab"
    | none => "None"
  find_name x := by cases x <;> decide

/-- The clef of a sign on a staff line, or on its usual line where none is given. A sign on a line
without a clef of its own takes the clef of the highest line. -/
def ofSign? (sign : String) (line? : Option Nat) : Option ClefKind :=
  match sign, line? with
  | "G", some 1 => some frenchViolin
  | "G", _ => some treble
  | "C", some 1 => some soprano
  | "C", some 2 => some mezzoSoprano
  | "C", some 3 => some alto
  | "C", Option.none => some alto
  | "C", some 4 => some tenor
  | "C", _ => some baritone
  | "F", some 3 => some varBaritone
  | "F", some 4 => some bass
  | "F", Option.none => some bass
  | "F", _ => some subBass
  | "percussion", _ => some percussion
  | "TAB", _ => some tab
  | "none", _ => some none
  | _, _ => Option.none

end ClefKind

/-- A clef on a staff. -/
structure Clef where
  kind : ClefKind
  /-- By how many octaves the staff sounds higher than the clef alone says. -/
  octaveChange : Int
  staffNumber : Nat
deriving DecidableEq, Repr

instance : ToJson Clef where
  toJson c := .object [("kind", toJson c.kind), ("octave_change", toJson c.octaveChange),
    ("staff_number", toJson c.staffNumber)]

instance : OfJson Clef where
  ofJson? j := do
    some { kind := ← j.get? "kind", octaveChange := ← j.get? "octave_change",
           staffNumber := ← j.get? "staff_number" }

/-! ## Keys -/

/-- The modes of a key. -/
inductive KeyMode where
  | major | minor | ionian | dorian | phrygian | lydian | mixolydian | aeolian | locrian | none
deriving DecidableEq, Repr

instance : Vocabulary KeyMode where
  all := [.major, .minor, .ionian, .dorian, .phrygian, .lydian, .mixolydian, .aeolian, .locrian,
    .none]
  name
    | .major => "Major"
    | .minor => "Minor"
    | .ionian => "Ionian"
    | .dorian => "Dorian"
    | .phrygian => "Phrygian"
    | .lydian => "Lydian"
    | .mixolydian => "Mixolydian"
    | .aeolian => "Aeolian"
    | .locrian => "Locrian"
    | .none => "None"
  words := [("major", .major), ("minor", .minor), ("ionian", .ionian), ("dorian", .dorian),
    ("phrygian", .phrygian), ("lydian", .lydian), ("mixolydian", .mixolydian),
    ("aeolian", .aeolian), ("locrian", .locrian), ("none", .none)]
  find_name x := by cases x <;> decide

/-- A key: a place on the circle of fifths, flats below zero, and a mode. -/
structure Key where
  fifths : Int
  mode : KeyMode
deriving DecidableEq, Repr

instance : ToJson Key where
  toJson k := .object [("fifths", toJson k.fifths), ("mode", toJson k.mode)]

instance : OfJson Key where
  ofJson? j := do some { fifths := ← j.get? "fifths", mode := ← j.get? "mode" }

/-! ## Times -/

/-- How a time is written. -/
inductive TimeSymbol where
  | normal | common | cut | singleNumber | note | dottedNote
deriving DecidableEq, Repr

instance : Vocabulary TimeSymbol where
  all := [.normal, .common, .cut, .singleNumber, .note, .dottedNote]
  name
    | .normal => "Normal"
    | .common => "Common"
    | .cut => "Cut"
    | .singleNumber => "SingleNumber"
    | .note => "Note"
    | .dottedNote => "DottedNote"
  words := [("normal", .normal), ("common", .common), ("cut", .cut),
    ("single-number", .singleNumber), ("note", .note), ("dotted-note", .dottedNote)]
  find_name x := by cases x <;> decide

/-- A time signature. -/
structure Time where
  /-- The beats as they are written, which may be a sum such as `3+2`. -/
  beats : String
  beatType : Nat
  symbol : TimeSymbol
  /-- The music is not bound to measures. -/
  senzaMisura : Bool
deriving DecidableEq, Repr

namespace Time

/-- The sum of the beats, each between plus signs and possibly between blanks; every partial sum
fits a signed word. -/
def beatCount? (beats : String) : Option Int :=
  (Text.pieces (· == '+') beats.toList).foldlM
    (fun total piece => do
      let beat ← Text.Format.i64.read (Text.trim (String.ofList piece))
      if fitsWord (total + beat) then some (total + beat) else none)
    0

/-- The length of a measure. There is none without measures, with a beat type of zero, or with beats
that are no numbers. -/
def wholeNotes? (t : Time) : Option WholeNotes :=
  if t.senzaMisura || t.beatType == 0 then none
  else (beatCount? t.beats).map fun count => mkRat count t.beatType

instance : ToJson Time where
  toJson t := .object [("beats", toJson t.beats), ("beat_type", toJson t.beatType),
    ("symbol", toJson t.symbol), ("senza_misura", toJson t.senzaMisura)]

instance : OfJson Time where
  ofJson? j := do
    some { beats := ← j.get? "beats", beatType := ← j.get? "beat_type",
           symbol := ← j.get? "symbol", senzaMisura := ← j.get? "senza_misura" }

end Time

/-! ## Directions that stand in a voice -/

/-- A tempo mark. -/
structure Tempo where
  beatUnit? : Option Display
  /-- Beats per minute as they are written. -/
  perMinute? : Option String
  words? : Option String
deriving DecidableEq, Repr

instance : ToJson Tempo where
  toJson t := .object [("beat_unit", toJson t.beatUnit?), ("per_minute", toJson t.perMinute?),
    ("words", toJson t.words?)]

instance : OfJson Tempo where
  ofJson? j := do
    some { beatUnit? := ← j.get? "beat_unit", perMinute? := ← j.get? "per_minute",
           words? := ← j.get? "words" }

/-- Directions that stand in a voice by themselves rather than decorate a note. -/
inductive Direction where
  | tempo (t : Tempo)
  | rehearsal (text : String)
  | segno
  | coda
deriving DecidableEq, Repr

namespace Direction

/-- The direction is a tempo mark. -/
def isTempo : Direction → Bool
  | tempo _ => true
  | _ => false

instance : ToJson Direction where
  toJson
    | tempo t => .object [("Tempo", toJson t)]
    | rehearsal text => .object [("Rehearsal", toJson text)]
    | segno => .string "Segno"
    | coda => .string "Coda"

instance : OfJson Direction where
  ofJson?
    | .object [("Tempo", t)] => (ofJson? t).map tempo
    | .object [("Rehearsal", text)] => (ofJson? text).map rehearsal
    | .string "Segno" => some segno
    | .string "Coda" => some coda
    | _ => none

end Direction

end Partwise
