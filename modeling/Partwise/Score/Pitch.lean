import Partwise.Score.Vocabulary

/-!
# Score · Pitch: steps, alterations and pitches in quarter tones

A pitch is a diatonic step, an alteration in quarter tones and an octave. Its height within the
octave is the sum of the quarter tones of the step and of the alteration, so C flat lies below the C
it is named after. A pitch between two semitones has no semitone number.
-/

namespace Partwise

/-! ## Steps -/

/-- The seven steps of the diatonic scale. -/
inductive DiatonicStep where
  | c | d | e | f | g | a | b
deriving DecidableEq, Repr

namespace DiatonicStep

instance : Vocabulary DiatonicStep where
  all := [c, d, e, f, g, a, b]
  name
    | c => "C" | d => "D" | e => "E" | f => "F" | g => "G" | a => "A" | b => "B"
  words := [("C", c), ("D", d), ("E", e), ("F", f), ("G", g), ("A", a), ("B", b)]
  find_name x := by cases x <;> decide

/-- The place of the step in the scale, from 0 for C to 6 for B. -/
def index : DiatonicStep → Nat
  | c => 0 | d => 1 | e => 2 | f => 3 | g => 4 | a => 5 | b => 6

/-- The height of the step above C, in quarter tones. -/
def quarterTones : DiatonicStep → Int
  | c => 0 | d => 4 | e => 8 | f => 10 | g => 14 | a => 18 | b => 22

end DiatonicStep

/-! ## Alterations -/

/-- By how much a pitch is raised or lowered against its step, in quarter tones. -/
inductive Alteration where
  | doubleFlat | threeQuartersFlat | flat | quarterFlat | natural
  | quarterSharp | sharp | threeQuartersSharp | doubleSharp
deriving DecidableEq, Repr

namespace Alteration

instance : Vocabulary Alteration where
  all := [doubleFlat, threeQuartersFlat, flat, quarterFlat, natural,
    quarterSharp, sharp, threeQuartersSharp, doubleSharp]
  name
    | doubleFlat => "DoubleFlat"
    | threeQuartersFlat => "ThreeQuartersFlat"
    | flat => "Flat"
    | quarterFlat => "QuarterFlat"
    | natural => "Natural"
    | quarterSharp => "QuarterSharp"
    | sharp => "Sharp"
    | threeQuartersSharp => "ThreeQuartersSharp"
    | doubleSharp => "DoubleSharp"
  find_name x := by cases x <;> decide

/-- The alteration in quarter tones. -/
def quarterTones : Alteration → Int
  | doubleFlat => -4
  | threeQuartersFlat => -3
  | flat => -2
  | quarterFlat => -1
  | natural => 0
  | quarterSharp => 1
  | sharp => 2
  | threeQuartersSharp => 3
  | doubleSharp => 4

/-- The alteration of a number of quarter tones. -/
def ofQuarterTones? (n : Int) : Option Alteration :=
  (Vocabulary.all (α := Alteration)).find? fun a => a.quarterTones == n

/-- How far a number of quarter tones may lie from a whole one: the single-precision number nearest
to one hundredth, in units of `2 ^ -149`. -/
def tolerance : Nat := 10737418 * Nat.pow 2 119

/-- The alteration of a number of semitones, which lies near a whole number of quarter tones. What
is no number at all alters nothing. -/
def ofSemitones? : Binary32 → Option Alteration
  | .nan => some natural
  | .infinity _ => none
  | .finite negative rank =>
    let quarters := 2 * Binary32.units rank
    let whole := (2 * quarters + Binary32.unitsPerOne) / (2 * Binary32.unitsPerOne)
    let distance := ((quarters : Int) - whole * Binary32.unitsPerOne).natAbs
    if tolerance < distance then none
    else ofQuarterTones? (if negative then -(whole : Int) else whole)

end Alteration

/-! ## Pitches -/

/-- A pitch. -/
structure Pitch where
  step : DiatonicStep
  alteration : Alteration
  /-- The octave, the one of middle C being 4. -/
  octave : Int
  /-- The height above the C of the same octave, below zero for a flattened C. -/
  quarterTones : Int
deriving DecidableEq, Repr

namespace Pitch

/-- The pitch of a step, an alteration and an octave. -/
def of (step : DiatonicStep) (alteration : Alteration) (octave : Int) : Pitch where
  step := step
  alteration := alteration
  octave := octave
  quarterTones := step.quarterTones + alteration.quarterTones

/-- The semitone number, 60 for middle C; a pitch between two semitones has none. -/
def semitone? (p : Pitch) : Option Int :=
  if p.quarterTones % 2 ≠ 0 then none else some ((p.octave + 1) * 12 + p.quarterTones / 2)

instance : ToJson Pitch where
  toJson p := .object [("step", toJson p.step), ("alteration", toJson p.alteration),
    ("octave", toJson p.octave), ("quarter_tones", toJson p.quarterTones)]

instance : OfJson Pitch where
  ofJson? j := do
    some { step := ← j.get? "step", alteration := ← j.get? "alteration",
           octave := ← j.get? "octave", quarterTones := ← j.get? "quarter_tones" }

/-- What a trace says about a pitch. -/
def trace (p : Pitch) : String :=
  s!"Pitch \x7b step: {Vocabulary.name p.step}, alteration: {Vocabulary.name p.alteration}" ++
    s!", octave: {p.octave}, quarter_tones: {p.quarterTones} \x7d"

end Pitch

end Partwise
