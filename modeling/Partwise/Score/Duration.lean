import Partwise.Score.Vocabulary

/-!
# Score · Duration: exact fractions of a whole note

Durations and positions are fractions of a whole note. They are exact, and they are kept in 64-bit
words: `plus?` and `minus?` have a result only where the common denominator, both numerators brought
to it and their sum fit a signed word. A written note shows its length by a note type and dots,
`Display.wholeNotes`.
-/

namespace Partwise

/-! ## Words of 64 bits -/

/-- A length of time or a position in a measure, in whole notes. -/
abbrev WholeNotes := Rat

/-- The first number past the greatest signed word of 64 bits. -/
def wordLimit : Nat := 0x8000000000000000

/-- The number fits a signed word of 64 bits. -/
def fitsWord (n : Int) : Bool :=
  -(wordLimit : Int) ≤ n && n < wordLimit

namespace WholeNotes

/-- Numerators brought to the least common denominator combine without leaving the words. -/
def combines (f : Int → Int → Int) (x y : WholeNotes) : Bool :=
  let common := Nat.lcm x.den y.den
  let left := (common / x.den : Nat) * x.num
  let right := (common / y.den : Nat) * y.num
  fitsWord common && fitsWord left && fitsWord right && fitsWord (f left right)

/-- The sum, where it can be formed within words. -/
def plus? (x y : WholeNotes) : Option WholeNotes :=
  if combines (· + ·) x y then some (x + y) else none

/-- The difference, where it can be formed within words. -/
def minus? (x y : WholeNotes) : Option WholeNotes :=
  if combines (· - ·) x y then some (x - y) else none

/-- The negation, where it can be formed within a word. -/
def neg? (x : WholeNotes) : Option WholeNotes :=
  if fitsWord (-x.num) then some (-x) else none

theorem plus?_eq_some {x y z : WholeNotes} (h : x.plus? y = some z) : z = x + y := by
  unfold plus? at h
  split at h <;> simp_all

theorem minus?_eq_some {x y z : WholeNotes} (h : x.minus? y = some z) : z = x - y := by
  unfold minus? at h
  split at h <;> simp_all

/-- The fraction in messages: a denominator of one is left out. -/
def text (x : WholeNotes) : String :=
  if x.den = 1 then toString x.num else s!"{x.num}/{x.den}"

end WholeNotes

/-! ## Note types -/

/-- The shapes of written notes, from the longest to the shortest. -/
inductive NoteType where
  | maxima | long | breve | whole | half | quarter | eighth
  | n16th | n32nd | n64th | n128th | n256th | n512th | n1024th
deriving DecidableEq, Repr

namespace NoteType

instance : Vocabulary NoteType where
  all := [maxima, long, breve, whole, half, quarter, eighth,
    n16th, n32nd, n64th, n128th, n256th, n512th, n1024th]
  name
    | maxima => "Maxima"
    | long => "Long"
    | breve => "Breve"
    | whole => "Whole"
    | half => "Half"
    | quarter => "Quarter"
    | eighth => "Eighth"
    | n16th => "N16th"
    | n32nd => "N32nd"
    | n64th => "N64th"
    | n128th => "N128th"
    | n256th => "N256th"
    | n512th => "N512th"
    | n1024th => "N1024th"
  words := [("maxima", maxima), ("long", long), ("breve", breve), ("whole", whole), ("half", half),
    ("quarter", quarter), ("eighth", eighth), ("16th", n16th), ("32nd", n32nd), ("64th", n64th),
    ("128th", n128th), ("256th", n256th), ("512th", n512th), ("1024th", n1024th)]
  find_name x := by cases x <;> decide

/-- The length of an undotted note. -/
def wholeNotes : NoteType → WholeNotes
  | maxima => 8
  | long => 4
  | breve => 2
  | whole => 1
  | half => mkRat 1 2
  | quarter => mkRat 1 4
  | eighth => mkRat 1 8
  | n16th => mkRat 1 16
  | n32nd => mkRat 1 32
  | n64th => mkRat 1 64
  | n128th => mkRat 1 128
  | n256th => mkRat 1 256
  | n512th => mkRat 1 512
  | n1024th => mkRat 1 1024

end NoteType

/-! ## Written lengths -/

/-- A note type with augmentation dots. -/
structure Display where
  noteType : NoteType
  dots : Nat
deriving DecidableEq, Repr

namespace Display

/-- The length of the dotted note: each dot adds half of what the one before it added. Dots after
the eighth add nothing. -/
def wholeNotes (d : Display) : WholeNotes :=
  let dots := min d.dots 8
  d.noteType.wholeNotes * mkRat (Nat.pow 2 (dots + 1) - 1 : Nat) (Nat.pow 2 dots)

instance : ToJson Display where
  toJson d := .object [("note_type", toJson d.noteType), ("dots", toJson d.dots)]

instance : OfJson Display where
  ofJson? j := do some { noteType := ← j.get? "note_type", dots := ← j.get? "dots" }

end Display

end Partwise
