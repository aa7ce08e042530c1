import Partwise.Text.Blank

/-!
# Text · Numeral: whole numbers and the formats a value can be asked for in

A numeral is an optional sign and one or more ASCII digits, nothing else. A `Format` is a named way
to read a value out of text; the name is what a refusal says was expected. The integer formats
bound the numeral by a word size, and only the signed ones take a minus sign.
-/

namespace Partwise.Text

/-! ## Digits -/

/-- The value of an ASCII digit. -/
def digitValue (c : Char) : Nat :=
  c.toNat - '0'.toNat

/-- The number that a run of digits writes in base ten. -/
def valueOfDigits (cs : List Char) : Nat :=
  cs.foldl (fun n c => 10 * n + digitValue c) 0

/-- A run of one or more ASCII digits. -/
def isNumeral (cs : List Char) : Bool :=
  !cs.isEmpty && cs.all Char.isDigit

/-- The number a bare run of digits stands for. -/
def natural? (cs : List Char) : Option Nat :=
  if isNumeral cs then some (valueOfDigits cs) else none

/-- The number that digits with an optional sign stand for. -/
def integer? : List Char → Option Int
  | '-' :: cs => (natural? cs).map fun n => -(n : Int)
  | '+' :: cs => (natural? cs).map fun n => (n : Int)
  | cs => (natural? cs).map fun n => (n : Int)

/-- The number that digits with an optional plus sign stand for. -/
def unsigned? : List Char → Option Nat
  | '+' :: cs => natural? cs
  | cs => natural? cs

/-- The value of a digit in base sixteen, of either case. -/
def hexDigit? (c : Char) : Option Nat :=
  if c.isDigit then some (digitValue c)
  else if 'a' ≤ c ∧ c ≤ 'f' then some (c.toNat - 'a'.toNat + 10)
  else if 'A' ≤ c ∧ c ≤ 'F' then some (c.toNat - 'A'.toNat + 10)
  else none

/-! ## Formats -/

/-- A way to read a value out of text, with the name it goes by in messages. -/
structure Format (α : Type) where
  /-- What a refusal says was expected. -/
  name : String
  /-- The value a text stands for, if it stands for one. -/
  read : String → Option α

namespace Format

/-- Integers from `-limit` up to below `limit`. -/
def signed (name : String) (limit : Nat) : Format Int where
  name := name
  read s := (integer? s.toList).filter fun n => -(limit : Int) ≤ n && n < limit

/-- Natural numbers below `limit`. -/
def unsigned (name : String) (limit : Nat) : Format Nat where
  name := name
  read s := (unsigned? s.toList).filter fun n => Nat.blt n limit

/-- Counts of divisions and every number that is checked further: 64 bits with a sign. -/
def i64 : Format Int := signed "i64" 0x8000000000000000

/-- Octaves, fifths and octave changes: 8 bits with a sign. -/
def i8 : Format Int := signed "i8" 0x80

/-- Marker numbers, times and ratios: 32 bits. -/
def u32 : Format Nat := unsigned "u32" 0x100000000

/-- Staff lines and tremolo marks: 8 bits. -/
def u8 : Format Nat := unsigned "u8" 0x100

/-- What `unsigned` reads lies below its limit. -/
theorem lt_of_read_unsigned {name s : String} {limit n : Nat}
    (h : (unsigned name limit).read s = some n) : n < limit := by
  have hn := (Option.filter_eq_some_iff.mp h).2
  exact Nat.blt_eq.mp hn

/-- What `signed` reads lies between its limits. -/
theorem bounds_of_read_signed {name s : String} {limit : Nat} {n : Int}
    (h : (signed name limit).read s = some n) : -(limit : Int) ≤ n ∧ n < limit := by
  have hn := (Option.filter_eq_some_iff.mp h).2
  simpa using hn

end Format

end Partwise.Text
