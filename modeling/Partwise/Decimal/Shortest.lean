import Partwise.Decimal.Binary32

/-!
# Decimal · Shortest: the fewest digits that read back, and how they are laid out

`Binary32.shortest` finds, for a positive rank, the fewest decimal digits that round back to that
rank and, of those, the ones nearest to its value; a `Tie` says which of two that are equally near.
A `Layout` says how such digits are written: which way ties go, where positional notation ends,
whether a whole number keeps a point, and the words for what is not finite. The three layouts of
this library are `Layout.plain` for messages, `Layout.exact` for traces and `Layout.json` for
documents.
-/

namespace Partwise

/-- A positive decimal number: `digits` without a trailing zero, times `10 ^ exponent`. -/
structure Scientific where
  digits : Nat
  exponent : Int
deriving DecidableEq, Repr

/-- Which of two numbers of equal length and equal distance stands for a magnitude between them. -/
inductive Tie where
  /-- The one that is farther from zero. -/
  | up
  /-- The one whose last digit is even. -/
  | even
deriving DecidableEq, Repr

/-- The number above is taken, given the digits of the one below. -/
def Tie.goesUp (tie : Tie) (below : Nat) : Bool :=
  match tie with
  | up => true
  | even => below % 2 == 1

namespace Binary32

/-! ## The fewest digits -/

/-- The largest exponent whose power of ten is at most the magnitude, for magnitudes between
`10 ^ -45` and `10 ^ 39`. -/
def leadingExponent (rank : Nat) : Int :=
  let tens := (List.range 85).reverse.find? fun i =>
    Nat.pow 10 i * unitsPerOne ≤ units rank * Nat.pow 10 45
  (tens.getD 0 : Int) - 45

/-- The magnitude of a rank divided by `10 ^ exponent`, as a quotient. -/
def inTens (rank : Nat) (exponent : Int) : Nat × Nat :=
  if exponent < 0 then (units rank * Nat.pow 10 (-exponent).toNat, unitsPerOne)
  else (units rank, unitsPerOne * Nat.pow 10 exponent.toNat)

/-- The decimal number rounds to the rank. -/
def readsBack (rank : Nat) (d : Scientific) : Bool :=
  match ofScaled false d.digits d.exponent with
  | .finite _ r => r.val == rank
  | _ => false

/-- Of the two neighbours of the magnitude on the grid of `10 ^ exponent`, the nearer one that reads
back. -/
def neighbour? (tie : Tie) (rank : Nat) (exponent : Int) : Option Scientific :=
  let (n, d) := inTens rank exponent
  let below : Scientific := ⟨n / d, exponent⟩
  let above : Scientific := ⟨n / d + 1, exponent⟩
  let preferAbove := Nat.blt d (2 * (n % d)) || (2 * (n % d) == d && tie.goesUp (n / d))
  let ordered := if preferAbove then [above, below] else [below, above]
  ordered.find? (readsBack rank)

/-- The digits of a number without the zeros at its end, which go into the exponent. -/
def Scientific.stripped (d : Scientific) : Scientific :=
  let digits := Nat.toDigits 10 d.digits
  let zeros := (digits.reverse.takeWhile (· == '0')).length
  if d.digits = 0 then d else ⟨d.digits / Nat.pow 10 zeros, d.exponent + zeros⟩

/-- The whole value, digit by digit. There always is one, since a unit is a power of one half. -/
def everyDigit (rank : Nat) : Scientific :=
  ⟨units rank * Nat.pow 5 149, -149⟩

/-- The fewest digits that read back as the rank, the nearest of them to its value. Nine digits
always suffice; should none of the grids up to there answer, the whole value stands. -/
def shortest (tie : Tie) (rank : Nat) : Scientific :=
  let lead := leadingExponent rank
  let grids := (List.range 9).map fun (i : Nat) => lead - i
  Scientific.stripped ((grids.findSome? (neighbour? tie rank)).getD (everyDigit rank))

end Binary32

/-! ## Layouts -/

/-- How a single-precision number is written. -/
structure Layout where
  tie : Tie
  /-- Whether digits whose leading one stands for `10 ^ lead` are written positionally; `count` is
  the number of digits. All others are written with an exponent. -/
  positional : (count : Nat) → (lead : Int) → Bool
  /-- A whole number is written with `.0` at its end. -/
  keepsPoint : Bool
  /-- The sign before an exponent that is not negative. -/
  exponentSign : List Char
  /-- The words for infinity and for not-a-number. -/
  infinity : String
  nan : String

namespace Layout

/-- Messages: never an exponent, no point in a whole number. -/
def plain : Layout := ⟨.up, fun _ _ => true, false, [], "inf", "NaN"⟩

/-- Traces: positional from `10 ^ -4` up to below `10 ^ 16`. -/
def exact : Layout := ⟨.up, fun _ lead => -4 ≤ lead && lead < 16, true, [], "inf", "NaN"⟩

/-- Documents: positional from `10 ^ -6` on, up to 13 places before the point; exponents have a sign
in any case. What is not finite has no number and is left out. -/
def json : Layout := ⟨.even, fun _ lead => -7 < lead && lead < 13, true, ['+'], "null", "null"⟩

/-- The digits with the point after `places` of them, filled up with zeros on either side. -/
def positionalText (keepsPoint : Bool) (digits : List Char) (places : Int) : List Char :=
  if places ≤ 0 then '0' :: '.' :: List.replicate (-places).toNat '0' ++ digits
  else
    let before := places.toNat
    if digits.length ≤ before then
      digits ++ List.replicate (before - digits.length) '0' ++
        (if keepsPoint then ['.', '0'] else [])
    else digits.take before ++ '.' :: digits.drop before

/-- The digits with the point after the first and the exponent behind. -/
def exponentText (sign : List Char) (digits : List Char) (lead : Int) : List Char :=
  let mantissa := match digits with
    | first :: second :: rest => first :: '.' :: second :: rest
    | short => short
  mantissa ++ 'e' :: (if 0 ≤ lead then sign else []) ++ (toString lead).toList

/-- A positive decimal number in this layout. -/
def magnitudeText (layout : Layout) (d : Scientific) : List Char :=
  let digits := Nat.toDigits 10 d.digits
  let lead := d.exponent + digits.length - 1
  if layout.positional digits.length lead then
    positionalText layout.keepsPoint digits (lead + 1)
  else exponentText layout.exponentSign digits lead

/-- A finite magnitude in this layout. -/
def rankText (layout : Layout) (rank : Nat) : List Char :=
  if rank = 0 then (if layout.keepsPoint then ['0', '.', '0'] else ['0'])
  else layout.magnitudeText (Binary32.shortest layout.tie rank)

/-- The text of a number in this layout. -/
def text (layout : Layout) : Binary32 → String
  | .nan => layout.nan
  | .infinity negative => (if negative then "-" else "") ++ layout.infinity
  | .finite negative rank =>
    (if negative then "-" else "") ++ String.ofList (layout.rankText rank.val)

end Layout

end Partwise
