import Partwise.Text.Numeral

/-!
# Decimal · Binary32: single-precision numbers as ranks

The finite magnitudes of binary32 are ordered, and their bit patterns count them: rank `0` is zero,
rank `1` the least positive magnitude, and the pattern after the last finite one is infinity. A
finite number is a sign and a rank. Every magnitude is a whole number of units of `2 ^ -149`, so
rounding is exact arithmetic on natural numbers, ties to the even rank, and a carry into the next
binade needs no case of its own.

* `Binary32.units` — the magnitude of a rank, in units of `2 ^ -149`;
* `Binary32.round` — the number nearest to a quotient of units;
* `Binary32.ofScaled` — the number nearest to `digits · 10 ^ exponent`;
* `Binary32.read?` — the number a text stands for.
-/

namespace Partwise

/-- The number of finite magnitudes, and the rank that would follow the last of them. -/
def finiteRanks : Nat := 0x7F800000

/-- A single-precision number. Zero has two signs, not-a-number has one form. -/
inductive Binary32 where
  | nan
  | infinity (negative : Bool)
  | finite (negative : Bool) (rank : Fin finiteRanks)
deriving DecidableEq, Repr

namespace Binary32

/-- Positive zero. -/
def zero : Binary32 := .finite false ⟨0, by decide⟩

instance : Inhabited Binary32 := ⟨zero⟩

/-! ## Magnitudes -/

/-- The number of ranks between two powers of two: significands have 24 bits, the first of them
set. -/
def binade : Nat := 0x800000

/-- The magnitude of a rank, in units of `2 ^ -149`: below `2 ^ 23` the rank itself, above it a
significand of 24 bits times a power of two. -/
def units (rank : Nat) : Nat :=
  if rank < binade then rank else (binade + rank % binade) * Nat.pow 2 (rank / binade - 1)

/-- How many units of `2 ^ -149` make one. -/
def unitsPerOne : Nat := Nat.pow 2 149

/-- The whole number nearest to `n / d`, a tie to the even one. -/
def nearestEven (n d : Nat) : Nat :=
  let quotient := n / d
  let rest := n % d
  if 2 * rest < d then quotient
  else if d < 2 * rest then quotient + 1
  else quotient + quotient % 2

/-- The rank nearest to `n / d` units, not bounded by the finite ranks. -/
def nearestRank (n d : Nat) : Nat :=
  let shift := Nat.log2 (n / d) - 23
  shift * binade + nearestEven n (d * Nat.pow 2 shift)

/-- The number nearest to `n / d` units with the given sign; past the last finite rank it is
infinite. -/
def round (negative : Bool) (n d : Nat) : Binary32 :=
  if h : nearestRank n d < finiteRanks then .finite negative ⟨nearestRank n d, h⟩
  else .infinity negative

/-! ## Decimal numbers -/

/-- The number of decimal digits of a natural number; zero has none. -/
def digitCount (n : Nat) : Nat :=
  if n = 0 then 0 else (Nat.toDigits 10 n).length

/-- The number nearest to `digits · 10 ^ exponent`. Magnitudes from `10 ^ 40` on are infinite and
those below `10 ^ -46` are zero, whatever their digits, so no larger power is ever formed. -/
def ofScaled (negative : Bool) (digits : Nat) (exponent : Int) : Binary32 :=
  let top := exponent + digitCount digits
  if digits = 0 ∨ top < -46 then .finite negative ⟨0, by decide⟩
  else if 40 < top then .infinity negative
  else if exponent < 0 then round negative (digits * unitsPerOne) (Nat.pow 10 (-exponent).toNat)
  else round negative (digits * Nat.pow 10 exponent.toNat * unitsPerOne) 1

/-- Digits with at most one point among them, at least one digit: the digits as a whole number and
how many of them stand after the point. -/
def pointed? (cs : List Char) : Option (Nat × Nat) :=
  match Text.pieces (· == '.') cs with
  | [whole] => if Text.isNumeral whole then some (Text.valueOfDigits whole, 0) else none
  | [whole, fraction] =>
    if Text.isNumeral (whole ++ fraction) then
      some (Text.valueOfDigits (whole ++ fraction), fraction.length)
    else none
  | _ => none

/-- A decimal number without sign: pointed digits and, after an `e`, a signed exponent. -/
def scaled? (cs : List Char) : Option (Nat × Int) :=
  match Text.pieces (fun c => c == 'e' || c == 'E') cs with
  | [digits] => (pointed? digits).map fun (n, places) => (n, -(places : Int))
  | [digits, exponent] => do
    let (n, places) ← pointed? digits
    let e ← Text.integer? exponent
    some (n, e - places)
  | _ => none

/-- A number without sign: a decimal number, or a word for infinity or not-a-number in any case. -/
def magnitude? (negative : Bool) (cs : List Char) : Option Binary32 :=
  match String.ofList (cs.map Char.toLower) with
  | "inf" => some (.infinity negative)
  | "infinity" => some (.infinity negative)
  | "nan" => some .nan
  | _ => (scaled? cs).map fun (digits, exponent) => ofScaled negative digits exponent

/-- The number a text stands for. -/
def read? (s : String) : Option Binary32 :=
  match s.toList with
  | '-' :: cs => magnitude? true cs
  | '+' :: cs => magnitude? false cs
  | cs => magnitude? false cs

/-! ## Order -/

/-- Where a number stands on the line of ranks; not-a-number stands nowhere, and the two zeros in
one place. -/
def place? : Binary32 → Option Int
  | .nan => none
  | .infinity negative => some (if negative then -(finiteRanks : Int) else finiteRanks)
  | .finite negative rank => some (if negative then -(rank.val : Int) else rank.val)

/-- The first number is less than the second; never true of not-a-number. -/
def less (x y : Binary32) : Bool :=
  match x.place?, y.place? with
  | some i, some j => i < j
  | _, _ => false

/-- Neither infinite nor not-a-number. -/
def isFinite : Binary32 → Bool
  | .finite _ _ => true
  | _ => false

end Binary32

namespace Text.Format

/-- Single-precision numbers: alterations and ordering keys. -/
def f32 : Format Binary32 where
  name := "f32"
  read := Binary32.read?

end Text.Format

end Partwise
