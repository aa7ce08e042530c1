/-!
# Text · Blank: white space and cutting text at it

`isBlank` is the White_Space property of Unicode, so a no-break space or an ideographic space is
blank and a zero-width space is not. `trim` takes blanks off both ends; `pieces` cuts a text at
every separating character and keeps the empty pieces in between.
-/

namespace Partwise.Text

/-- The characters with the Unicode property White_Space. -/
def isBlank (c : Char) : Bool :=
  let n := c.toNat
  (9 ≤ n && n ≤ 13) || n == 32 || n == 0x85 || n == 0xA0 || n == 0x1680 ||
    (0x2000 ≤ n && n ≤ 0x200A) || n == 0x2028 || n == 0x2029 || n == 0x202F || n == 0x205F ||
    n == 0x3000

/-- The characters without the blanks before the first and after the last that is not blank. -/
def trimChars (cs : List Char) : List Char :=
  ((cs.dropWhile isBlank).reverse.dropWhile isBlank).reverse

/-- The text without the blanks at its ends. -/
def trim (s : String) : String :=
  String.ofList (trimChars s.toList)

/-- The runs between separators, in order. A text with `n` separators has `n + 1` pieces, some of
them possibly empty. -/
def pieces (separates : Char → Bool) : List Char → List (List Char)
  | [] => [[]]
  | c :: cs =>
    match separates c, pieces separates cs with
    | true, rest => [] :: rest
    | false, [] => [[c]]
    | false, piece :: rest => (c :: piece) :: rest

end Partwise.Text
