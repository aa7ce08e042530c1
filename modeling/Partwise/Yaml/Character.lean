import Partwise.Text.Numeral

/-!
# Yaml · Character: the character classes of YAML

Which characters a text may hold, which ones end a line, which ones mean something by themselves,
and what a letter after a backslash stands for.
-/

namespace Partwise.Yaml

/-- The characters that a text may hold. -/
def isAllowed (c : Char) : Bool :=
  let n := c.toNat
  n == 9 || n == 10 || n == 13 || (0x20 ≤ n && n ≤ 0x7E) || n == 0x85 ||
    (0xA0 ≤ n && n ≤ 0xFFFD) || 0x10000 ≤ n

/-- The mark of the order of bytes, which a text may open with. -/
def isByteOrderMark (c : Char) : Bool := c == '\uFEFF'

/-- The characters that end a line. -/
def isBreak (c : Char) : Bool :=
  let n := c.toNat
  n == 10 || n == 13 || n == 0x85 || n == 0x2028 || n == 0x2029

/-- A line end as scalars hold it: the separators of lines and of paragraphs stay what they are, and
every other line end is a line feed. -/
def lineEnd (c : Char) : Char :=
  if c.toNat == 0x2028 || c.toNat == 0x2029 then c else '\n'

/-- A space or a tab. -/
def isGap (c : Char) : Bool := c == ' ' || c == '\t'

/-- A text begins with a gap or a line end, or is at its end. Some characters have a meaning of
their own only before such a place. -/
def isOpenEnd : List Char → Bool
  | [] => true
  | c :: _ => isGap c || isBreak c

/-- The brackets, braces and commas of flow collections. -/
def isFlowMark (c : Char) : Bool :=
  "[]\x7b\x7d,".toList.contains c

/-- The characters that no plain scalar begins with, unless a dash, colon or question mark with more
behind it. -/
def isIndicator (c : Char) : Bool :=
  "-?:,[]\x7b\x7d#&*!|>'\"%@".toList.contains c || c.toNat == 0x60

/-- A plain scalar may begin with the character, given what is behind it. -/
def beginsPlain (inFlow : Bool) (c : Char) (rest : List Char) : Bool :=
  !isIndicator c || (c == '-' && !rest.head?.any isGap) ||
    ((c == '?' || c == ':') && !inFlow && !isOpenEnd rest)

/-- The character that a letter after a backslash stands for. -/
def escape? (c : Char) : Option Char :=
  match c with
  | '0' => some '\x00'
  | 'a' => some '\x07'
  | 'b' => some '\x08'
  | 't' => some '\t'
  | '\t' => some '\t'
  | 'n' => some '\n'
  | 'v' => some '\x0b'
  | 'f' => some '\x0c'
  | 'r' => some '\r'
  | 'e' => some '\x1b'
  | ' ' => some ' '
  | '"' => some '"'
  | '/' => some '/'
  | '\\' => some '\\'
  | 'N' => some '\u0085'
  | '_' => some '\u00a0'
  | 'L' => some '\u2028'
  | 'P' => some '\u2029'
  | _ => none

/-- How many digits follow a letter after a backslash that opens an escape by number. -/
def escapeDigits? (c : Char) : Option Nat :=
  match c with
  | 'x' => some 2
  | 'u' => some 4
  | 'U' => some 8
  | _ => none

end Partwise.Yaml
