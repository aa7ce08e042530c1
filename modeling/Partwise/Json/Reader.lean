import Partwise.Json.Value

/-!
# Json · Reader: from text to JSON values

The text is cut into tokens one character at a time, and the tokens build the value one at a time on
a stack of open arrays and objects, so that neither step ever looks ahead. `Json.ofText?` has a
value exactly when the whole text is one.
-/

namespace Partwise.Json

/-! ## Strings -/

/-- The text that a sequence of code points and 16-bit code units writes: a unit that opens a
surrogate pair and the one that closes it are one character. Half a pair is no text. -/
def textOfUnits? : List Nat → Option (List Char)
  | [] => some []
  | high :: low :: rest =>
    if 0xD800 ≤ high ∧ high < 0xDC00 ∧ 0xDC00 ≤ low ∧ low < 0xE000 then
      (textOfUnits? rest).map fun cs =>
        Char.ofNat (0x10000 + (high - 0xD800) * 0x400 + (low - 0xDC00)) :: cs
    else if high.isValidChar then
      (textOfUnits? (low :: rest)).map fun cs => Char.ofNat high :: cs
    else none
  | [unit] => if unit.isValidChar then some [Char.ofNat unit] else none

/-- The code unit that a letter after a backslash stands for. -/
def escapeUnit? (c : Char) : Option Nat :=
  match c with
  | '"' => some 0x22
  | '\\' => some 0x5C
  | '/' => some 0x2F
  | 'b' => some 8
  | 'f' => some 12
  | 'n' => some 10
  | 'r' => some 13
  | 't' => some 9
  | _ => none

/-! ## Words -/

/-- A whole number without needless zeros before it. -/
def isWhole (cs : List Char) : Bool :=
  Text.isNumeral cs && (cs == ['0'] || cs.head? != some '0')

/-- A fraction is a point and digits; it may be absent. -/
def isFraction : List Char → Bool
  | [] => true
  | '.' :: cs => Text.isNumeral cs
  | _ => false

/-- An exponent is a letter and digits with an optional sign; it may be absent. -/
def isExponent : List Char → Bool
  | [] => true
  | _ :: '+' :: cs => Text.isNumeral cs
  | _ :: '-' :: cs => Text.isNumeral cs
  | _ :: cs => Text.isNumeral cs

/-- The number that a word writes. Only a whole number other than a negative zero is kept as one. -/
def numberOfWord? (word : List Char) : Option Json :=
  let body := if word.head? == some '-' then word.drop 1 else word
  let whole := body.takeWhile Char.isDigit
  let rest := body.dropWhile Char.isDigit
  let isMark (c : Char) : Bool := c == 'e' || c == 'E'
  let fraction := rest.takeWhile fun c => !isMark c
  let exponent := rest.dropWhile fun c => !isMark c
  if isWhole whole && isFraction fraction && isExponent exponent then
    if rest.isEmpty && word != ['-', '0'] then (Text.integer? word).map Json.whole
    else (Binary32.read? (String.ofList word)).map Json.number
  else none

/-- The value that a word stands for. -/
def valueOfWord? (word : List Char) : Option Json :=
  match String.ofList word with
  | "null" => some .null
  | "true" => some (.bool true)
  | "false" => some (.bool false)
  | _ => numberOfWord? word

/-- The characters of words. -/
def isWordChar (c : Char) : Bool :=
  c.isAlphanum || c == '-' || c == '+' || c == '.'

/-- The blanks between tokens. -/
def isGap (c : Char) : Bool :=
  c == ' ' || c == '\t' || c == '\n' || c == '\r'

/-! ## Tokens -/

/-- A token of a JSON text. -/
inductive Token where
  /-- A bracket, brace, colon or comma. -/
  | mark (c : Char)
  /-- A word or a number. -/
  | value (j : Json)
  /-- A string, or nothing where the string names no text. -/
  | string (s? : Option String)

/-- What is being read. -/
inductive Lexer.Mode where
  | between
  /-- In a word, its last character first. -/
  | word (held : List Char)
  /-- In a string, its last unit first. -/
  | string (held : List Nat)
  /-- After a backslash in a string. -/
  | escape (held : List Nat)
  /-- In an escape by number, with how many digits are missing and the number so far. -/
  | numbered (held : List Nat) (missing : Nat) (unit : Nat)

/-- The state of cutting a text into tokens, the last token first. -/
structure Lexer where
  mode : Lexer.Mode := .between
  tokens : List Token := []

namespace Lexer

/-- A character between two tokens. -/
def stepBetween? (s : Lexer) (c : Char) : Option Lexer :=
  if isGap c then some s
  else if c == '"' then some { s with mode := .string [] }
  else if isWordChar c then some { s with mode := .word [c] }
  else if "[]\x7b\x7d:,".toList.contains c then some { s with tokens := .mark c :: s.tokens }
  else none

/-- The word that is being read is complete. -/
def endWord? (s : Lexer) : Option Lexer :=
  match s.mode with
  | .word held => (valueOfWord? held.reverse).map fun j => ⟨.between, .value j :: s.tokens⟩
  | _ => some s

/-- Reads one character. -/
def step? (s : Lexer) (c : Char) : Option Lexer :=
  match s.mode with
  | .between => s.stepBetween? c
  | .word held =>
    if isWordChar c then some { s with mode := .word (c :: held) }
    else s.endWord?.bind (·.stepBetween? c)
  | .string held =>
    if c == '"' then
      some ⟨.between, .string ((textOfUnits? held.reverse).map String.ofList) :: s.tokens⟩
    else if c == '\\' then some { s with mode := .escape held }
    else if c.toNat < 0x20 then none
    else some { s with mode := .string (c.toNat :: held) }
  | .escape held =>
    if c == 'u' then some { s with mode := .numbered held 4 0 }
    else (escapeUnit? c).map fun unit => { s with mode := .string (unit :: held) }
  | .numbered held missing unit =>
    (Text.hexDigit? c).map fun digit =>
      let unit := 16 * unit + digit
      { s with
        mode := if missing ≤ 1 then .string (unit :: held) else .numbered held (missing - 1) unit }

end Lexer

/-- The tokens of a text. -/
def tokens? (cs : List Char) : Option (List Token) := do
  let s ← (← cs.foldlM Lexer.step? {}).endWord?
  match s.mode with
  | .between => some s.tokens.reverse
  | _ => none

/-! ## Values -/

/-- An array or object whose end has not been read, the last item or member first. -/
inductive Frame where
  | array (items : List Json)
  /-- With the name of the member that is being read; `legible` is lost by a name that names no
  text. -/
  | object (name : String) (members : List (String × Json)) (legible : Bool)

/-- What may come next. -/
inductive Expect where
  | value
  /-- A value, or the end of an array that has just begun. -/
  | itemOrEnd
  /-- A member, or the end of an object that has just begun. -/
  | memberOrEnd
  | member
  | colon
  /-- A comma or the end of the innermost open array or object. -/
  | commaOrEnd
  | nothing
deriving DecidableEq

/-- The state of building a value: what may come next, what is open, innermost first, and the value
once it is complete. -/
structure Builder where
  expect : Expect := .value
  frames : List Frame := []
  result : Json := .null

namespace Builder

/-- A value is complete. -/
def complete (b : Builder) (frames : List Frame) (j : Json) : Builder :=
  match frames with
  | [] => { b with expect := .nothing, frames := [], result := j }
  | .array items :: outer =>
    { b with expect := .commaOrEnd, frames := .array (j :: items) :: outer }
  | .object name members legible :: outer =>
    { b with expect := .commaOrEnd, frames := .object name ((name, j) :: members) legible :: outer }

/-- The innermost open array or object ends. -/
def close? (b : Builder) (mark : Char) : Option Builder :=
  match b.frames with
  | .array items :: outer =>
    if mark == ']' then some (b.complete outer (.array items.reverse)) else none
  | .object _ members legible :: outer =>
    if mark == '\x7d' then
      some (b.complete outer (if legible then .object members.reverse else .unreadable))
    else none
  | [] => none

/-- A comma within the innermost open array or object. -/
def comma? (b : Builder) : Option Builder :=
  match b.frames with
  | .array _ :: _ => some { b with expect := .value }
  | .object _ _ _ :: _ => some { b with expect := .member }
  | [] => none

/-- The name of a member of the innermost open object. -/
def name? (b : Builder) (s? : Option String) : Option Builder :=
  match b.frames with
  | .object _ members legible :: outer =>
    some { b with
      expect := .colon
      frames := .object (s?.getD "") members (legible && s?.isSome) :: outer }
  | _ => none

/-- Takes one token. -/
def step? (b : Builder) (token : Token) : Option Builder :=
  let startsValue := b.expect = .value ∨ b.expect = .itemOrEnd
  match token with
  | .value j => if startsValue then some (b.complete b.frames j) else none
  | .string s? =>
    if startsValue then some (b.complete b.frames (s?.elim .unreadable .string))
    else if b.expect = .member ∨ b.expect = .memberOrEnd then b.name? s?
    else none
  | .mark c =>
    if c == '[' then
      if startsValue then some { b with expect := .itemOrEnd, frames := .array [] :: b.frames }
      else none
    else if c == '\x7b' then
      if startsValue then
        some { b with expect := .memberOrEnd, frames := .object "" [] true :: b.frames }
      else none
    else if c == ':' then
      if b.expect = .colon then some { b with expect := .value } else none
    else if c == ',' then
      if b.expect = .commaOrEnd then b.comma? else none
    else if b.expect = .commaOrEnd ∨ b.expect = .itemOrEnd ∨ b.expect = .memberOrEnd then b.close? c
    else none

end Builder

/-- The value that a text writes, when the whole text is one value. -/
def ofText? (text : String) : Option Json := do
  let tokens ← tokens? text.toList
  let b ← tokens.foldlM Builder.step? {}
  if b.expect = .nothing then some b.result else none

end Partwise.Json
