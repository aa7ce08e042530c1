import Partwise.Yaml.Scalar

/-!
# Yaml · Token: the structure of a YAML text, token by token

A text is read one character at a time, with what is behind it in view. Scalars, brackets and dashes
are tokens as they stand; where a block collection begins and ends is read off the columns. A key
shows only by the colon behind it, so the lexer remembers for every open collection the place where
a key may have begun, and puts the token of the key there once it meets the colon. Such a place is
good for one line and 1024 bytes.

Left out are tags, anchors, aliases, directives and block scalars.
-/

namespace Partwise.Yaml

/-- A token of a YAML text. -/
inductive Token where
  /-- Three dashes, before a document. -/
  | documentStart
  /-- Three points, behind a document. -/
  | documentEnd
  | blockListStart
  | blockMappingStart
  /-- Where a block collection ends. -/
  | blockEnd
  | flowListStart
  | flowListEnd
  | flowMappingStart
  | flowMappingEnd
  /-- The dash before an item. -/
  | dash
  | comma
  /-- Where a key begins. -/
  | key
  /-- Where the value of a key begins. -/
  | value
  /-- A scalar without quotation marks. -/
  | plain (text : String)
  /-- A scalar between quotation marks. -/
  | quoted (text : String)
deriving DecidableEq, Repr

/-! ## The lexer -/

/-- What is being read. -/
inductive Mode where
  /-- What is between two tokens. -/
  | between
  | comment
  | plain (s : Scalar)
  | single (s : Scalar)
  /-- At the second of two quotation marks that stand for one. -/
  | doubled (s : Scalar)
  | double (s : Scalar)
  /-- Behind a backslash. -/
  | escape (s : Scalar)
  /-- In an escape by number, with how many digits are missing and the number so far. -/
  | numbered (s : Scalar) (missing : Nat) (code : Nat)
  /-- In a token of which all is known but some characters are still to come. -/
  | rest (missing : Nat)

/-- A place where a key may have begun. -/
structure KeyPlace where
  /-- How many tokens are before it. -/
  tokens : Nat
  line : Nat
  column : Nat
  /-- How many bytes are before it. -/
  offset : Nat
  /-- What begins here can only be a key. -/
  isRequired : Bool

/-- The state of reading a text, the last token first. -/
structure Lexer where
  mode : Mode := .between
  tokens : List Token := []
  line : Nat := 0
  column : Nat := 0
  /-- How many bytes were read. -/
  offset : Nat := 0
  /-- The columns of the block collections around, the innermost first. -/
  indents : List Nat := []
  /-- Where a key of the innermost collection may have begun. -/
  place? : Option KeyPlace := none
  /-- The same for the collections around it, of which all but the last are flow collections. -/
  outer : List (Option KeyPlace) := []
  /-- A key may begin here. -/
  keyAllowed : Bool := true

namespace Lexer

/-- A flow collection is open. -/
def inFlow (s : Lexer) : Bool := !s.outer.isEmpty

/-- The lexer behind a token. -/
def emit (s : Lexer) (token : Token) : Lexer :=
  { s with mode := .between, tokens := token :: s.tokens }

/-- The lexer with a token put in behind a number of tokens. -/
def emitAt (s : Lexer) (tokens : Nat) (token : Token) : Lexer :=
  { s with tokens := s.tokens.insertIdx (s.tokens.length - tokens) token }

/-! ## Block collections -/

/-- The first column that still belongs to the innermost block collection. -/
def floor (s : Lexer) : Nat :=
  (s.indents.head?.map fun column => column + 1).getD 0

/-- The innermost block collections end, as far as their columns say so. -/
def endBlocks (s : Lexer) (ends : Nat → Bool) : Lexer :=
  { s with
    tokens := List.replicate (s.indents.takeWhile ends).length .blockEnd ++ s.tokens
    indents := s.indents.dropWhile ends }

/-- A token begins here: the block collections to its right have ended. -/
def unroll (s : Lexer) : Lexer :=
  if s.inFlow then s else s.endBlocks fun indent => Nat.blt s.column indent

/-- A block collection begins in a column, behind a number of tokens, unless one is there yet. -/
def roll (s : Lexer) (column tokens : Nat) (start : Token) : Lexer :=
  if s.inFlow || Nat.blt column s.floor then s
  else { s.emitAt tokens start with indents := column :: s.indents }

/-- A block collection begins here, unless one is there already. Within a flow collection nothing of
the kind happens; elsewhere it must be a place where a key may begin. -/
def rollHere? (s : Lexer) (start : Token) : Option Lexer :=
  if s.inFlow then some s
  else if s.keyAllowed then some (s.roll s.column s.tokens.length start)
  else none

/-! ## Places of keys -/

/-- The place is out of reach for a colon that stands here. -/
def isBeyond (s : Lexer) (place : KeyPlace) : Bool :=
  Nat.blt place.line s.line || Nat.blt (place.offset + 1024) s.offset

/-- The places that are still within reach. One that is not must not be required. -/
def dropStale? (s : Lexer) : Option Lexer := do
  let keep? (place? : Option KeyPlace) : Option (Option KeyPlace) :=
    if place?.any fun place => s.isBeyond place && place.isRequired then none
    else some (place?.filter fun place => !s.isBeyond place)
  some { s with place? := ← keep? s.place?, outer := ← s.outer.mapM keep? }

/-- No key of the innermost collection has begun. -/
def forget? (s : Lexer) : Option Lexer :=
  if s.place?.any KeyPlace.isRequired then none else some { s with place? := none }

/-- A key may begin here, if it is allowed to; behind what begins here none may. -/
def begin? (s : Lexer) : Option Lexer :=
  if s.keyAllowed then
    s.forget?.map fun s =>
      { s with
        keyAllowed := false
        place? := some
          { tokens := s.tokens.length
            line := s.line
            column := s.column
            offset := s.offset
            isRequired := !s.inFlow && s.indents.head? = some s.column } }
  else some s

/-! ## Tokens of structure -/

/-- A bracket or brace that opens a collection. -/
def openFlow? (s : Lexer) (start : Token) : Option Lexer :=
  s.begin?.map fun s =>
    { s.emit start with place? := none, outer := s.place? :: s.outer, keyAllowed := true }

/-- A bracket or brace that closes a collection. Whether there is one to close shows when the tokens
are read. -/
def closeFlow? (s : Lexer) (stop : Token) : Option Lexer :=
  s.forget?.map fun s =>
    { s.emit stop with
      place? := s.outer.head?.join
      outer := s.outer.tail
      keyAllowed := false }

/-- A comma. -/
def comma? (s : Lexer) : Option Lexer :=
  s.forget?.map fun s => { s.emit .comma with keyAllowed := true }

/-- A dash before an item. -/
def dash? (s : Lexer) : Option Lexer := do
  let s ← (← s.rollHere? .blockListStart).forget?
  some { s.emit .dash with keyAllowed := true }

/-- A question mark before a key. -/
def question? (s : Lexer) : Option Lexer := do
  let s ← (← s.rollHere? .blockMappingStart).forget?
  some { s.emit .key with keyAllowed := !s.inFlow }

/-- A colon before a value. It makes a key of what began where a key may have begun. -/
def colon? (s : Lexer) : Option Lexer :=
  match s.place? with
  | some place =>
    let keyed := (s.emitAt place.tokens .key).roll place.column place.tokens .blockMappingStart
    some { keyed.emit .value with place? := none, keyAllowed := false }
  | none =>
    (s.rollHere? .blockMappingStart).map fun s => { s.emit .value with keyAllowed := !s.inFlow }

/-- Three dashes or points set documents apart here: they open a line and have nothing behind
them. -/
def isBoundary (s : Lexer) (c : Char) (rest : List Char) : Bool :=
  s.column == 0 && (c == '-' || c == '.') && rest.take 2 == [c, c] && isOpenEnd (rest.drop 2)

/-- Three dashes or points between documents. -/
def boundary? (s : Lexer) (c : Char) : Option Lexer :=
  (s.endBlocks fun _ => true).forget?.map fun s =>
    let token := if c == '-' then Token.documentStart else .documentEnd
    { s.emit token with mode := .rest 2, keyAllowed := false }

/-! ## Steps -/

/-- The first character of a token. -/
def stepToken? (s : Lexer) (c : Char) (rest : List Char) : Option Lexer := do
  let s := (← s.dropStale?).unroll
  if s.isBoundary c rest then s.boundary? c
  else
    let isMark := s.inFlow || isOpenEnd rest
    match c with
    | '[' => s.openFlow? .flowListStart
    | '\x7b' => s.openFlow? .flowMappingStart
    | ']' => s.closeFlow? .flowListEnd
    | '\x7d' => s.closeFlow? .flowMappingEnd
    | ',' => s.comma?
    | '\'' => s.begin?.map fun s => { s with mode := .single {} }
    | '"' => s.begin?.map fun s => { s with mode := .double {} }
    | c =>
      if c == '-' && isOpenEnd rest then s.dash?
      else if c == '?' && isMark then s.question?
      else if c == ':' && isMark then s.colon?
      else if beginsPlain s.inFlow c rest then
        s.begin?.map fun s => { s with mode := .plain (Scalar.push {} c) }
      else none

/-- A character between two tokens. A tab is no indentation, so it may not stand where a key of a
block collection could. -/
def stepBetween? (s : Lexer) (c : Char) (rest : List Char) : Option Lexer :=
  if isBreak c then some { s with mode := .between, keyAllowed := s.keyAllowed || !s.inFlow }
  else if c == ' ' || (isByteOrderMark c && s.offset == 0) then some s
  else if c == '\t' then (if s.keyAllowed && !s.inFlow then none else some s)
  else if c == '#' then some { s with mode := .comment }
  else s.stepToken? c rest

/-- The lexer behind a plain scalar, the line ends behind which have been read. -/
def emitPlain (s : Lexer) (scalar : Scalar) : Lexer :=
  { s.emit (.plain scalar.trimmed) with keyAllowed := s.keyAllowed || scalar.ended }

/-- A plain scalar ends before a character that is no blank: behind a line end where its block
collection does or documents are set apart, behind a blank where a comment begins, anywhere at a
colon that is a mark, and within a flow collection at brackets, braces and commas. -/
def endsPlain (s : Lexer) (scalar : Scalar) (c : Char) (rest : List Char) : Bool :=
  (!s.inFlow && Nat.blt s.column s.floor) || s.isBoundary c rest ||
    (c == '#' && (scalar.ended || !scalar.blanks.isEmpty)) ||
    (c == ':' && isOpenEnd rest) || (s.inFlow && isFlowMark c)

/-- A character of a plain scalar or the one behind it. -/
def stepPlain? (s : Lexer) (scalar : Scalar) (c : Char) (rest : List Char) : Option Lexer :=
  if isBreak c then some { s with mode := .plain (scalar.pushBreak c) }
  else if isGap c then
    if c == '\t' && scalar.ended && Nat.blt s.column s.floor then none
    else some { s with mode := .plain (scalar.pushBlank c) }
  else if s.inFlow && c == ':' && rest.head?.any (fun next => isFlowMark next || next == '?') then
    none
  else if s.endsPlain scalar c rest then (s.emitPlain scalar).stepBetween? c rest
  else some { s with mode := .plain (scalar.push c) }

/-- A character behind a backslash. -/
def stepEscape? (s : Lexer) (scalar : Scalar) (c : Char) : Option Lexer :=
  if isBreak c then some { s with mode := .double scalar.pushEscapedBreak }
  else
    match escapeDigits? c with
    | some digits => some { s with mode := .numbered scalar digits 0 }
    | none => (escape? c).map fun c => { s with mode := .double (scalar.push c) }

/-- A digit of an escape by number. -/
def stepNumbered? (s : Lexer) (scalar : Scalar) (missing code : Nat) (c : Char) : Option Lexer := do
  let code := 16 * code + (← Text.hexDigit? c)
  if missing ≤ 1 then
    if code.isValidChar then some { s with mode := .double (scalar.push (Char.ofNat code)) }
    else none
  else some { s with mode := .numbered scalar (missing - 1) code }

/-- A character of a quotation between single marks. -/
def stepSingle? (s : Lexer) (scalar : Scalar) (c : Char) (rest : List Char) : Option Lexer :=
  if s.isBoundary c rest then none
  else if c == '\'' then
    if rest.head? = some '\'' then some { s with mode := .doubled scalar }
    else some (s.emit (.quoted scalar.whole))
  else some { s with mode := .single (scalar.pushAny c) }

/-- A character of a quotation between double marks. -/
def stepDouble? (s : Lexer) (scalar : Scalar) (c : Char) (rest : List Char) : Option Lexer :=
  if s.isBoundary c rest then none
  else if c == '"' then some (s.emit (.quoted scalar.whole))
  else if c == '\\' then some { s with mode := .escape scalar }
  else some { s with mode := .double (scalar.pushAny c) }

/-- A character in whatever is being read. -/
def stepMode? (s : Lexer) (c : Char) (rest : List Char) : Option Lexer :=
  match s.mode with
  | .between => s.stepBetween? c rest
  | .comment => if isBreak c then s.stepBetween? c rest else some s
  | .plain scalar => s.stepPlain? scalar c rest
  | .single scalar => s.stepSingle? scalar c rest
  | .doubled scalar => some { s with mode := .single (scalar.push c) }
  | .double scalar => s.stepDouble? scalar c rest
  | .escape scalar => s.stepEscape? scalar c
  | .numbered scalar missing code => s.stepNumbered? scalar missing code c
  | .rest missing => some { s with mode := if missing ≤ 1 then .between else .rest (missing - 1) }

/-- The lexer with its place behind one more character. -/
def pass (s : Lexer) (c : Char) : Lexer :=
  let offset := s.offset + c.utf8Size
  if isBreak c then { s with line := s.line + 1, column := 0, offset }
  else { s with column := s.column + 1, offset }

/-- Reads a text from its first character to its last. -/
def scan? (s : Lexer) : List Char → Option Lexer
  | [] => some s
  | c :: cs => do scan? ((← s.stepMode? c cs).pass c) cs

/-- The tokens of a text that ends between two of them. -/
def close? (s : Lexer) : Option (List Token) := do
  let s ← (← s.dropStale?).forget?
  some (s.endBlocks fun _ => true).tokens.reverse

/-- The tokens of a text that ends here. -/
def tokens? (s : Lexer) : Option (List Token) :=
  match s.mode with
  | .between => s.close?
  | .comment => s.close?
  | .plain scalar => (s.emitPlain scalar).close?
  | _ => none

end Lexer

/-! ## Texts -/

/-- The text with the two characters that may end a line together made one. -/
def unifyBreaks : List Char → List Char
  | '\r' :: '\n' :: cs => '\n' :: unifyBreaks cs
  | c :: cs => c :: unifyBreaks cs
  | [] => []

/-- The tokens of a text. -/
def tokens? (cs : List Char) : Option (List Token) := do
  if cs.all isAllowed then (← Lexer.scan? {} (unifyBreaks cs)).tokens? else none

end Partwise.Yaml
