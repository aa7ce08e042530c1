import Partwise.Markup.Character

/-!
# Markup · Token: a document cut into its pieces

`Token.ofChars?` cuts a document into runs of text and pieces of markup. It reads one character at a
time and never goes back: a piece of markup is held until the character that ends it, a tag until a
`>` outside quotation marks, a comment until `-->`, and so on. What a tag says is left to
`Tag.ofChars?`, which takes its attributes apart at the quotation marks.
-/

namespace Partwise.Markup

/-! ## Tags -/

/-- What a tag says. -/
inductive Tag where
  /-- An opening tag; one that closes itself has no content. -/
  | opening (name : QName) (attributes : List (QName × List Char)) (closed : Bool)
  | closing (name : QName)
deriving Repr

/-- What attributes are cut out of: what stands before each quotation, the quotation, and what
stands after the last one. -/
structure Quotations where
  /-- The quotation mark of the quotation that is open. -/
  open? : Option Char := none
  /-- What has been read since the last cut, last character first. -/
  held : List Char := []
  /-- What stood before the quotation that is open. -/
  lead : List Char := []
  /-- The quotations that are closed with what stood before them, last one first. -/
  pairs : List (List Char × List Char) := []

/-- Reads one character. -/
def Quotations.step (q : Quotations) (c : Char) : Quotations :=
  match q.open? with
  | some mark =>
    if c == mark then ⟨none, [], [], (q.lead, q.held.reverse) :: q.pairs⟩
    else { q with held := c :: q.held }
  | none =>
    if c == '"' || c == '\'' then ⟨some c, [], q.held.reverse, q.pairs⟩
    else { q with held := c :: q.held }

/-- The quotations of a text in order, each with what stands before it, and what stands after the
last one. -/
def quotations? (cs : List Char) : Option (List (List Char × List Char) × List Char) :=
  let q := cs.foldl Quotations.step {}
  match q.open? with
  | some _ => none
  | none => some (q.pairs.reverse, q.held.reverse)

/-- What stands before the quotation of an attribute: blanks, a name and an equals sign that blanks
may surround. -/
def attributeName? (lead : List Char) : Option QName :=
  let named := lead.dropWhile isSpace
  let afterName := (named.dropWhile isNameChar).dropWhile isSpace
  match afterName with
  | '=' :: rest =>
    if lead.length == named.length || !rest.all isSpace then none
    else QName.ofChars? (named.takeWhile isNameChar)
  | _ => none

/-- An attribute from what stands before its quotation and the quotation, which holds no `<`. -/
def attribute? (pair : List Char × List Char) : Option (QName × List Char) :=
  if pair.2.contains '<' then none
  else (attributeName? pair.1).map fun name => (name, pair.2)

/-- What stands between `<` and `>` as a tag. -/
def Tag.ofChars? (body : List Char) : Option Tag :=
  match body with
  | '/' :: rest =>
    if (rest.dropWhile isNameChar).all isSpace then
      (QName.ofChars? (rest.takeWhile isNameChar)).map Tag.closing
    else none
  | _ => do
    let name ← QName.ofChars? (body.takeWhile isNameChar)
    let (pairs, rest) ← quotations? (body.dropWhile isNameChar)
    let attributes ← pairs.mapM attribute?
    match rest.dropWhile isSpace with
    | [] => some (.opening name attributes false)
    | ['/'] => some (.opening name attributes true)
    | _ => none

/-! ## Pieces -/

/-- A piece of a document. -/
inductive Token where
  /-- A run of characters between two pieces of markup, as it stands. -/
  | text (cs : List Char)
  /-- A section in which nothing is markup. -/
  | verbatim (cs : List Char)
  | comment (cs : List Char)
  /-- What stands between `<?` and `?>`. -/
  | instruction (cs : List Char)
  /-- What stands between `<` and `>`, and the line of the `<`. -/
  | tag (line : Nat) (body : List Char)
deriving Repr

/-- What kind of piece is being read. -/
inductive Cutter.Mode where
  | text
  /-- After a `<`, as long as its kind is open. -/
  | undecided
  /-- In a tag, and in a quotation there when a mark is given. -/
  | tag (mark : Option Char)
  | comment
  | verbatim
  | instruction
deriving DecidableEq, Repr

/-- The state of cutting. -/
structure Cutter where
  mode : Cutter.Mode := .text
  /-- What is held of the open piece, last character first. -/
  held : List Char := []
  /-- The line that is being read. -/
  line : Nat := 1
  /-- The line of the `<` of the open piece. -/
  start : Nat := 1
  /-- The pieces that are complete, last one first. -/
  tokens : List Token := []

namespace Cutter

/-- A piece is complete; text follows. -/
def emit (s : Cutter) (token : Token) : Cutter :=
  { s with mode := .text, held := [], tokens := token :: s.tokens }

/-- One more character is held. -/
def hold (s : Cutter) (c : Char) : Cutter :=
  { s with held := c :: s.held }

/-- The run of text is complete, unless it is empty. -/
def emitText (s : Cutter) : Cutter :=
  if s.held.isEmpty then s else s.emit (.text s.held.reverse)

/-- The quotation mark that stays open in a tag after a character. -/
def markAfter (mark : Option Char) (c : Char) : Option Char :=
  match mark with
  | some m => if c == m then none else some m
  | none => if c == '"' || c == '\'' then some c else none

/-- A character in a tag. -/
def stepTag (s : Cutter) (mark : Option Char) (c : Char) : Cutter :=
  if mark.isNone && c == '>' then s.emit (.tag s.start s.held.reverse)
  else { s.hold c with mode := .tag (markAfter mark c) }

/-- A character while the kind of markup is open. What opens neither a comment nor a section after
an exclamation mark is read on as a tag, which it is not. -/
def stepUndecided (s : Cutter) (c : Char) : Cutter :=
  let opened := (c :: s.held).reverse
  if opened == ['?'] then { s with mode := .instruction }
  else if opened == "!--".toList then { s with mode := .comment, held := [] }
  else if opened == "![CDATA[".toList then { s with mode := .verbatim, held := [] }
  else if opened.isPrefixOf "!--".toList || opened.isPrefixOf "![CDATA[".toList then s.hold c
  else s.stepTag none c

/-- A character, the line count apart. -/
def stepMode (s : Cutter) (c : Char) : Cutter :=
  match s.mode with
  | .text =>
    if c == '<' then { s.emitText with mode := .undecided, start := s.line } else s.hold c
  | .undecided => s.stepUndecided c
  | .tag mark => s.stepTag mark c
  | .comment =>
    match c, s.held with
    | '>', '-' :: '-' :: held => s.emit (.comment held.reverse)
    | c, _ => s.hold c
  | .verbatim =>
    match c, s.held with
    | '>', ']' :: ']' :: held => s.emit (.verbatim held.reverse)
    | c, _ => s.hold c
  | .instruction =>
    match c, s.held with
    | '>', '?' :: held => s.emit (.instruction held.reverse)
    | c, _ => s.hold c

/-- Reads one character. -/
def step (s : Cutter) (c : Char) : Cutter :=
  let s' := s.stepMode c
  if c == '\n' then { s' with line := s'.line + 1 } else s'

end Cutter

/-- The pieces of a text that begins in a line, when the last one is complete. -/
def Token.ofChars? (line : Nat) (cs : List Char) : Option (List Token) :=
  let s := cs.foldl Cutter.step { line }
  if s.mode = .text then some s.emitText.tokens.reverse else none

end Partwise.Markup
