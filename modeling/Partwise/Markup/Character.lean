import Partwise.Text.Numeral

/-!
# Markup · Character: the character classes of markup and the references to characters

Which characters a document may hold, which ones may stand in a name, and what stands for a
character that is not written itself: a reference by number or one of five names. `resolve?`
replaces the references of an attribute's value, `resolveText?` those of a run of text together with
its line ends.
-/

namespace Partwise.Markup

/-! ## Classes -/

/-- The four blanks of markup. -/
def isSpace (c : Char) : Bool :=
  c == ' ' || c == '\t' || c == '\n' || c == '\r'

/-- The characters a document may hold: of the controls below the space only the blanks, and neither
of the two noncharacters at the end of the basic plane. -/
def isAllowed (c : Char) : Bool :=
  if c.toNat < 0x20 then isSpace c else c.toNat != 0xFFFE && c.toNat != 0xFFFF

/-- The code points beyond ASCII that may open a name, as closed ranges. -/
def nameStartRanges : List (Nat × Nat) :=
  [(0xC0, 0xD6), (0xD8, 0xF6), (0xF8, 0x2FF), (0x370, 0x37D), (0x37F, 0x1FFF), (0x200C, 0x200D),
   (0x2070, 0x218F), (0x2C00, 0x2FEF), (0x3001, 0xD7FF), (0xF900, 0xFDCF), (0xFDF0, 0xFFFD),
   (0x10000, 0xEFFFF)]

/-- The code points beyond ASCII that may stand in a name but not open it, as closed ranges. -/
def nameInnerRanges : List (Nat × Nat) :=
  [(0xB7, 0xB7), (0x300, 0x36F), (0x203F, 0x2040)]

/-- The code point lies in one of the ranges. -/
def inRanges (ranges : List (Nat × Nat)) (n : Nat) : Bool :=
  ranges.any fun (low, high) => low ≤ n && n ≤ high

/-- The characters that may open a name. -/
def isNameStart (c : Char) : Bool :=
  c.isAlpha || c == '_' || c == ':' || inRanges nameStartRanges c.toNat

/-- The characters that may stand in a name. -/
def isNameChar (c : Char) : Bool :=
  isNameStart c || c.isDigit || c == '-' || c == '.' || inRanges nameInnerRanges c.toNat

/-! ## Names -/

/-- A name in two parts: a prefix, empty when there is none, and a local name. -/
structure QName where
  space : String
  base : String
deriving DecidableEq, Repr

/-- The part of a name before or after its colon opens as a name does. -/
def opensName (part : List Char) : Bool :=
  match part with
  | [] => false
  | c :: _ => isNameStart c

/-- The name that a run of name characters writes. At most one colon parts it; the local name is
never empty, the prefix before a leading colon is. -/
def QName.ofChars? (cs : List Char) : Option QName :=
  match Text.pieces (· == ':') cs with
  | [base] => if opensName base then some ⟨"", String.ofList base⟩ else none
  | [space, base] =>
    if opensName base && (space.isEmpty || opensName space) then
      some ⟨String.ofList space, String.ofList base⟩
    else none
  | _ => none

/-! ## References -/

/-- The number that one or more digits in base sixteen write. -/
def hexNumber? (cs : List Char) : Option Nat :=
  if cs.isEmpty then none
  else cs.foldlM (fun n c => (Text.hexDigit? c).map (16 * n + ·)) 0

/-- The character with a number of 32 bits. A number that no character has stands for the
replacement character; one of a character that a document may not hold stands for nothing. -/
def numbered? (n : Nat) : Option Char :=
  if 0x100000000 ≤ n then none
  else
    let c := if n.isValidChar then Char.ofNat n else '\uFFFD'
    if isAllowed c then some c else none

/-- The character that a reference stands for, given what is between `&` and `;`. -/
def referent? : List Char → Option Char
  | '#' :: 'x' :: digits => (hexNumber? digits).bind numbered?
  | '#' :: digits => (Text.natural? digits).bind numbered?
  | name =>
    match String.ofList name with
    | "quot" => some '"'
    | "amp" => some '&'
    | "apos" => some '\''
    | "lt" => some '<'
    | "gt" => some '>'
    | _ => none

/-- What follows an ampersand: the character that the reference it opens stands for, and the text
behind that reference. -/
def referenceAndRest? (cs : List Char) : Option (Char × List Char) :=
  match cs.dropWhile (· != ';') with
  | [] => none
  | _ :: rest => (referent? (cs.takeWhile (· != ';'))).map fun c => (c, rest)

/-- A value with every reference replaced by the character it stands for. -/
def resolve? (cs : List Char) : Option (List Char) :=
  match Text.pieces (· == '&') cs with
  | [] => some []
  | plain :: opened =>
    (opened.mapM referenceAndRest?).map fun pairs =>
      plain ++ pairs.flatMap fun pair => pair.1 :: pair.2

/-! ## Line ends -/

/-- A carriage return, alone or before a line feed, becomes one line feed. -/
def unifyLineEnds : List Char → List Char
  | '\r' :: '\n' :: cs => '\n' :: unifyLineEnds cs
  | '\r' :: cs => '\n' :: unifyLineEnds cs
  | c :: cs => c :: unifyLineEnds cs
  | [] => []

/-- The line ends of a stretch of text that a reference follows: a carriage return directly before
the reference stands as it is. -/
def unifyBeforeReference (cs : List Char) : List Char :=
  if cs.getLast? = some '\r' then unifyLineEnds cs.dropLast ++ ['\r'] else unifyLineEnds cs

/-- The line ends of stretches of text that each follow a reference. A carriage return that is all
there is between a reference and the end stands as it is. -/
def unifyBehindReferences : List (List Char) → List (List Char)
  | [] => []
  | [cs] => [if cs = ['\r'] then cs else unifyLineEnds cs]
  | cs :: rest => unifyBeforeReference cs :: unifyBehindReferences rest

/-- A run of text with its references replaced and its line ends made one character each. -/
def resolveText? (cs : List Char) : Option (List Char) :=
  match Text.pieces (· == '&') cs with
  | [] => some []
  | [plain] => some (unifyLineEnds plain)
  | plain :: opened => do
    let pairs ← opened.mapM referenceAndRest?
    let rests := unifyBehindReferences (pairs.map Prod.snd)
    some (unifyBeforeReference plain ++
      ((pairs.map Prod.fst).zip rests).flatMap fun pair => pair.1 :: pair.2)

/-- Line ends and tabs become one space each, as in attribute values. -/
def flattenSpace (cs : List Char) : List Char :=
  (unifyLineEnds cs).map fun c => if isSpace c then ' ' else c

end Partwise.Markup
