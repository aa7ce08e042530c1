import Mathlib.Data.List.Basic
import Partwise.Markup.Document

/-!
# Markup · Grammar: the document type declarations of XML 1.0

The grammar of document type declarations as data. Each production is a type with a rendering
`chars`, and what the grammar demands of characters is a field, so that every value of
`DocumentType` renders to a declaration that the grammar has, and every such declaration is the
rendering of one: an external identifier and an internal subset may be there or not, and blanks
may stand between the `]` that closes the subset and the last `>`.

Only literals, comments and instructions admit brackets. Inside the subset every production is
therefore cut into *pieces*: bare ones without any bracket, and enclosed ones, which end in a
quotation mark or a `>`. The enclosed pieces of a subset are its `enclosures`, and the mark `]>`
stands in a subset just when it stands in one of them (`Subset.endMark_infix_iff`).
-/

namespace Partwise.Markup

/-! ## The mark that is taken for the end -/

/-- The mark that is taken for the end of an internal subset. -/
def endMark : List Char := [']', '>']

/-- Behind characters that do not end in `]` the mark begins anew. -/
theorem endMark_infix_append {cs : List Char} (h : cs.getLast? ≠ some ']') (ds : List Char) :
    endMark <:+: cs ++ ds ↔ endMark <:+: cs ∨ endMark <:+: ds := by
  constructor
  · intro inside
    obtain first | second | ⟨left, right, parted, ends, begins⟩ := List.infix_append_iff.mp inside
    · exact .inl first
    · exact .inr second
    · match left, parted with
      | [], parted =>
        rw [List.nil_append] at parted
        rw [parted]
        exact .inr begins.isInfix
      | [c], parted =>
        have bracket : c = ']' := by
          simp only [endMark, List.cons_append, List.cons.injEq] at parted
          exact parted.1.symm
        obtain ⟨front, rfl⟩ := ends
        simp [bracket] at h
      | c :: c' :: more, parted =>
        have nothing : right = [] := by
          simp only [endMark, List.cons_append, List.cons.injEq] at parted
          exact (List.append_eq_nil_iff.mp parted.2.2.symm).2
        rw [nothing, List.append_nil] at parted
        rw [parted]
        exact .inl ends.isInfix
  · rintro (first | second)
    · exact first.trans (List.prefix_append cs ds).isInfix
    · exact second.trans (List.suffix_append cs ds).isInfix

/-- Characters without a closing bracket do not hold the mark. -/
theorem endMark_absent {cs : List Char} (h : ']' ∉ cs) : ¬ endMark <:+: cs :=
  fun inside => h (inside.subset (by simp [endMark]))

/-- Characters without a closing bracket do not end in one. -/
theorem getLast?_ne_bracket {cs : List Char} (h : ']' ∉ cs) : cs.getLast? ≠ some ']' :=
  fun last => h (List.mem_of_getLast? last)

namespace Grammar

/-! ## Characters without a bracket -/

/-- The character is no bracket of a subset. -/
def isBare (c : Char) : Bool := c != '[' && c != ']'

/-- Characters without any bracket. -/
abbrev Bare (cs : List Char) : Prop := cs.all isBare = true

/-- Characters without a bracket stay so next to others. -/
theorem Bare.append {cs ds : List Char} (hc : Bare cs) (hd : Bare ds) : Bare (cs ++ ds) := by
  simp only [Bare, List.all_append, Bool.and_eq_true]
  exact ⟨hc, hd⟩

/-- A character that is no bracket may come before others without a bracket. -/
theorem Bare.cons {c : Char} {cs : List Char} (hc : isBare c = true) (hcs : Bare cs) :
    Bare (c :: cs) := by
  simp only [Bare, List.all_cons, Bool.and_eq_true]
  exact ⟨hc, hcs⟩

/-- No closing bracket is among characters without a bracket. -/
theorem Bare.bracket_not_mem {cs : List Char} (h : Bare cs) : ']' ∉ cs := by
  intro inside
  have := List.all_eq_true.mp h _ inside
  simp [isBare] at this

/-- A class of characters that has no bracket makes the characters in it bare. -/
theorem Bare.of_all {p : Char → Bool} {cs : List Char} (h : cs.all p = true)
    (opening : p '[' = false) (closing : p ']' = false) : Bare cs := by
  rw [Bare, List.all_eq_true]
  intro c hc
  have held := List.all_eq_true.mp h c hc
  have noOpening : c ≠ '[' := fun e => by simp [e, opening] at held
  have noClosing : c ≠ ']' := fun e => by simp [e, closing] at held
  simp [isBare, noOpening, noClosing]

/-! ## Blanks, names and quotations -/

/-- Blanks, possibly none. -/
structure Spaces where
  chars : List Char
  blank : chars.all isSpace = true

/-- One blank or more. -/
structure Gap where
  chars : List Char
  some : chars ≠ []
  blank : chars.all isSpace = true

/-- A name. -/
structure Name where
  chars : List Char
  opens : opensName chars = true
  named : chars.all isNameChar = true

/-- One name character or more. -/
structure NameToken where
  chars : List Char
  some : chars ≠ []
  named : chars.all isNameChar = true

/-- The two marks of a quotation. -/
inductive Quote where
  | double
  | single
deriving DecidableEq

/-- The character that opens and closes a quotation. -/
def Quote.char : Quote → Char
  | .double => '"'
  | .single => '\''

/-- The characters of a public identifier. -/
def isPublic (c : Char) : Bool :=
  c == ' ' || c == '\r' || c == '\n' || c.isAlphanum || c == '\'' ||
    "-()+,./:=?;!*#@$_%".toList.contains c

/-- A quotation of characters of one class. -/
structure Quotation (admits : Char → Bool) where
  quote : Quote
  text : List Char
  fit : text.all (fun c => admits c && c != quote.char) = true

/-- The quotation with its marks. -/
def Quotation.chars {admits : Char → Bool} (q : Quotation admits) : List Char :=
  q.quote.char :: q.text ++ [q.quote.char]

/-- A public identifier, quoted. -/
abbrev PublicLiteral := Quotation isPublic

/-- A system identifier, quoted. -/
abbrev SystemLiteral := Quotation isAllowed

/-- What a reference refers to. -/
inductive Reference where
  /-- A general entity. -/
  | entity (name : Name)
  /-- A character by its number in base ten. -/
  | decimal (digits : List Char) (some : digits ≠ []) (fit : digits.all Char.isDigit = true)
  /-- A character by its number in base sixteen. -/
  | hexadecimal (digits : List Char) (some : digits ≠ [])
      (fit : digits.all (fun c => (Text.hexDigit? c).isSome) = true)

/-- The reference as it is written. -/
def Reference.chars : Reference → List Char
  | .entity name => '&' :: name.chars ++ [';']
  | .decimal digits _ _ => "&#".toList ++ digits ++ [';']
  | .hexadecimal digits _ _ => "&#x".toList ++ digits ++ [';']

/-- What a quoted value consists of. -/
inductive ValueItem where
  | char (c : Char)
  | reference (r : Reference)
  /-- A reference to a parameter entity. -/
  | parameter (name : Name)

/-- The item as it is written. -/
def ValueItem.chars : ValueItem → List Char
  | .char c => [c]
  | .reference r => r.chars
  | .parameter name => '%' :: name.chars ++ [';']

/-- The item may stand in the value of an entity. -/
def ValueItem.fitsEntity (quote : Quote) : ValueItem → Bool
  | .char c => isAllowed c && c != '%' && c != '&' && c != quote.char
  | .reference _ => true
  | .parameter _ => true

/-- The item may stand in the value of an attribute. -/
def ValueItem.fitsAttribute (quote : Quote) : ValueItem → Bool
  | .char c => isAllowed c && c != '<' && c != '&' && c != quote.char
  | .reference _ => true
  | .parameter _ => false

/-- A quoted value. -/
structure Value (fits : Quote → ValueItem → Bool) where
  quote : Quote
  items : List ValueItem
  fit : items.all (fits quote) = true

/-- The value with its marks. -/
def Value.chars {fits : Quote → ValueItem → Bool} (v : Value fits) : List Char :=
  v.quote.char :: v.items.flatMap ValueItem.chars ++ [v.quote.char]

/-- The value of an entity, quoted. -/
abbrev EntityValue := Value ValueItem.fitsEntity

/-- The value of an attribute, quoted. -/
abbrev AttributeValue := Value ValueItem.fitsAttribute

/-- Spaces have no bracket. -/
theorem Spaces.bare (s : Spaces) : Bare s.chars :=
  .of_all s.blank (by decide) (by decide)

/-- Gaps have no bracket. -/
theorem Gap.bare (g : Gap) : Bare g.chars :=
  .of_all g.blank (by decide) (by decide)

/-- Names have no bracket. -/
theorem Name.bare (n : Name) : Bare n.chars :=
  .of_all n.named (by decide) (by decide)

/-- Name tokens have no bracket. -/
theorem NameToken.bare (n : NameToken) : Bare n.chars :=
  .of_all n.named (by decide) (by decide)

/-- Quotes are no brackets. -/
theorem isBare_quote (q : Quote) : isBare q.char = true := by
  cases q <;> decide

/-- Public literals have no bracket, since none may stand in them. -/
theorem PublicLiteral.bare (q : PublicLiteral) : Bare q.chars := by
  have text : Bare q.text := by
    refine .of_all (p := fun c => isPublic c && c != q.quote.char) q.fit ?_ ?_
    · simp [show isPublic '[' = false by decide]
    · simp [show isPublic ']' = false by decide]
  exact (Bare.cons (isBare_quote q.quote) text).append (Bare.cons (isBare_quote q.quote) rfl)

/-- Characters behind which a mark closes do not end in a bracket. -/
theorem getLast?_closed {close : List Char} {c : Char} (h : close.getLast? = some c)
    (hc : c ≠ ']') (cs : List Char) : (cs ++ close).getLast? ≠ some ']' := by
  rw [List.getLast?_append, h]
  simpa using hc

/-- A quotation ends in its mark, which is no bracket. -/
theorem getLast?_quotation (quote : Quote) (text : List Char) :
    (quote.char :: text ++ [quote.char]).getLast? ≠ some ']' :=
  getLast?_closed rfl (by cases quote <;> decide) _

/-! ## Pieces -/

/-- A stretch of an internal subset. -/
inductive Piece where
  /-- Characters outside all literals, comments and instructions. -/
  | bare (cs : List Char) (h : Bare cs)
  /-- A literal, a comment or an instruction with the marks around it. -/
  | enclosed (cs : List Char) (h : cs.getLast? ≠ some ']')

namespace Piece

/-- The characters of a piece. -/
def chars : Piece → List Char
  | bare cs _ => cs
  | enclosed cs _ => cs

/-- What the piece encloses, with its marks. -/
def enclosure? : Piece → Option (List Char)
  | bare _ _ => none
  | enclosed cs _ => some cs

/-- A word of the grammar. -/
def word (w : String) (h : Bare w.toList) : Piece := bare w.toList h

/-- No piece ends in a bracket. -/
theorem getLast?_chars (p : Piece) : p.chars.getLast? ≠ some ']' := by
  cases p with
  | bare cs h => exact getLast?_ne_bracket h.bracket_not_mem
  | enclosed cs h => exact h

/-- Of one piece, only what it encloses can hold the mark. -/
theorem endMark_infix_chars (p : Piece) :
    endMark <:+: p.chars ↔ ∃ e, p.enclosure? = some e ∧ endMark <:+: e := by
  cases p with
  | bare cs h => simpa [chars, enclosure?] using endMark_absent h.bracket_not_mem
  | enclosed cs h => simp [chars, enclosure?]

/-- Pieces hold the mark just when what one of them encloses holds it. -/
theorem endMark_infix_flatMap (pieces : List Piece) :
    endMark <:+: pieces.flatMap chars ↔ ∃ e ∈ pieces.filterMap enclosure?, endMark <:+: e := by
  induction pieces with
  | nil => simp [endMark]
  | cons p pieces ih =>
    rw [List.flatMap_cons, endMark_infix_append p.getLast?_chars, ih, endMark_infix_chars]
    cases h : p.enclosure? with
    | none => simp [h]
    | some e => simp [h]

end Piece

/-- The blanks as a piece. -/
def Spaces.piece (s : Spaces) : Piece := .bare s.chars s.bare

/-- The blanks as a piece. -/
def Gap.piece (g : Gap) : Piece := .bare g.chars g.bare

/-- The name as a piece. -/
def Name.piece (n : Name) : Piece := .bare n.chars n.bare

/-- The name characters as a piece. -/
def NameToken.piece (n : NameToken) : Piece := .bare n.chars n.bare

/-- The quotation as a piece. -/
def Quotation.piece {admits : Char → Bool} (q : Quotation admits) : Piece :=
  .enclosed q.chars (getLast?_quotation _ _)

/-- The value as a piece. -/
def Value.piece {fits : Quote → ValueItem → Bool} (v : Value fits) : Piece :=
  .enclosed v.chars (getLast?_quotation _ _)

/-! ## External identifiers -/

/-- Where a resource is found: a system identifier, and possibly a public one before it. -/
structure ExternalId where
  public? : Option (Gap × PublicLiteral)
  gap : Gap
  system : SystemLiteral

namespace ExternalId

/-- What stands before the system identifier. -/
def lead (e : ExternalId) : List Char :=
  match e.public? with
  | none => "SYSTEM".toList ++ e.gap.chars
  | some (gap, id) => "PUBLIC".toList ++ gap.chars ++ id.chars ++ e.gap.chars

/-- The identifier as it is written. -/
def chars (e : ExternalId) : List Char :=
  e.lead ++ e.system.chars

/-- An external identifier has no bracket before its system literal. -/
theorem bare_lead (e : ExternalId) : Bare e.lead := by
  unfold lead
  split
  · exact Bare.append (by decide) e.gap.bare
  · next gap id _ =>
    exact ((Bare.append (by decide) gap.bare).append id.bare).append e.gap.bare

/-- The identifier in pieces. -/
def pieces (e : ExternalId) : List Piece :=
  [.bare e.lead e.bare_lead, e.system.piece]

end ExternalId

/-! ## Declarations of elements -/

/-- Something with blanks around it. -/
structure Spaced (α : Type) where
  before : Spaces
  item : α
  after : Spaces

/-- The pieces of something with blanks around it. -/
def Spaced.pieces {α : Type} (render : α → List Piece) (s : Spaced α) : List Piece :=
  s.before.piece :: render s.item ++ [s.after.piece]

/-- What is listed in parentheses, parted by bars. -/
def listed {α : Type} (render : α → List Piece) (first : Spaced α) (more : List (Spaced α)) :
    List Piece :=
  .word "(" (by decide) :: first.pieces render ++
    more.flatMap (fun s => .word "|" (by decide) :: s.pieces render) ++ [.word ")" (by decide)]

/-- How often a particle may occur. -/
inductive Occurrence where
  | once
  | optional
  | any
  | repeated

/-- The mark for how often. -/
def Occurrence.piece : Occurrence → Piece
  | .once => .word "" (by decide)
  | .optional => .word "?" (by decide)
  | .any => .word "*" (by decide)
  | .repeated => .word "+" (by decide)

/-- A particle of the content of an element. A choice is one between two particles at least. -/
inductive Particle where
  | name (name : Name) (occurrence : Occurrence)
  | choice (first second : Spaced Particle) (more : List (Spaced Particle))
      (occurrence : Occurrence)
  | sequence (first : Spaced Particle) (more : List (Spaced Particle)) (occurrence : Occurrence)

/-- The particle is a choice or a sequence. -/
def Particle.isGroup : Particle → Bool
  | .name _ _ => false
  | .choice _ _ _ _ => true
  | .sequence _ _ _ => true

mutual

/-- The particle in pieces. -/
def Particle.pieces : Particle → List Piece
  | .name n occurrence => [n.piece, occurrence.piece]
  | .choice first second more occurrence =>
    .word "(" (by decide) :: Particle.spacedPieces first ++
      (.word "|" (by decide) :: Particle.spacedPieces second) ++
      Particle.morePieces (.word "|" (by decide)) more ++
      [.word ")" (by decide), occurrence.piece]
  | .sequence first more occurrence =>
    .word "(" (by decide) :: Particle.spacedPieces first ++
      Particle.morePieces (.word "," (by decide)) more ++
      [.word ")" (by decide), occurrence.piece]

/-- A particle with the blanks around it in pieces. -/
def Particle.spacedPieces : Spaced Particle → List Piece
  | ⟨before, item, after⟩ => before.piece :: item.pieces ++ [after.piece]

/-- Further particles in pieces, each behind the mark that parts them. -/
def Particle.morePieces (mark : Piece) : List (Spaced Particle) → List Piece
  | [] => []
  | s :: more => mark :: Particle.spacedPieces s ++ Particle.morePieces mark more

end

/-- What the content of an element may be. -/
inductive ContentModel where
  | empty
  | any
  /-- Text alone. -/
  | text (around : Spaced Unit)
  /-- Text among elements with the names. -/
  | mixed (first : Spaced Unit) (names : List (Spaced Name))
  | children (particle : Particle) (group : particle.isGroup = true)

/-- The content in pieces. -/
def ContentModel.pieces : ContentModel → List Piece
  | .empty => [.word "EMPTY" (by decide)]
  | .any => [.word "ANY" (by decide)]
  | .text around =>
    .word "(" (by decide) :: around.pieces (fun _ => [.word "#PCDATA" (by decide)]) ++
      [.word ")" (by decide)]
  | .mixed first names =>
    .word "(" (by decide) :: first.pieces (fun _ => [.word "#PCDATA" (by decide)]) ++
      names.flatMap (fun s => .word "|" (by decide) :: s.pieces fun n => [n.piece]) ++
      [.word ")*" (by decide)]
  | .children particle _ => particle.pieces

/-! ## Declarations of attributes -/

/-- The types of attributes that are one word. -/
inductive TypeWord where
  | cdata
  | id
  | idref
  | idrefs
  | entity
  | entities
  | nmtoken
  | nmtokens

/-- The word. -/
def TypeWord.piece : TypeWord → Piece
  | .cdata => .word "CDATA" (by decide)
  | .id => .word "ID" (by decide)
  | .idref => .word "IDREF" (by decide)
  | .idrefs => .word "IDREFS" (by decide)
  | .entity => .word "ENTITY" (by decide)
  | .entities => .word "ENTITIES" (by decide)
  | .nmtoken => .word "NMTOKEN" (by decide)
  | .nmtokens => .word "NMTOKENS" (by decide)

/-- The type of an attribute. -/
inductive AttributeType where
  | word (w : TypeWord)
  /-- One of the formats with the names. -/
  | formats (gap : Gap) (first : Spaced Name) (more : List (Spaced Name))
  /-- One of the tokens. -/
  | tokens (first : Spaced NameToken) (more : List (Spaced NameToken))

/-- The type in pieces. -/
def AttributeType.pieces : AttributeType → List Piece
  | .word w => [w.piece]
  | .formats gap first more =>
    .word "NOTATION" (by decide) :: gap.piece :: listed (fun n => [n.piece]) first more
  | .tokens first more => listed (fun n => [n.piece]) first more

/-- What holds for an attribute that is not written. -/
inductive AttributeDefault where
  | required
  | implied
  | fixed (gap : Gap) (value : AttributeValue)
  | value (value : AttributeValue)

/-- The default in pieces. -/
def AttributeDefault.pieces : AttributeDefault → List Piece
  | .required => [.word "#REQUIRED" (by decide)]
  | .implied => [.word "#IMPLIED" (by decide)]
  | .fixed gap v => [.word "#FIXED" (by decide), gap.piece, v.piece]
  | .value v => [v.piece]

/-- The definition of one attribute. -/
structure AttributeDefinition where
  beforeName : Gap
  name : Name
  beforeType : Gap
  type : AttributeType
  beforeDefault : Gap
  default : AttributeDefault

/-- The definition in pieces. -/
def AttributeDefinition.pieces (a : AttributeDefinition) : List Piece :=
  [a.beforeName.piece, a.name.piece, a.beforeType.piece] ++ a.type.pieces ++
    [a.beforeDefault.piece] ++ a.default.pieces

/-! ## Declarations of entities and formats -/

/-- What a general entity stands for: a value, or a resource that may be in a named format. -/
inductive EntityDefinition where
  | value (value : EntityValue)
  | external (id : ExternalId) (data? : Option (Gap × Gap × Name))

/-- The definition in pieces. -/
def EntityDefinition.pieces : EntityDefinition → List Piece
  | .value v => [v.piece]
  | .external id none => id.pieces
  | .external id (some (before, gap, name)) =>
    id.pieces ++ [before.piece, .word "NDATA" (by decide), gap.piece, name.piece]

/-- What a parameter entity stands for. -/
inductive ParameterDefinition where
  | value (value : EntityValue)
  | external (id : ExternalId)

/-- The definition in pieces. -/
def ParameterDefinition.pieces : ParameterDefinition → List Piece
  | .value v => [v.piece]
  | .external id => id.pieces

/-- How a format is identified. -/
inductive FormatId where
  | external (id : ExternalId)
  | known (gap : Gap) (id : PublicLiteral)

/-- The identifier in pieces. -/
def FormatId.pieces : FormatId → List Piece
  | .external id => id.pieces
  | .known gap id => [.word "PUBLIC" (by decide), gap.piece, id.piece]

/-! ## Comments and instructions -/

/-- A comment: no two hyphens stand in a row, and none stands at its end. -/
structure Comment where
  text : List Char
  allowed : text.all isAllowed = true
  noHyphens : ¬ ['-', '-'] <:+: text
  noLastHyphen : text.getLast? ≠ some '-'

/-- The comment as a piece. -/
def Comment.piece (c : Comment) : Piece :=
  .enclosed ("<!--".toList ++ c.text ++ "-->".toList)
    (getLast?_closed (c := '>') (by decide) (by decide) _)

/-- What an instruction says behind its name. -/
structure Saying where
  gap : Gap
  text : List Char
  allowed : text.all isAllowed = true
  unended : ¬ ['?', '>'] <:+: text

/-- An instruction: a name other than the one of the declaration of a document, and possibly
something behind it. -/
structure Instruction where
  target : Name
  unreserved : target.chars.map Char.toLower ≠ "xml".toList
  says? : Option Saying

/-- The instruction between its marks. -/
def Instruction.text (i : Instruction) : List Char :=
  match i.says? with
  | none => i.target.chars
  | some s => i.target.chars ++ s.gap.chars ++ s.text

/-- The instruction as a piece. -/
def Instruction.piece (i : Instruction) : Piece :=
  .enclosed ("<?".toList ++ i.text ++ "?>".toList)
    (getLast?_closed (c := '>') (by decide) (by decide) _)

/-! ## Document type declarations -/

/-- What an internal subset consists of. -/
inductive Declaration where
  | blank (gap : Gap)
  /-- A reference to a parameter entity. -/
  | parameter (name : Name)
  | element (beforeName : Gap) (name : Name) (beforeContent : Gap) (content : ContentModel)
      (after : Spaces)
  | attributes (beforeName : Gap) (name : Name) (definitions : List AttributeDefinition)
      (after : Spaces)
  | entity (beforeName : Gap) (name : Name) (beforeDefinition : Gap)
      (definition : EntityDefinition) (after : Spaces)
  | parameterEntity (beforeMark beforeName : Gap) (name : Name) (beforeDefinition : Gap)
      (definition : ParameterDefinition) (after : Spaces)
  | format (beforeName : Gap) (name : Name) (beforeId : Gap) (id : FormatId) (after : Spaces)
  | instruction (i : Instruction)
  | comment (c : Comment)

/-- The declaration in pieces. -/
def Declaration.pieces : Declaration → List Piece
  | .blank gap => [gap.piece]
  | .parameter name => [.word "%" (by decide), name.piece, .word ";" (by decide)]
  | .element beforeName name beforeContent content after =>
    [.word "<!ELEMENT" (by decide), beforeName.piece, name.piece, beforeContent.piece] ++
      content.pieces ++ [after.piece, .word ">" (by decide)]
  | .attributes beforeName name definitions after =>
    [.word "<!ATTLIST" (by decide), beforeName.piece, name.piece] ++
      definitions.flatMap AttributeDefinition.pieces ++ [after.piece, .word ">" (by decide)]
  | .entity beforeName name beforeDefinition definition after =>
    [.word "<!ENTITY" (by decide), beforeName.piece, name.piece, beforeDefinition.piece] ++
      definition.pieces ++ [after.piece, .word ">" (by decide)]
  | .parameterEntity beforeMark beforeName name beforeDefinition definition after =>
    [.word "<!ENTITY" (by decide), beforeMark.piece, .word "%" (by decide), beforeName.piece,
      name.piece, beforeDefinition.piece] ++
      definition.pieces ++ [after.piece, .word ">" (by decide)]
  | .format beforeName name beforeId id after =>
    [.word "<!NOTATION" (by decide), beforeName.piece, name.piece, beforeId.piece] ++
      id.pieces ++ [after.piece, .word ">" (by decide)]
  | .instruction i => [i.piece]
  | .comment c => [c.piece]

/-- An internal subset, with the blanks behind the bracket that closes it. -/
structure Subset where
  declarations : List Declaration
  after : Spaces

namespace Subset

/-- The subset in pieces. -/
def pieces (s : Subset) : List Piece :=
  s.declarations.flatMap Declaration.pieces

/-- What stands between the brackets. -/
def text (s : Subset) : List Char :=
  s.pieces.flatMap Piece.chars

/-- The literals, comments and instructions between the brackets. -/
def enclosures (s : Subset) : List (List Char) :=
  s.pieces.filterMap Piece.enclosure?

/-- A subset holds the mark just when one of its literals, comments and instructions does. -/
theorem endMark_infix_iff (s : Subset) :
    endMark <:+: s.text ↔ ∃ e ∈ s.enclosures, endMark <:+: e :=
  Piece.endMark_infix_flatMap s.pieces

end Subset

end Grammar

open Grammar in
/-- A document type declaration. -/
structure DocumentType where
  beforeName : Gap
  name : Name
  external? : Option (Gap × ExternalId)
  afterHead : Spaces
  subset? : Option Subset

namespace DocumentType

/-- What stands before the subset, or before the last character if there is none. -/
def head (d : DocumentType) : List Char :=
  doctypeOpening ++ d.beforeName.chars ++ d.name.chars ++
    (match d.external? with
      | none => []
      | some (gap, id) => gap.chars ++ id.chars) ++
    d.afterHead.chars

/-- The subset in its brackets, with the blanks behind it. -/
def body (d : DocumentType) : List Char :=
  match d.subset? with
  | none => []
  | some s => '[' :: s.text ++ ']' :: s.after.chars

/-- The declaration as it is written. -/
def chars (d : DocumentType) : List Char :=
  d.head ++ d.body ++ ['>']

/-- The system identifier. -/
def system (d : DocumentType) : List Char :=
  match d.external? with
  | none => []
  | some (_, id) => id.system.text

end DocumentType

end Partwise.Markup
