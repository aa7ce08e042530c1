import Partwise.Markup.Query
import Partwise.Markup.Doctype
import Partwise.Markup.Token

/-!
# Markup · Document: from characters to the tree of elements

`Element.ofText` reads a document: a byte order mark is skipped, the document type declaration is
blanked, the text is cut into tokens, and the tokens build the tree one by one on a stack of open
elements. An element's text is the run of characters it opens with; a comment, an instruction or a
child ends that run for good. A prefix must be bound by a namespace declaration around it, after
which only local names are left, and of two attributes with one local name the later counts.
-/

namespace Partwise.Markup

/-! ## Namespaces -/

/-- The namespace of the prefix that is bound everywhere. -/
def markupNamespace : String := "http:" ++ "//www.w3.org/XML/1998/namespace"

/-- The namespace of namespace declarations themselves, which nothing may be bound to. -/
def declarationNamespace : String := "http:" ++ "//www.w3.org/2000/xmlns/"

/-- The namespaces bound to prefixes; the empty prefix is the one of names without prefix. -/
abbrev Scope := List (String × String)

/-- The bindings that an element's declarations make, each prefix at most once. The prefix bound
everywhere can only be bound to its own namespace, which adds nothing, and no other prefix to that
one. -/
def declare? (bindings : Scope) (attr : QName × String) : Option Scope :=
  let (name, value) := attr
  if name.space == "xmlns" then
    if value == declarationNamespace then none
    else if (name.base == "xml") != (value == markupNamespace) then none
    else if name.base == "xml" then some bindings
    else if bindings.any (·.1 == name.base) then none
    else some ((name.base, value) :: bindings)
  else if name.base == "xmlns" then
    if value == markupNamespace || value == declarationNamespace then none
    else some (("", value) :: bindings)
  else some bindings

/-- The attribute declares a namespace. -/
def isDeclaration (attr : QName × String) : Bool :=
  attr.1.space == "xmlns" || attr.1.base == "xmlns"

/-- The namespace of an attribute's prefix. Without a prefix there is none. -/
def namespace? (scope : Scope) (prefixName : String) : Option (Option String) :=
  if prefixName == "xml" then some (some markupNamespace)
  else if prefixName == "" then some none
  else (scope.lookup prefixName).map some

/-- An element may have the prefix: it has none, or a declaration around it binds the one it has.
The prefix bound everywhere is one for attributes only. -/
def admits (scope : Scope) (prefixName : String) : Bool :=
  prefixName == "" || scope.any (·.1 == prefixName)

/-- The attributes by local name, the later of two with one local name. Two attributes with the same
namespace and local name are refused. -/
def attributesIn? (scope : Scope) (attributes : List (QName × String)) :
    Option (List (String × String)) := do
  let spaces ← attributes.mapM fun (name, _) => namespace? scope name.space
  let expanded := spaces.zip (attributes.map (·.1.base))
  if expanded.eraseDups.length < expanded.length then none
  else
    let named := attributes.map fun (name, value) => (name.base, value)
    some (named.foldl (fun kept (name, value) => kept.filter (·.1 != name) ++ [(name, value)]) [])

/-! ## Open elements -/

/-- An element whose end has not been read. -/
structure Frame where
  name : QName
  attributes : List (String × String)
  scope : Scope
  line : Nat
  /-- What has been read of the text it opens with. -/
  text : List Char := []
  /-- That text may still go on. -/
  leading : Bool := true
  /-- The children that are complete, last one first. -/
  children : List Element := []

namespace Frame

/-- The element, now that it is complete. -/
def element (frame : Frame) : Element where
  name := frame.name.base
  attributes := frame.attributes
  text? :=
    let text := Text.trimChars frame.text
    if text.isEmpty then none else some (String.ofList text)
  children := frame.children.reverse
  line := frame.line

/-- More characters, which belong to the opening text as long as it goes on. -/
def addText (frame : Frame) (cs : List Char) : Frame :=
  if frame.leading then { frame with text := frame.text ++ cs } else frame

/-- A child that is complete. -/
def addChild (frame : Frame) (child : Element) : Frame :=
  { frame with leading := false, children := child :: frame.children }

/-- Something that is neither text nor a child. -/
def interrupt (frame : Frame) : Frame :=
  { frame with leading := false }

end Frame

/-- The state of building the tree: the open elements, innermost first, and the root once it is
complete. -/
structure Builder where
  frames : List Frame := []
  root? : Option Element := none

namespace Builder

/-- A complete element goes to the element around it, or becomes the root. -/
def complete (b : Builder) (outer : List Frame) (e : Element) : Builder :=
  match outer with
  | [] => { b with frames := [], root? := some e }
  | frame :: frames => { b with frames := frame.addChild e :: frames }

/-- The innermost open element is changed. -/
def onInnermost (b : Builder) (f : Frame → Frame) : Builder :=
  match b.frames with
  | [] => b
  | frame :: frames => { b with frames := f frame :: frames }

/-- The namespaces bound where the next element opens. -/
def scope (b : Builder) : Scope :=
  match b.frames with
  | [] => []
  | frame :: _ => frame.scope

/-- An opening tag. There is one root only. -/
def openElement? (b : Builder) (line : Nat) (name : QName) (raw : List (QName × List Char))
    (closed : Bool) : Option Builder := do
  if b.frames.isEmpty && b.root?.isSome then none
  let attributes ← raw.mapM fun (name, cs) =>
    (resolve? (flattenSpace cs)).map fun value => (name, String.ofList value)
  let declared ← attributes.foldlM declare? []
  let scope := declared ++ b.scope
  if name.space == "xmlns" || !admits scope name.space then none
  let kept ← attributesIn? scope (attributes.filter fun a => !isDeclaration a)
  let frame : Frame := { name, attributes := kept, scope, line }
  if closed then some (b.complete b.frames frame.element)
  else some { b with frames := frame :: b.frames }

/-- A closing tag, which names the innermost open element. -/
def closeElement? (b : Builder) (name : QName) : Option Builder :=
  match b.frames with
  | [] => none
  | frame :: outer => if frame.name = name then some (b.complete outer frame.element) else none

/-- A text that stands as it is may not hold the end mark of a section. -/
def holdsSectionEnd (cs : List Char) : Bool :=
  (splitAtFirst [']', ']', '>'] cs).isSome

/-- A run of text: outside the root it is blank. -/
def text? (b : Builder) (cs : List Char) : Option Builder :=
  if b.frames.isEmpty then (if cs.all isSpace then some b else none)
  else if holdsSectionEnd cs then none
  else (resolveText? cs).map fun text => b.onInnermost (·.addText text)

/-- A comment holds no two hyphens in a row and ends with none. -/
def comment? (b : Builder) (cs : List Char) : Option Builder :=
  if (splitAtFirst ['-', '-'] cs).isSome || cs.getLast? == some '-' then none
  else some (b.onInnermost Frame.interrupt)

/-- An instruction opens with a name, and is not the declaration of a document. -/
def instruction? (b : Builder) (cs : List Char) : Option Builder :=
  if "xml ".toList.isPrefixOf cs || !opensName cs then none
  else some (b.onInnermost Frame.interrupt)

/-- Takes one token. -/
def step? (b : Builder) : Token → Option Builder
  | .text cs => b.text? cs
  | .verbatim cs =>
    if b.frames.isEmpty then none else some (b.onInnermost (·.addText (unifyLineEnds cs)))
  | .comment cs => b.comment? cs
  | .instruction cs => b.instruction? cs
  | .tag line body =>
    match Tag.ofChars? body with
    | none => none
    | some (.opening name attributes closed) => b.openElement? line name attributes closed
    | some (.closing name) => b.closeElement? name

end Builder

/-! ## The declaration of a document -/

/-- What a declaration of a document says after its name: a version, then possibly an encoding and
possibly whether the document stands alone. The values are not looked at. -/
def isDocumentDeclaration (cs : List Char) : Bool :=
  match quotations? cs with
  | none => false
  | some (pairs, rest) =>
    let named (what : String) (pair : List Char × List Char) : Bool :=
      what.toList.isPrefixOf (pair.1.dropWhile isSpace)
    rest.all isSpace && pairs.all (fun pair => (attribute? pair).isSome) &&
      match pairs with
      | [version] => named "version" version
      | [version, other] =>
        named "version" version && (named "encoding" other || named "standalone" other)
      | [version, encoding, standalone] =>
        named "version" version && named "encoding" encoding && named "standalone" standalone
      | _ => false

/-- A declaration up to the `?>` that ends it, and the text behind that. Inside a quotation, the
mark of which is given, nothing ends it. -/
def cutDeclaration? : (mark : Option Char) → List Char → Option (List Char × List Char)
  | _, [] => none
  | none, '?' :: '>' :: cs => some ([], cs)
  | mark, c :: cs =>
    (cutDeclaration? (Cutter.markAfter mark c) cs).map fun (said, rest) => (c :: said, rest)

/-- A document taken apart: what the declaration says that may come first, and all else. -/
def splitDeclaration? (cs : List Char) : Option (List Char × List Char) :=
  if "<?xml ".toList.isPrefixOf cs then
    (cutDeclaration? none (cs.drop 5)).filter fun (said, _) => isDocumentDeclaration said
  else some ([], cs)

/-! ## Documents -/

/-- The text without the byte order mark it may open with. -/
def withoutMark : List Char → List Char
  | '\uFEFF' :: cs => cs
  | cs => cs

/-- The tree that the characters of a document write. -/
def Element.ofChars? (cs : List Char) : Option Element := do
  let text := withoutMark (blankDoctype cs)
  if !text.all isAllowed then none
  let (said, content) ← splitDeclaration? text
  let tokens ← Token.ofChars? (1 + said.count '\n') content
  let b ← tokens.foldlM Builder.step? {}
  if b.frames.isEmpty then b.root? else none

/-- The tree of a document, or the fault that it is not well-formed. -/
def Element.ofText (text : String) : Except Fault Element :=
  match Element.ofChars? text.toList with
  | some e => .ok e
  | none => .error .notWellFormed

end Partwise.Markup
