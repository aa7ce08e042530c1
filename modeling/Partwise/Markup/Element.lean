/-!
# Markup · Element: the tree a document is read into

An element has a name, attributes, the text it opens with, its child elements in document order and
the line it starts on. Names are local names: a document's prefixes are gone. `Element.child?` and
its companions look one level down; `Element.size` counts the whole subtree.
-/

namespace Partwise.Markup

/-- An element of a document with everything inside it. -/
structure Element where
  name : String := ""
  /-- Attribute values by name, each name once. -/
  attributes : List (String × String) := []
  /-- The text before the first child of any other kind; `none` when there is none. -/
  text? : Option String := none
  children : List Element := []
  /-- The line the element starts on, the first one being line 1. -/
  line : Nat := 0
deriving Inhabited

namespace Element

/-! ## One level down -/

/-- The value of an attribute. -/
def attr? (e : Element) (name : String) : Option String :=
  e.attributes.lookup name

/-- The children with a name, in document order. -/
def childrenNamed (e : Element) (name : String) : List Element :=
  e.children.filter (·.name == name)

/-- The first child with a name. -/
def child? (e : Element) (name : String) : Option Element :=
  e.children.find? (·.name == name)

/-- Some child has the name. -/
def has (e : Element) (name : String) : Bool :=
  (e.child? name).isSome

/-- The text of the first child with a name. -/
def childText? (e : Element) (name : String) : Option String :=
  (e.child? name).bind (·.text?)

/-- The first child with a name is the first of all children with that name. -/
theorem child?_eq_head? (e : Element) (name : String) :
    e.child? name = (e.childrenNamed name).head? := by
  simp [child?, childrenNamed]

/-! ## The whole subtree -/

mutual

/-- The number of elements in a subtree, its root included. -/
def size : Element → Nat
  | { children, .. } => 1 + sizeAll children

/-- The number of elements in a list of subtrees. -/
def sizeAll : List Element → Nat
  | [] => 0
  | e :: es => e.size + sizeAll es

end

/-- A subtree holds its root and the subtrees below it. -/
theorem size_eq (e : Element) :
    e.size = 1 + e.children.foldr (fun child total => child.size + total) 0 := by
  have sizeAll_eq (es : List Element) :
      sizeAll es = es.foldr (fun child total => child.size + total) 0 := by
    induction es with
    | nil => rfl
    | cons e es ih => rw [sizeAll, ih, List.foldr_cons]
  cases e
  rw [size, sizeAll_eq]

end Element

end Partwise.Markup
