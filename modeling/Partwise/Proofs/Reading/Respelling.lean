import Partwise.Proofs.Reading.Abreast

/-!
# Reading · Respelling: a document with one word replaced

Many words of a document are taken from closed lists. `wordSites` says where they stand: in which
element that is read at once, on which way down from it, and there as a text, as an attribute or as
the name of a child. `WordSite.Respells` holds of two such elements of which the second one has
another word at the site, and `Element.Replaces` of two documents that differ in such an element
only.

Two documents of this kind are walked through by the same moves, all but one (`movesOf_replaces`).
-/

namespace Partwise

open Markup

/-! ## Where words stand -/

/-- Where an element has a word. -/
inductive Spot where
  | text
  | attr (name : String)
  /-- The name of a child. -/
  | child

/-- A place for the words of a list. -/
structure WordSite where
  /-- The name of the element that is read at once. -/
  leaf : String
  /-- The names of the elements from there down to the one that has the word. -/
  path : List String
  spot : Spot
  /-- The word is in the list. -/
  knows : String → Bool

/-- The word stands for a value. -/
def isWordFor (α : Type) [Vocabulary α] (word : String) : Bool :=
  (Vocabulary.ofWord? word : Option α).isSome

/-- The words of a mark that starts or stops something. -/
def isStartOrStop (word : String) : Bool :=
  word == "start" || word == "stop"

/-- The words of a barline. -/
def barlineSites : List WordSite :=
  [⟨"barline", [], .attr "location", isWordFor BarlineLocation⟩,
    ⟨"barline", ["bar-style"], .text, isWordFor BarlineStyle⟩,
    ⟨"barline", ["ending"], .attr "type", isWordFor EndingType⟩,
    ⟨"barline", ["repeat"], .attr "direction", isWordFor RepeatDirection⟩,
    ⟨"barline", ["repeat"], .attr "winged", isWordFor RepeatWinged⟩]

/-- The words of a group of parts. -/
def groupSites : List WordSite :=
  [⟨"part-group", [], .attr "type", isStartOrStop⟩,
    ⟨"part-group", ["group-symbol"], .text, isWordFor GroupSymbol⟩]

/-- The words of attributes. -/
def signSites : List WordSite :=
  [⟨"attributes", ["clef", "sign"], .text, fun word => (ClefKind.ofSign? word none).isSome⟩,
    ⟨"attributes", ["key", "mode"], .text, isWordFor KeyMode⟩,
    ⟨"attributes", ["time"], .attr "symbol", isWordFor TimeSymbol⟩]

/-- The word for how a note is written. -/
def noteTypeSite : WordSite :=
  ⟨"note", ["type"], .text, isWordFor NoteType⟩

/-- The word that says whether a tuplet starts or stops. -/
def tupletTypeSite : WordSite :=
  ⟨"note", ["notations", "tuplet"], .attr "type", isStartOrStop⟩

/-- All other words of a note. -/
def noteSites : List WordSite :=
  [⟨"note", ["pitch", "step"], .text, isWordFor DiatonicStep⟩,
    ⟨"note", ["tie"], .attr "type", fun word => (tieWords.lookup word).isSome⟩,
    ⟨"note", ["notations", "tied"], .attr "type", fun word => (tieWords.lookup word).isSome⟩,
    ⟨"note", ["notations", "slur"], .attr "type", isWordFor SlurKind⟩,
    ⟨"note", ["notations", "articulations"], .child, isWordFor Articulation⟩,
    ⟨"note", ["lyric", "syllabic"], .text, isWordFor LyricKind⟩]

/-- The words of a direction. -/
def directionSites : List WordSite :=
  [⟨"direction", ["direction-type", "metronome", "beat-unit"], .text, isWordFor NoteType⟩,
    ⟨"direction", ["direction-type", "wedge"], .attr "type", isWordFor WedgeKind⟩,
    ⟨"direction", ["direction-type", "pedal"], .attr "type", isWordFor PedalKind⟩]

/-- All places for the words of lists. -/
def wordSites : List WordSite :=
  barlineSites ++ groupSites ++ signSites ++ noteTypeSite :: tupletTypeSite :: noteSites ++
    directionSites

namespace Markup.Element

/-! ## Elements with another word -/

/-- The second element is the first one with another word at a spot where it has one. -/
inductive Respelled (word : String) : Spot → Element → Element → Prop
  | text {e : Element} {old : String} (h : e.text? = some old) :
      Respelled word .text e { e with text? := some word }
  | attr {e : Element} {name old : String} (h : e.attr? name = some old) :
      Respelled word (.attr name) e
        { e with attributes := e.attributes.map fun a => if a.1 = name then (name, word) else a }
  | child {e c : Element} {before after : List Element} (h : e.children = before ++ c :: after) :
      Respelled word .child e { e with children := before ++ { c with name := word } :: after }

/-- The second element is the first one with one of its children replaced. -/
inductive Amended (name : String) (R : Element → Element → Prop) : Element → Element → Prop
  | intro {e c c' : Element} {before after : List Element} (children : e.children = before ++ c :: after)
      (was : c.name = name) (is : c'.name = name) (child : R c c') :
      Amended name R e { e with children := before ++ c' :: after }

/-- The second element is the first one with an element replaced to which a way leads down. -/
def Along (R : Element → Element → Prop) : List String → Element → Element → Prop
  | [] => R
  | name :: path => Amended name (Along R path)

/-- The second document is the first one with an element replaced that is read at once. -/
inductive Replaces (e e' : Element) : Element → Element → Prop
  | leaf : Replaces e e' e e'
  | inside {c d d' : Element} {before after : List Element}
      (name : c.name ∈ ["score-partwise", "part-list", "part", "measure"])
      (children : c.children = before ++ d :: after) (child : Replaces e e' d d') :
      Replaces e e' c { c with children := before ++ d' :: after }

end Markup.Element

/-- The second element is the first one with another word at the site. -/
structure WordSite.Respells (site : WordSite) (word : String) (e e' : Element) : Prop where
  name : e.name = site.leaf
  along : Element.Along (Element.Respelled word site.spot) site.path e e'

namespace Markup.Element

variable {word key other : String} {R : Element → Element → Prop} {e e' : Element} {spot : Spot}

/-! ## What stays the same -/

/-- The values of attributes of which one has another value. -/
theorem lookup_respelled (attributes : List (String × String)) (other : String) :
    (attributes.map fun a => if a.1 = key then (key, word) else a).lookup other =
      if other = key then (attributes.lookup other).map fun _ => word else attributes.lookup other := by
  induction attributes with
  | nil => simp
  | cons a attributes ih =>
    obtain ⟨name, value⟩ := a
    rw [List.map_cons, List.lookup_cons]
    by_cases hname : name = key <;> by_cases hother : other = name <;> grind

namespace Respelled

/-- An element with another word has the same name. -/
theorem name (h : Respelled word spot e e') : e'.name = e.name := by
  cases h <;> rfl

/-- An element with another word stands on the same line. -/
theorem line (h : Respelled word spot e e') : e'.line = e.line := by
  cases h <;> rfl

/-- The word is the new value of its attribute. -/
theorem attr?_self (h : Respelled word (.attr key) e e') : e'.attr? key = some word := by
  cases h with
  | attr hold =>
    show List.lookup key _ = _
    rw [lookup_respelled, if_pos rfl]
    exact congrArg (Option.map fun _ => word) hold

/-- Other attributes have the same values. -/
theorem attr?_ne (h : Respelled word (.attr key) e e') (hne : other ≠ key) :
    e'.attr? other = e.attr? other := by
  cases h with
  | attr =>
    show List.lookup other _ = _
    rw [lookup_respelled, if_neg hne]
    rfl

/-- Attributes are no children. -/
theorem children (h : Respelled word (.attr key) e e') : e'.children = e.children := by
  cases h
  rfl

/-- Another word in an attribute leaves the children as they are. -/
theorem child? (h : Respelled word (.attr key) e e') (name : String) :
    e'.child? name = e.child? name := by
  rw [Element.child?, Element.child?, h.children]

/-- Another word in an attribute leaves it as it is which children there are. -/
theorem has (h : Respelled word (.attr key) e e') (name : String) : e'.has name = e.has name := by
  rw [Element.has, Element.has, h.child?]

/-- Another word in an attribute leaves the texts of the children as they are. -/
theorem childText? (h : Respelled word (.attr key) e e') (name : String) :
    e'.childText? name = e.childText? name := by
  rw [Element.childText?, Element.childText?, h.child?]

/-- Another word in an attribute leaves the values of the children as they are. -/
theorem childValue? (h : Respelled word (.attr key) e e') {α : Type} (format : Text.Format α)
    (name : String) : e'.childValue? format name = e.childValue? format name := by
  rw [Element.childValue?, Element.childValue?, h.child?]

/-- The values of other attributes are the same. -/
theorem attrValue?_ne (h : Respelled word (.attr key) e e') {α : Type} (format : Text.Format α)
    (hne : other ≠ key) : e'.attrValue? format other = e.attrValue? format other := by
  rw [attrValue?, attrValue?, h.attr?_ne hne, h.line, h.name]

end Respelled

namespace Amended

variable {name : String}

/-- An element of which a child was amended has the same name. -/
theorem sameName (h : Amended name R e e') : e'.name = e.name := by
  cases h
  rfl

/-- An element of which a child was amended stands on the same line. -/
theorem line (h : Amended name R e e') : e'.line = e.line := by
  cases h
  rfl

/-- An element of which a child was amended has the same attributes. -/
theorem attr? (h : Amended name R e e') (key : String) : e'.attr? key = e.attr? key := by
  cases h
  rfl

/-- An element of which a child was amended has the same text. -/
theorem text? (h : Amended name R e e') : e'.text? = e.text? := by
  cases h
  rfl

/-- Children are the same, or replaced by others of their name. -/
theorem children (h : Amended name R e e') :
    List.Forall₂ (fun c c' => c = c' ∨ c.name = name ∧ c'.name = name ∧ R c c') e.children
      e'.children := by
  cases h with
  | @intro c c' before after hchildren hwas his hchild =>
    rw [hchildren]
    exact List.rel_append (List.forall₂_same.mpr fun _ _ => .inl rfl)
      (.cons (.inr ⟨hwas, his, hchild⟩) (List.forall₂_same.mpr fun _ _ => .inl rfl))

/-- Children of the same name are the same or replaced. -/
theorem childrenNamed (h : Amended name R e e') :
    List.Forall₂ (fun c c' => c = c' ∨ R c c') (e.childrenNamed name) (e'.childrenNamed name) := by
  cases h with
  | @intro c c' before after hchildren hwas his hchild =>
    have hsame : ∀ es : List Element, List.Forall₂ (fun c c' => c = c' ∨ R c c') es es :=
      fun es => List.forall₂_same.mpr fun _ _ => .inl rfl
    unfold Element.childrenNamed
    rw [hchildren, List.filter_append, List.filter_append, List.filter_cons_of_pos (by simpa),
      List.filter_cons_of_pos (by simpa)]
    exact List.rel_append (hsame _) (.cons (.inr hchild) (hsame _))

/-- Children of another name are the same. -/
theorem childrenNamed_ne (h : Amended name R e e') (hne : other ≠ name) :
    e'.childrenNamed other = e.childrenNamed other := by
  cases h with
  | @intro c c' before after hchildren hwas his hchild =>
    unfold Element.childrenNamed
    rw [hchildren, List.filter_append, List.filter_append,
      List.filter_cons_of_neg (by simpa [his] using hne.symm),
      List.filter_cons_of_neg (by simpa [hwas] using hne.symm)]

/-- The first child of the same name is the same or replaced. -/
theorem child? (h : Amended name R e e') :
    Option.Rel (fun c c' => c = c' ∨ R c c') (e.child? name) (e'.child? name) := by
  rw [child?_eq_head?, child?_eq_head?]
  have hchildren := h.childrenNamed
  generalize e.childrenNamed name = cs at hchildren
  generalize e'.childrenNamed name = cs' at hchildren
  cases hchildren with
  | nil => exact .none
  | cons hchild _ => exact .some hchild

/-- The first child of another name is the same. -/
theorem child?_ne (h : Amended name R e e') (hne : other ≠ name) :
    e'.child? other = e.child? other := by
  rw [child?_eq_head?, child?_eq_head?, h.childrenNamed_ne hne]

/-- First children of any name are in a relation in which elements are to themselves, and the ones
that are replaced to the others. -/
theorem rel_child? {A : Element → Element → Prop} (h : Amended name R e e') (other : String)
    (hA : ∀ c, A c c) (hR : other = name → ∀ c c', R c c' → A c c') :
    Option.Rel A (e.child? other) (e'.child? other) := by
  by_cases hother : other = name
  · have hchild := h.child?
    rw [← hother] at hchild
    generalize e.child? other = c? at hchild
    generalize e'.child? other = c'? at hchild
    cases hchild with
    | none => exact .none
    | some hc =>
      rcases hc with rfl | hc
      · exact .some (hA _)
      · exact .some (hR hother _ _ hc)
  · rw [h.child?_ne hother]
    cases e.child? other with
    | none => exact .none
    | some c => exact .some (hA c)

/-- The children of a name go together one by one, if amended ones go together with what they were.
-/
theorem rel_childrenNamed {A : Element → Element → Prop} (h : Amended name R e e') (other : String)
    (hA : ∀ c, A c c) (hR : other = name → ∀ c c', R c c' → A c c') :
    List.Forall₂ A (e.childrenNamed other) (e'.childrenNamed other) := by
  by_cases hother : other = name
  · have hchildren := h.childrenNamed
    rw [← hother] at hchildren
    exact hchildren.imp fun c c' hc => hc.elim (fun heq => heq ▸ hA c) (hR hother c c')
  · rw [h.childrenNamed_ne hother]
    exact List.forall₂_same.mpr fun c _ => hA c

/-- Children are the same whose names are of a kind that the replaced one is not of. -/
theorem filter_children (h : Amended name R e e') {kind : String → Bool} (hkind : kind name = false) :
    e'.children.filter (fun c => kind c.name) = e.children.filter fun c => kind c.name := by
  cases h with
  | @intro c c' before after hchildren hwas his hchild =>
    rw [hchildren, List.filter_append, List.filter_append,
      List.filter_cons_of_neg (by simpa [his] using hkind),
      List.filter_cons_of_neg (by simpa [hwas] using hkind)]

/-- There are children of the same names. -/
theorem has (h : Amended name R e e') (other : String) : e'.has other = e.has other := by
  unfold Element.has
  by_cases hother : other = name
  · have hchild := h.child?
    rw [← hother] at hchild
    generalize e.child? other = c? at hchild
    generalize e'.child? other = c'? at hchild
    cases hchild <;> rfl
  · rw [h.child?_ne hother]

/-- The values of attributes are the same. -/
theorem attrValue? (h : Amended name R e e') {α : Type} (format : Text.Format α) (key : String) :
    e'.attrValue? format key = e.attrValue? format key := by
  cases h
  rfl

/-- The value of the first child of another name. -/
theorem childValue?_ne (h : Amended name R e e') {α : Type} (format : Text.Format α)
    (hne : other ≠ name) : e'.childValue? format other = e.childValue? format other := by
  rw [childValue?, childValue?, h.child?_ne hne]

/-- The value of a child of another name that must be there. -/
theorem requiredChild_ne (h : Amended name R e e') {α : Type} (format : Text.Format α)
    (hne : other ≠ name) : e'.requiredChild format other = e.requiredChild format other := by
  rw [requiredChild, requiredChild, h.childValue?_ne format hne, h.line]

/-- The children of all children of a name are the same, or replaced by others of their name. -/
theorem grandchildren {inner : String} (h : Amended name (Amended inner R) e e') :
    List.Forall₂ (fun c c' => c = c' ∨ c.name = inner ∧ c'.name = inner ∧ R c c')
      ((e.childrenNamed name).flatMap Element.children)
      ((e'.childrenNamed name).flatMap Element.children) := by
  refine List.rel_flatMap h.childrenNamed fun c c' hc => ?_
  rcases hc with rfl | hc
  · exact List.forall₂_same.mpr fun _ _ => .inl rfl
  · exact hc.children

end Amended

end Markup.Element

/-- An element with another word has the same name. -/
theorem WordSite.Respells.sameName {site : WordSite} {word : String} {e e' : Element}
    (h : site.Respells word e e') : e'.name = e.name := by
  have along := h.along
  cases hpath : site.path with
  | nil =>
    rw [hpath] at along
    exact Element.Respelled.name along
  | cons name path =>
    rw [hpath] at along
    exact Element.Amended.sameName along

/-! ## Moves -/

/-- The second move is made of the second element if the first one is read at once, and else does
what the first one does. -/
inductive Move.Replaces (e e' : Element) : Move → Move → Prop
  | leaf : Replaces e e' (.leaf e) (.leaf e')
  | same {m m' : Move} (h : ∀ settings, m'.perform settings = m.perform settings) : Replaces e e' m m'

/-- The moves of some elements and then of others are those of all of them. -/
theorem movesOfAll_append (es es' : List Element) :
    movesOfAll (es ++ es') = movesOfAll es ++ movesOfAll es' := by
  induction es with
  | nil => rfl
  | cons e es ih => rw [List.cons_append, movesOfAll, movesOfAll, ih, List.append_assoc]

/-- A document with an element replaced that is read at once is walked through by the same moves,
all but one. -/
theorem movesOf_replaces {e e' root root' : Element} (he : movesOf e = [.leaf e])
    (he' : movesOf e' = [.leaf e']) (h : Element.Replaces e e' root root') :
    List.Forall₂ (Move.Replaces e e') (movesOf root) (movesOf root') := by
  have hsame : ∀ ms : List Move, List.Forall₂ (Move.Replaces e e') ms ms :=
    fun ms => List.forall₂_same.mpr fun _ _ => .same fun _ => rfl
  induction h with
  | leaf =>
    rw [he, he']
    exact .cons .leaf .nil
  | @inside c d d' before after hname hchildren _ ih =>
    obtain ⟨name, attributes, text?, children, line⟩ := c
    subst hchildren
    have hall : List.Forall₂ (Move.Replaces e e') (movesOfAll (before ++ d :: after))
        (movesOfAll (before ++ d' :: after)) := by
      rw [movesOfAll_append, movesOfAll_append, movesOfAll, movesOfAll]
      exact List.rel_append (hsame _) (List.rel_append ih (hsame _))
    have hone : ∀ m m' : Move, (∀ settings, m'.perform settings = m.perform settings) →
        List.Forall₂ (Move.Replaces e e') [m] [m'] := fun _ _ hm => .cons (.same hm) .nil
    simp only [List.mem_cons, List.not_mem_nil, or_false] at hname
    rcases hname with rfl | rfl | rfl | rfl
    · exact hall
    · exact List.rel_append hall (hsame _)
    · exact List.rel_append (.cons (.same fun _ => rfl) hall) (hone _ _ fun _ => rfl)
    · exact List.rel_append (.cons (.same fun _ => rfl) hall) (hone _ _ fun _ => rfl)

/-- An element that is put into a document and read at once is one of the moves through it. -/
theorem leaf_mem_movesOf {e e' root root' : Element} (he' : movesOf e' = [.leaf e'])
    (h : Element.Replaces e e' root root') : Move.leaf e' ∈ movesOf root' := by
  induction h with
  | leaf =>
    rw [he']
    exact List.mem_cons_self
  | @inside c d d' before after hname _ _ ih =>
    obtain ⟨name, attributes, text?, children, line⟩ := c
    have hall : Move.leaf e' ∈ movesOfAll (before ++ d' :: after) := by
      rw [movesOfAll_append, movesOfAll]
      exact List.mem_append_right _ (List.mem_append_left _ ih)
    simp only [List.mem_cons, List.not_mem_nil, or_false] at hname
    rcases hname with rfl | rfl | rfl | rfl <;> simp [movesOf, hall]

end Partwise
