import Mathlib.Data.Rat.Defs
import Partwise.Proofs.Reading.Abreast

/-!
# Reading · Rescaling: documents in other units of time

`Element.rescaled` is a document in which all divisions and all durations that are numbers are
multiplied by `k`, and `Element.rescalable` says that they stay in range. Nothing else is said
otherwise, so all decoders but those of divisions and durations read the same (the `_rescaled`
lemmas), and a document is walked through by the same moves (`movesOf_rescaled`). Where a part has
`k` times as many divisions, durations are the same as well (`Surroundings.Finer`).
-/

namespace Partwise

open Markup Text

/-! ## Numerals -/

namespace Text

/-- The digits of a number are read as that number. -/
theorem natural?_toDigits (n : Nat) : natural? (Nat.toDigits 10 n) = some n := by
  have hnumeral : isNumeral (Nat.toDigits 10 n) = true := by
    rw [isNumeral, Bool.and_eq_true, List.all_eq_true]
    refine ⟨?_, fun c hc => Nat.isDigit_of_mem_toDigits (by decide) (by decide) hc⟩
    rw [Bool.not_eq_true', List.isEmpty_eq_false_iff]
    exact Nat.toDigits_ne_nil
  have hvalue : valueOfDigits (Nat.toDigits 10 n) = n := Nat.ofDigitChars_ten_toDigits
  rw [natural?, if_pos hnumeral, hvalue]

/-- Digits without a sign are read as the natural number that they stand for. -/
theorem integer?_of_digits {cs : List Char} {n : Nat} (hdigits : ∀ c ∈ cs, c.isDigit)
    (h : natural? cs = some n) : integer? cs = some (n : Int) := by
  unfold integer?
  split
  · exact absurd (hdigits '-' List.mem_cons_self) (by decide)
  · exact absurd (hdigits '+' List.mem_cons_self) (by decide)
  · rw [h]
    rfl

/-- A number that is written is read as that number. -/
theorem integer?_toString (n : Int) : integer? (toString n).toList = some n := by
  rw [Int.toString_eq_repr, Int.repr_eq_if]
  split
  · next hn =>
    rw [Nat.repr_eq_ofList_toDigits, String.toList_ofList,
      integer?_of_digits (fun c hc => Nat.isDigit_of_mem_toDigits (by decide) (by decide) hc)
        (natural?_toDigits n.toNat), Int.toNat_of_nonneg hn]
  · next hn =>
    have hsigned : ("-" ++ (-n).toNat.repr).toList = '-' :: Nat.toDigits 10 (-n).toNat := by
      rw [String.toList_append, Nat.repr_eq_ofList_toDigits]
      exact congrArg _ String.toList_ofList
    have hread : integer? ('-' :: Nat.toDigits 10 (-n).toNat) = some (-((-n).toNat : Int)) := by
      rw [integer?, natural?_toDigits]
      rfl
    rw [hsigned, hread, Int.toNat_of_nonneg (by omega), Int.neg_neg]

/-- A number of 64 bits that is written is read as that number. -/
theorem read_i64_toString {n : Int} (hlow : -0x8000000000000000 ≤ n)
    (hhigh : n < 0x8000000000000000) : Format.i64.read (toString n) = some n := by
  show (integer? (toString n).toList).filter _ = some n
  rw [integer?_toString, Option.filter_some, if_pos]
  simpa using ⟨hlow, hhigh⟩

end Text

/-! ## Documents in other units -/

namespace Markup

/-- What is counted in units of time: the divisions of a quarter, and durations. -/
def isTimeCount (name : String) : Bool :=
  name == "divisions" || name == "duration"

/-- A count in units that are `k` times as short. What is no number stays as it is. -/
def rescaledCount (k : Nat) (raw : String) : String :=
  match Format.i64.read raw with
  | some n => toString (k * n)
  | none => raw

/-- The count is still in range in units that are `k` times as short: durations fit 64 bits, and the
divisions of a whole note 32 bits. -/
def countFits (k : Nat) (name raw : String) : Bool :=
  match Format.i64.read raw with
  | some n =>
    -0x8000000000000000 ≤ k * n && k * n < 0x8000000000000000 &&
      (name != "divisions" || 4 * (k * n) < 0x100000000)
  | none => true

namespace Element

mutual

/-- The element in units of time that are `k` times as short. -/
def rescaled (k : Nat) : Element → Element
  | ⟨name, attributes, text?, children, line⟩ =>
    ⟨name, attributes, if isTimeCount name then text?.map (rescaledCount k) else text?,
      rescaledAll k children, line⟩

/-- Elements in units of time that are `k` times as short. -/
def rescaledAll (k : Nat) : List Element → List Element
  | [] => []
  | e :: es => e.rescaled k :: rescaledAll k es

end

mutual

/-- All counts of the element are in range in units of time that are `k` times as short. -/
def rescalable (k : Nat) : Element → Bool
  | ⟨name, _, text?, children, _⟩ =>
    (!isTimeCount name || text?.all (countFits k name)) && rescalableAll k children

/-- All counts of the elements are in range in units of time that are `k` times as short. -/
def rescalableAll (k : Nat) : List Element → Bool
  | [] => true
  | e :: es => e.rescalable k && rescalableAll k es

end

variable (k : Nat) (e : Element) {name : String}

/-- To put elements into other units is to put each of them into these units. -/
theorem rescaledAll_eq (es : List Element) : rescaledAll k es = es.map (rescaled k) := by
  induction es with
  | nil => rfl
  | cons e es ih => rw [rescaledAll, ih, List.map_cons]

/-- An element in other units has its children in other units, and its text only if it counts time.
-/
theorem rescaled_eq : e.rescaled k =
    { e with
      text? := if isTimeCount e.name then e.text?.map (rescaledCount k) else e.text?
      children := e.children.map (rescaled k) } := by
  cases e
  rw [rescaled, rescaledAll_eq]

/-- An element has the same name in other units. -/
@[simp] theorem name_rescaled : (e.rescaled k).name = e.name := by
  rw [rescaled_eq]

/-- An element stands on the same line in other units. -/
@[simp] theorem line_rescaled : (e.rescaled k).line = e.line := by
  rw [rescaled_eq]

/-- The children of an element in other units are its children in other units. -/
@[simp] theorem children_rescaled : (e.rescaled k).children = e.children.map (rescaled k) := by
  rw [rescaled_eq]

/-- Attributes are the same in other units. -/
@[simp] theorem attr?_rescaled (name : String) : (e.rescaled k).attr? name = e.attr? name := by
  rw [rescaled_eq]
  rfl

/-- Values of attributes are the same in other units. -/
@[simp] theorem attrValue?_rescaled {α : Type} (format : Format α) (name : String) :
    (e.rescaled k).attrValue? format name = e.attrValue? format name := by
  simp [attrValue?]

/-- An element that counts no time has the same text in other units. -/
theorem text?_rescaled (h : isTimeCount e.name = false) : (e.rescaled k).text? = e.text? := by
  rw [rescaled_eq]
  simp [h]

/-- The children with a name are, in other units, those children in other units. -/
@[simp] theorem childrenNamed_rescaled (name : String) :
    (e.rescaled k).childrenNamed name = (e.childrenNamed name).map (rescaled k) := by
  simp [childrenNamed, List.filter_map, Function.comp_def]

/-- The first child with a name is, in other units, that child in other units. -/
@[simp] theorem child?_rescaled (name : String) :
    (e.rescaled k).child? name = (e.child? name).map (rescaled k) := by
  have hnames : (fun child : Element => child.name == name) ∘ rescaled k =
      fun child => child.name == name :=
    funext fun child => by rw [Function.comp_apply, name_rescaled]
  rw [child?, child?, children_rescaled, List.find?_map, hnames]

/-- An element has a child with a name in other units if it has one. -/
@[simp] theorem has_rescaled (name : String) : (e.rescaled k).has name = e.has name := by
  simp [has]

/-- An element that counts no time has the same value in other units. -/
theorem value?_rescaled {α : Type} (format : Format α) (h : isTimeCount e.name = false) :
    (e.rescaled k).value? format = e.value? format := by
  simp [value?, text?_rescaled k e h]

variable {e}

/-- A child has the name that it was looked for by. -/
theorem name_of_child? {child : Element} (h : e.child? name = some child) : child.name = name := by
  simpa using List.find?_some h

/-- A child with a name has that name. -/
theorem name_of_mem_childrenNamed {child : Element} (h : child ∈ e.childrenNamed name) :
    child.name = name := by
  simpa using List.of_mem_filter h

variable (e)

/-- The text of a child that counts no time is the same in other units. -/
@[simp] theorem childText?_rescaled (h : isTimeCount name = false) :
    (e.rescaled k).childText? name = e.childText? name := by
  rw [childText?, childText?, child?_rescaled]
  rcases hchild : e.child? name with _ | child
  · rfl
  · exact text?_rescaled k child (by rwa [name_of_child? hchild])

/-- The value of a child that counts no time is the same in other units. -/
@[simp] theorem childValue?_rescaled {α : Type} (format : Format α) (h : isTimeCount name = false) :
    (e.rescaled k).childValue? format name = e.childValue? format name := by
  rw [childValue?, childValue?, child?_rescaled]
  rcases hchild : e.child? name with _ | child
  · rfl
  · exact value?_rescaled k child format (by rwa [name_of_child? hchild])

/-- A child that counts no time is demanded with the same outcome in other units. -/
@[simp] theorem requiredChild_rescaled {α : Type} (format : Format α)
    (h : isTimeCount name = false) :
    (e.rescaled k).requiredChild format name = e.requiredChild format name := by
  simp [requiredChild, h]

/-- Children that count no time have the same texts in other units. -/
theorem texts_rescaled (h : isTimeCount name = false) :
    ((e.rescaled k).childrenNamed name).filterMap (·.text?) =
      (e.childrenNamed name).filterMap (·.text?) := by
  rw [childrenNamed_rescaled, List.filterMap_map]
  refine List.filterMap_congr fun child hchild => ?_
  exact text?_rescaled k child (by rwa [name_of_mem_childrenNamed hchild])

end Element

end Markup

/-! ## What is read of elements besides time -/

section

variable (k : Nat) (e : Element)

/-- A pitch is the same in other units. -/
@[simp] theorem Pitch.ofElement_rescaled : Pitch.ofElement (e.rescaled k) = Pitch.ofElement e := by
  simp [Pitch.ofElement, isTimeCount]

/-- The content of a note is the same in other units. -/
@[simp] theorem NoteContent.ofElement_rescaled :
    NoteContent.ofElement (e.rescaled k) = NoteContent.ofElement e := by
  unfold NoteContent.ofElement
  rw [e.child?_rescaled k, e.child?_rescaled k, e.child?_rescaled k]
  cases e.child? "rest" <;> cases e.child? "unpitched" <;> cases e.child? "pitch" <;>
    simp [isTimeCount]

/-- The display of a note is the same in other units. -/
@[simp] theorem Display.ofElement_rescaled :
    Display.ofElement (e.rescaled k) = Display.ofElement e := by
  unfold Display.ofElement
  rw [e.child?_rescaled k, e.childrenNamed_rescaled k]
  rcases htype : e.child? "type" with _ | child
  · rfl
  · have htext := child.text?_rescaled k (by rw [Element.name_of_child? htype]; rfl)
    simp [htext, dotCount]

/-- The time modification of a note is the same in other units. -/
@[simp] theorem ratioOfElement_rescaled : ratioOfElement (e.rescaled k) = ratioOfElement e := by
  unfold ratioOfElement
  rw [e.child?_rescaled k]
  cases e.child? "time-modification" <;> simp [isTimeCount]

/-- A slur is the same in other units. -/
@[simp] theorem Slur.ofElement_rescaled : Slur.ofElement (e.rescaled k) = Slur.ofElement e := by
  simp [Slur.ofElement]

/-- The number of notes that a tuplet mark gives is the same in other units. -/
@[simp] theorem tupletNumber?_rescaled (name : String) :
    tupletNumber? (e.rescaled k) name = tupletNumber? e name := by
  unfold tupletNumber?
  rw [e.child?_rescaled k]
  cases e.child? name <;> simp [isTimeCount]

/-- The start of a tuplet is the same in other units. -/
@[simp] theorem TupletStart.ofElement_rescaled (ratio? : Option Ratio) :
    TupletStart.ofElement (e.rescaled k) ratio? = TupletStart.ofElement e ratio? := by
  simp [TupletStart.ofElement]

/-- An articulation is the same in other units. -/
@[simp] theorem Articulation.ofElement_rescaled :
    Articulation.ofElement (e.rescaled k) = Articulation.ofElement e := by
  simp [Articulation.ofElement]

/-- An ornament is the same in other units. -/
@[simp] theorem Ornament.ofElement_rescaled :
    Ornament.ofElement (e.rescaled k) = Ornament.ofElement e := by
  unfold Ornament.ofElement
  rw [e.name_rescaled, e.line_rescaled]
  split
  · next hname => rw [e.value?_rescaled k _ (by rw [hname]; rfl)]
  · rfl

/-- Values that are each read as the same in other units are the same together. -/
theorem valuesOf_rescaled {α : Type} {read : Element → Journaled (Option α)}
    (hread : ∀ e, read (e.rescaled k) = read e) (es : List Element) :
    valuesOf read (es.map (Element.rescaled k)) = valuesOf read es := by
  simp [valuesOf, List.mapM_map, Function.comp_def, hread]

/-- One element of a note's notations is read as the same in other units. -/
theorem Notations.read_rescaled (ratio? : Option Ratio) (n : Notations) :
    n.read ratio? (e.rescaled k) = n.read ratio? e := by
  simp [Notations.read, valuesOf_rescaled]

/-- All notations of a note are the same in other units. -/
@[simp] theorem Notations.ofElement_rescaled (ratio? : Option Ratio) :
    Notations.ofElement (e.rescaled k) ratio? = Notations.ofElement e ratio? := by
  simp [Notations.ofElement, List.flatMap_map, ← List.map_flatMap, List.foldlM_map,
    Notations.read_rescaled]

/-- A lyric is of the same stanza in other units. -/
@[simp] theorem Lyric.stanzaOf_rescaled : Lyric.stanzaOf (e.rescaled k) = Lyric.stanzaOf e := by
  simp [Lyric.stanzaOf]

/-- A lyric is the same in other units. -/
@[simp] theorem Lyric.ofElement_rescaled : Lyric.ofElement (e.rescaled k) = Lyric.ofElement e := by
  have htext : lyricText? (e.rescaled k) = lyricText? e := by
    rw [lyricText?, lyricText?, e.texts_rescaled k rfl]
  simp [Lyric.ofElement, htext, isTimeCount]

/-- A note element says the same in other units, apart from its place, its length and its lyrics. -/
theorem sameNote_rescaled : e.SameNote (e.rescaled k) where
  line := e.line_rescaled k
  content := NoteContent.ofElement_rescaled k e
  display := Display.ofElement_rescaled k e
  ratio := ratioOfElement_rescaled k e
  notations := funext (Notations.ofElement_rescaled k e)
  ties := by simp [List.filterMap_map]
  slash := by simp [Option.bind_map]
  cue := e.has_rescaled k "cue"
  chord := e.has_rescaled k "chord"
  grace := e.has_rescaled k "grace"

/-- An element names the same place in other units. -/
@[simp] theorem Surroundings.place_rescaled (s : Surroundings) (default : VoiceKey) :
    s.place (e.rescaled k) default = s.place e default := by
  simp [Surroundings.place, isTimeCount]

/-- A tempo is the same in other units. -/
@[simp] theorem Tempo.ofMetronome_rescaled :
    Tempo.ofMetronome (e.rescaled k) = Tempo.ofMetronome e := by
  unfold Tempo.ofMetronome
  rw [e.child?_rescaled k, e.childrenNamed_rescaled k]
  rcases hunit : e.child? "beat-unit" with _ | child
  · simp [dotCount, isTimeCount]
  · have htext := child.text?_rescaled k (by rw [Element.name_of_child? hunit]; rfl)
    simp [htext, dotCount, isTimeCount]

/-- A wedge is the same in other units. -/
@[simp] theorem Wedge.ofElement_rescaled : Wedge.ofElement (e.rescaled k) = Wedge.ofElement e := by
  simp [Wedge.ofElement]

/-- A dynamic sign is the same in other units. -/
@[simp] theorem Dynamics.ofElement_rescaled :
    Dynamics.ofElement (e.rescaled k) = Dynamics.ofElement e := by
  unfold Dynamics.ofElement
  rw [e.name_rescaled]
  split
  · next hname => rw [e.text?_rescaled k (by rw [hname]; rfl)]
  · rfl

/-- One element of a direction is read as the same in other units. -/
theorem DirectionContent.read_rescaled (placement? : Option Placement) (d : DirectionContent) :
    d.read placement? (e.rescaled k) = d.read placement? e := by
  unfold DirectionContent.read
  rw [e.name_rescaled, e.line_rescaled]
  split
  · simp [Function.comp_def]
  · simp
  · next hname => rw [e.text?_rescaled k (by rw [hname]; rfl)]
  · simp
  · simp
  · next hname => rw [e.text?_rescaled k (by rw [hname]; rfl)]
  · rfl
  · rfl
  · rfl

/-- All content of a direction is the same in other units. -/
@[simp] theorem DirectionContent.ofElement_rescaled :
    DirectionContent.ofElement (e.rescaled k) = DirectionContent.ofElement e := by
  simp [DirectionContent.ofElement, List.flatMap_map, ← List.map_flatMap, List.foldlM_map,
    DirectionContent.read_rescaled, Option.bind_map]

/-- A barline is the same in other units. -/
@[simp] theorem Barline.ofElement_rescaled (measure : String) :
    Barline.ofElement (e.rescaled k) measure = Barline.ofElement e measure := by
  unfold Barline.ofElement
  rw [e.childText?_rescaled k rfl, e.child?_rescaled k, e.child?_rescaled k]
  rcases hending : e.child? "ending" with _ | ending
  · cases e.child? "repeat" <;> simp [attrWord]
  · have htext := ending.text?_rescaled k (by rw [Element.name_of_child? hending]; rfl)
    cases e.child? "repeat" <;> simp [attrWord, htext]

/-- The start of a group is the same in other units. -/
@[simp] theorem PartGroup.ofElement_rescaled (number : String) :
    PartGroup.ofElement (e.rescaled k) number = PartGroup.ofElement e number := by
  unfold PartGroup.ofElement
  rw [e.child?_rescaled k]
  rcases hsymbol : e.child? "group-symbol" with _ | symbol
  · simp [isTimeCount]
  · have htext := symbol.text?_rescaled k (by rw [Element.name_of_child? hsymbol]; rfl)
    simp [htext, isTimeCount]

/-- A part is declared as the same in other units. -/
@[simp] theorem Part.ofElement_rescaled (id : String) :
    Part.ofElement (e.rescaled k) id = Part.ofElement e id := by
  simp [Part.ofElement, isTimeCount, Option.bind_map]

/-- A key is the same in other units. -/
@[simp] theorem Key.ofElement_rescaled : Key.ofElement (e.rescaled k) = Key.ofElement e := by
  simp [Key.ofElement, isTimeCount]

/-- A time is the same in other units. -/
@[simp] theorem Time.ofElement_rescaled : Time.ofElement (e.rescaled k) = Time.ofElement e := by
  simp [Time.ofElement, attrWord, isTimeCount]

/-- A clef is the same in other units. -/
@[simp] theorem Clef.ofElement_rescaled : Clef.ofElement (e.rescaled k) = Clef.ofElement e := by
  simp [Clef.ofElement, isTimeCount]

/-- An element that counts no time gives the same number of staves in other units. -/
theorem staffCountOfElement_rescaled (h : isTimeCount e.name = false) :
    staffCountOfElement (e.rescaled k) = staffCountOfElement e := by
  simp [staffCountOfElement, e.value?_rescaled k _ h]

namespace Identification

variable (i : Identification)

/-- The texts of an identification are the same in other units. -/
@[simp] theorem textsOf_rescaled {name : String} (h : isTimeCount name = false) :
    textsOf (e.rescaled k) name = textsOf e name :=
  e.texts_rescaled k h

/-- The creators of an identification are the same in other units. -/
@[simp] theorem creatorsOfElement_rescaled :
    creatorsOfElement (e.rescaled k) = creatorsOfElement e := by
  rw [creatorsOfElement, creatorsOfElement, e.childrenNamed_rescaled, List.filterMap_map]
  refine List.filterMap_congr fun creator hcreator => ?_
  simp [creator.text?_rescaled k (by rw [Element.name_of_mem_childrenNamed hcreator]; rfl)]

/-- A work is identified as the same in other units. -/
@[simp] theorem withWork_rescaled : i.withWork (e.rescaled k) = i.withWork e := by
  simp [withWork, isTimeCount, Option.bind_map]

/-- A source is identified as the same in other units. -/
@[simp] theorem withSource_rescaled : i.withSource (e.rescaled k) = i.withSource e := by
  unfold withSource
  rw [e.child?_rescaled k]
  cases e.child? "encoding" <;> simp [isTimeCount]

end Identification

end

/-! ## Moves -/

section

variable {k : Nat} {e : Element} {settings : Settings}

/-- A sign is read from a child as before, if the child is read as the same in other units. -/
theorem changeByChild_rescaled {α : Type} {name : String} {read : Element → Journaled α}
    {f : Part → α → Part}
    (hread : ∀ child : Element, child.name = name → read (child.rescaled k) = read child) :
    changeByChild (e.rescaled k) name read f = changeByChild e name read f := by
  unfold changeByChild
  rw [e.child?_rescaled k]
  rcases hchild : e.child? name with _ | child
  · rfl
  · simp [hread child (Element.name_of_child? hchild)]

/-- Attributes besides divisions are read as before in other units. -/
theorem readSigns_rescaled : readSigns (e.rescaled k) = readSigns e := by
  unfold readSigns
  rw [changeByChild_rescaled fun child _ => Key.ofElement_rescaled k child,
    changeByChild_rescaled fun child _ => Time.ofElement_rescaled k child,
    changeByChild_rescaled fun child hname =>
      staffCountOfElement_rescaled k child (by rw [hname]; rfl)]
  simp [List.filter_map, Function.comp_def, List.forM_eq_forM]

/-- An element for which divisions do not count is read as before. -/
theorem readLeaf_rescaled (h : e.countsDivisions = false) :
    readLeaf settings (e.rescaled k) = readLeaf settings e := by
  unfold Element.countsDivisions Element.isReckoned at h
  unfold readLeaf
  rw [e.name_rescaled]
  split
  · simp
  · next hname => rw [e.text?_rescaled k (by rw [hname]; rfl)]
  · next hname => rw [e.text?_rescaled k (by rw [hname]; rfl)]
  · simp
  · simp [readPartGroup]
  · simp [readScorePart]
  · next hname => simp [hname] at h
  · next hname => simp [hname] at h
  · next hname => simp [hname] at h
  · next hname => simp [hname] at h
  · simp [readBarline]
  · simp [readDirection]
  · simp [readSound]
  · simp
  · simp
  · simp
  · simp

/-- Lyrics in other units are sung as before. -/
theorem singNote_rescaled (key : VoiceKey) (note : Note) (lyrics : List Element) :
    singNote settings key note (lyrics.map (Element.rescaled k)) =
      singNote settings key note lyrics := by
  simp [singNote, List.filter_map, List.mapM_map, Function.comp_def]

/-- What a note demands is done in the same way, whatever else its lyrics count. -/
theorem performNote_rescaled (line : Nat) (i : NoteInput) :
    performNote settings line { i with lyrics := i.lyrics.map (Element.rescaled k) } =
      performNote settings line i := by
  unfold performNote placeNote
  dsimp only
  simp only [singNote_rescaled]
  rfl

end

/-- The move of an element in units of time that are `k` times as short. -/
def Move.rescaled (k : Nat) : Move → Move
  | enterPart e => enterPart (e.rescaled k)
  | leavePart e => leavePart (e.rescaled k)
  | enterMeasure e => enterMeasure (e.rescaled k)
  | leaveMeasure e => leaveMeasure (e.rescaled k)
  | leavePartList line => leavePartList line
  | leaf e => leaf (e.rescaled k)

/-- A move for which divisions do not count is made as before. -/
theorem Move.perform_rescaled {k : Nat} {settings : Settings} {m : Move}
    (h : ∀ e, m = .leaf e → e.countsDivisions = false) :
    (m.rescaled k).perform settings = m.perform settings := by
  cases m with
  | enterPart e => simp [rescaled, perform, Partwise.enterPart]
  | leavePart e => simp [rescaled, perform, Partwise.leavePart]
  | enterMeasure e => simp [rescaled, perform, Partwise.enterMeasure]
  | leaveMeasure e => simp [rescaled, perform, Partwise.leaveMeasure]
  | leavePartList line => rfl
  | leaf e => exact readLeaf_rescaled (h e rfl)

mutual

/-- A document in other units is walked through by the same moves. -/
theorem movesOf_rescaled (k : Nat) (e : Element) :
    movesOf (e.rescaled k) = (movesOf e).map (Move.rescaled k) := by
  match e with
  | ⟨name, attributes, text?, children, line⟩ =>
    have hall := movesOfAll_rescaled k children
    unfold Element.rescaled movesOf
    dsimp only
    split
    · exact hall
    · simp [hall, Move.rescaled]
    · simp [hall, Move.rescaled, Element.rescaled]
    · simp [hall, Move.rescaled, Element.rescaled]
    · simp [Move.rescaled, Element.rescaled]

/-- Documents in other units are walked through by the same moves, one after the other. -/
theorem movesOfAll_rescaled (k : Nat) (es : List Element) :
    movesOfAll (Element.rescaledAll k es) = (movesOfAll es).map (Move.rescaled k) := by
  match es with
  | [] => rfl
  | e :: es =>
    unfold Element.rescaledAll movesOfAll
    rw [movesOf_rescaled k e, movesOfAll_rescaled k es, List.map_append]

end

/-- The counts of the element that is read by the move are in range. -/
def Move.rescalable (k : Nat) : Move → Bool
  | leaf e => e.rescalable k
  | _ => true

mutual

/-- The counts of whatever is read are in range if all those of the document are. -/
theorem rescalable_movesOf {k : Nat} {e : Element} (h : e.rescalable k) {m : Move}
    (hm : m ∈ movesOf e) : m.rescalable k := by
  match e with
  | ⟨name, attributes, text?, children, line⟩ =>
    have hchildren : Element.rescalableAll k children := by
      unfold Element.rescalable at h
      exact (Bool.and_eq_true _ _ ▸ h).2
    have hall : ∀ m ∈ movesOfAll children, m.rescalable k :=
      fun m hm => rescalable_movesOfAll hchildren hm
    unfold movesOf at hm
    dsimp only at hm
    split at hm
    · exact hall m hm
    · rcases List.mem_append.mp hm with hm | hm
      · exact hall m hm
      · rw [List.mem_singleton.mp hm]
        rfl
    · simp only [List.cons_append, List.mem_cons, List.mem_append, List.not_mem_nil, or_false] at hm
      rcases hm with rfl | hm | rfl
      · rfl
      · exact hall m hm
      · rfl
    · simp only [List.cons_append, List.mem_cons, List.mem_append, List.not_mem_nil, or_false] at hm
      rcases hm with rfl | hm | rfl
      · rfl
      · exact hall m hm
      · rfl
    · rw [List.mem_singleton.mp hm]
      exact h

/-- The counts of whatever is read are in range if those of all elements are. -/
theorem rescalable_movesOfAll {k : Nat} {es : List Element} (h : Element.rescalableAll k es)
    {m : Move} (hm : m ∈ movesOfAll es) : m.rescalable k := by
  match es with
  | [] => exact absurd hm List.not_mem_nil
  | e :: es =>
    unfold Element.rescalableAll at h
    rw [Bool.and_eq_true] at h
    unfold movesOfAll at hm
    rcases List.mem_append.mp hm with hm | hm
    · exact rescalable_movesOf h.1 hm
    · exact rescalable_movesOfAll h.2 hm

end

/-! ## Time -/

namespace Markup.Element

variable {k : Nat} {e : Element}

/-- An element's counts are in range if its own count and those of its children are. -/
theorem rescalable_eq (k : Nat) (e : Element) : e.rescalable k =
    ((!isTimeCount e.name || e.text?.all (countFits k e.name)) && e.children.all (rescalable k)) := by
  have hall : ∀ es, rescalableAll k es = es.all (rescalable k) := by
    intro es
    induction es with
    | nil => rfl
    | cons e es ih => rw [rescalableAll, ih, List.all_cons]
  cases e
  rw [rescalable, hall]

/-- The counts of a child are in range. -/
theorem rescalable_of_child? {name : String} {child : Element} (h : e.rescalable k)
    (hchild : e.child? name = some child) : child.rescalable k := by
  rw [rescalable_eq, Bool.and_eq_true, List.all_eq_true] at h
  exact h.2 child (List.mem_of_find?_eq_some hchild)

/-- A count that is in range is read as `k` times what it was. -/
theorem value?_count (h : e.rescalable k) (hcount : isTimeCount e.name) :
    (e.rescaled k).value? .i64 = (e.value? .i64).map (Option.map fun n : Int => k * n) := by
  rw [rescalable_eq, hcount, Bool.and_eq_true] at h
  have hfits : e.text?.all (countFits k e.name) := h.1
  have htext : (e.rescaled k).text? = e.text?.map (rescaledCount k) := by
    rw [rescaled_eq]
    simp [hcount]
  rw [value?, value?, htext, line_rescaled, name_rescaled]
  generalize e.text? = text? at hfits ⊢
  rcases text? with _ | raw
  · rfl
  · have hraw : countFits k e.name raw := hfits
    dsimp only [Option.map_some]
    unfold countFits at hraw
    unfold rescaledCount
    rcases hn : Text.Format.i64.read raw with _ | n
    · simp only [hn]
      rfl
    · simp only [hn, Bool.and_eq_true, decide_eq_true_eq] at hraw
      simp only [Text.read_i64_toString hraw.1.1 hraw.1.2]
      rfl

/-- The divisions of a whole note fit 32 bits. -/
theorem lt_of_divisions {n : Int} (h : e.rescalable k) (hname : e.name = "divisions")
    (hn : e.value? .i64 = .ok (some n)) : 4 * (k * n) < 0x100000000 := by
  rw [rescalable_eq, hname, Bool.and_eq_true] at h
  have hfits : e.text?.all (countFits k "divisions") := h.1
  unfold value? at hn
  split at hn
  · exact nomatch hn
  · next raw hraw =>
    split at hn
    · next value hvalue =>
      cases hn
      simp only [hraw, Option.all_some, countFits, hvalue, bne_self_eq_false, Bool.false_or,
        Bool.and_eq_true, decide_eq_true_eq] at hfits
      exact hfits.2
    · exact nomatch hn

/-- A duration that is a number in range is `k` times that number in units `k` times as short. -/
theorem childValue?_duration (h : e.rescalable k) :
    (e.rescaled k).childValue? .i64 "duration" =
      (e.childValue? .i64 "duration").map (Option.map fun n : Int => k * n) := by
  rw [childValue?, childValue?, child?_rescaled]
  rcases hchild : e.child? "duration" with _ | child
  · rfl
  · exact value?_count (rescalable_of_child? h hchild) (by rw [name_of_child? hchild]; rfl)

/-- A duration that must be there is `k` times its number in units `k` times as short, and where it
is missing the outcome is the same. -/
theorem requiredChild_duration (h : e.rescalable k) :
    (e.rescaled k).requiredChild .i64 "duration" =
      (e.requiredChild .i64 "duration").map fun n : Int => k * n := by
  rw [requiredChild, requiredChild, childValue?_duration h, line_rescaled]
  rcases e.childValue? .i64 "duration" with _ | _ | n <;> rfl

end Markup.Element

namespace Surroundings

variable {k : Nat} {s t : Surroundings} {e : Element}

/-- The divisions of the part are `k` times as many. -/
def Finer (k : Nat) (s t : Surroundings) : Prop :=
  t.part?.map Part.divisionsPerWhole = s.part?.map fun p => k * p.divisionsPerWhole

/-- `k` times as many divisions that are `k` times as short take the same time. -/
theorem Finer.wholeNotes (hk : 0 < k) (h : Finer k s t) (line : Nat) (n : Int) :
    t.wholeNotes line (k * n) = s.wholeNotes line n := by
  unfold Finer at h
  unfold Surroundings.wholeNotes
  generalize s.part? = p? at h ⊢
  generalize t.part? = q? at h ⊢
  rcases p? with _ | p <;> rcases q? with _ | q
  · rfl
  · exact nomatch h
  · exact nomatch h
  · have hdivisions : q.divisionsPerWhole = k * p.divisionsPerWhole := Option.some.inj h
    dsimp only
    rw [hdivisions, Rat.mkRat_mul_left (by omega)]

/-- A duration takes the same time in units that are `k` times as short, where the part has `k`
times as many divisions. -/
theorem Finer.duration (hk : 0 < k) (h : Finer k s t) (hfits : e.rescalable k) :
    t.duration (e.rescaled k) = s.duration e := by
  unfold Surroundings.duration
  rw [e.line_rescaled, Element.requiredChild_duration hfits]
  rcases e.requiredChild .i64 "duration" with _ | n
  · rfl
  · exact h.wholeNotes hk e.line n

/-- A note lasts the same time in units that are `k` times as short, where the part has `k` times as
many divisions. -/
theorem Finer.noteLength (hk : 0 < k) (h : Finer k s t) (hfits : e.rescalable k) :
    t.noteLength (e.rescaled k) = s.noteLength e := by
  funext display? ratio?
  unfold Surroundings.noteLength
  rw [e.has_rescaled, e.line_rescaled, Element.childValue?_duration hfits]
  split
  · rfl
  · rcases e.childValue? .i64 "duration" with _ | _ | n
    · rfl
    · rfl
    · exact h.wholeNotes hk e.line n

end Surroundings

end Partwise
