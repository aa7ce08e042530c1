import Partwise.Proofs.Reading.Respelling
import Partwise.Proofs.Reading.Sketches

/-!
# Reading · Defaults: what is read in the place of a word that no list has

A word that its list does not have is replaced by a default, or the mark that has it is left out. So
an element with such a word is decoded wherever it was decoded with another word in its place, and
to something that is alike for readings of which only the sketches count (`Sketches.likeness`).

There are three exceptions. A barline with another location, repeat or ending may play no part any
more; without its type, a note that has no duration takes another time; and a tuplet that does not
start is not there to be stopped. The lemmas about barlines and notes say when this is not so.
-/

namespace Partwise

open Markup

variable {α α' β γ δ : Type}

/-! ## Where nothing that is found counts -/

/-- No finding counts, and where the first reading fails, nothing is asked of the second. -/
structure Standard.Lax (S : Standard) : Prop where
  deaf : ∀ d, S.heeds d = false
  lenient : S.lenient
  failure : ∀ f, S.fails f f

/-- Where readings need only the same sketches, nothing that is found counts. -/
theorem Sketches.lax : Sketches.likeness.toStandard.Lax := ⟨fun _ => rfl, trivial, fun _ => trivial⟩

namespace Standard.Lax

variable {S : Standard} {A : α → β → Prop} {x : Journaled α} {y : Journaled β}

/-- Nothing of a journal is heard where no finding counts. -/
theorem heard (hS : S.Lax) (j : Journal) : S.heard j = [] := by
  rw [Standard.heard, List.filter_eq_nil_iff]
  exact fun d _ h => Bool.false_ne_true ((hS.deaf d).symm.trans h)

/-- A decoder that ends well on every journal, beside any other. -/
theorem ends (hS : S.Lax)
    (h : ∀ k, ∃ b k', y.run.run k = (.ok b, k') ∧ ∀ a, Gives x a → A a b) : Concur S A x y := by
  intro j k _
  obtain ⟨b, k', hrun, hA⟩ := h k
  rw [hrun]
  rcases hx : x.run.run j with ⟨_ | a, j'⟩
  · exact .spared hS.lenient
  · exact .ends (hA a ⟨j, j', hx⟩) (by rw [hS.heard, hS.heard])

/-- A decoder that comes to a value, beside any other. -/
theorem comes (hS : S.Lax) {b : β} (hy : Comes y (some b)) (hA : ∀ a, Gives x a → A a b) :
    Concur S A x y := by
  refine hS.ends fun k => ?_
  have hrun := hy.run k
  generalize y.run.run k = run at hrun
  obtain ⟨_ | b', k'⟩ := run
  · exact nomatch hrun
  · cases hrun
    exact ⟨b, k', rfl, hA⟩

/-- A decoder that fails goes with any other, since nothing is asked of the second one. -/
theorem spared (hS : S.Lax) (hx : Comes x none) : Concur S A x y := by
  intro j k _
  have hrun := hx.run j
  generalize x.run.run j = run at hrun
  obtain ⟨_ | a, j'⟩ := run
  · exact .spared hS.lenient
  · exact nomatch hrun

/-- A default, beside whatever is decoded, where it does not matter what that is. -/
theorem default (hS : S.Lax) (hy : ∃ b, Comes y (some b)) : Concur S (fun _ _ => True) x y :=
  hS.comes hy.choose_spec fun _ _ => trivial

/-- One decoder on both sides comes to alike values, if what is made of its value is alike. -/
theorem steady (hS : S.Lax) {A : β → γ → Prop} {x : Journaled α} (hx : Steady x) {f : α → β}
    {g : α → γ} (hfg : ∀ a, A (f a) (g a)) :
    Concur S A (x >>= fun a => Pure.pure (f a)) (x >>= fun a => Pure.pure (g a)) := by
  refine (Concur.refl hx.blind hS.failure).bind ?_
  rintro a _ rfl
  exact .pure (hfg a)

/-- What is asked of both elements is the same value on both sides. -/
theorem ask (hS : S.Lax) (x : Except Fault α) : Concur S Eq (Partwise.ask x) (Partwise.ask x) :=
  .refl (Steady.ask x).blind hS.failure

end Standard.Lax

/-- Decoders go alike through two lists, each with what was decoded before. -/
theorem Concur.foldlM {S : Standard} {A : α → α' → Prop} {f : α → β → Journaled α}
    {g : α' → γ → Journaled α'} {xs : List β} {ys : List γ}
    (h : List.Forall₂ (fun x y => ∀ a b, A a b → Concur S A (f a x) (g b y)) xs ys) {a : α} {b : α'}
    (hab : A a b) : Concur S A (xs.foldlM f a) (ys.foldlM g b) := by
  induction h generalizing a b with
  | nil => exact .pure hab
  | cons hxy _ ih =>
    rw [List.foldlM_cons, List.foldlM_cons]
    exact (hxy a b hab).bind fun _ _ hnext => ih hnext

section

variable {S : Standard} {e e' : Element} {word : String}

/-! ## Barlines -/

/-- A barline that plays a part, beside one whose repeat is played as often. -/
theorem Barline.concur (hS : S.Lax) (htimes : e'.repeatTimes? = e.repeatTimes?)
    (hrole : e'.barlineRole?.isSome) (measure : String) :
    Concur S (fun _ _ => True) (Barline.ofElement e measure) (Barline.ofElement e' measure) := by
  obtain ⟨b?, hfirst, hb?⟩ := Barline.comes e measure
  obtain ⟨b'?, hsecond, hb'?⟩ := Barline.comes e' measure
  cases b? with
  | none => exact hS.spared hfirst
  | some b =>
    have hplayed : ∃ times?, e'.repeatTimes? = .ok times? := htimes ▸ (hb?.mp rfl).1
    obtain ⟨b', rfl⟩ := Option.isSome_iff_exists.mp (hb'?.mpr ⟨hplayed, hrole⟩)
    exact hS.comes hsecond fun _ _ => trivial

/-- A repeat is played as often, whatever else is said of its barline in words. -/
theorem Markup.Element.repeatTimes?_respelled {site : WordSite} (hsite : site ∈ barlineSites)
    (h : site.Respells word e e') : e'.repeatTimes? = e.repeatTimes? := by
  have hname : ∀ {name R}, Element.Amended name R e e' → "repeat" ≠ name →
      e'.repeatTimes? = e.repeatTimes? := by
    intro name R h hne
    rw [repeatTimes?, repeatTimes?, h.child?_ne hne]
  have hsign : ∀ {key}, Element.Amended "repeat" (Element.Respelled word (.attr key)) e e' →
      "times" ≠ key → e'.repeatTimes? = e.repeatTimes? := by
    intro key h hne
    have hchild := h.child?
    rw [repeatTimes?, repeatTimes?]
    generalize e.child? "repeat" = c? at hchild
    generalize e'.child? "repeat" = c'? at hchild
    cases hchild with
    | none => rfl
    | some hc =>
      rcases hc with rfl | hc
      · rfl
      · exact hc.attrValue?_ne _ hne
  have along := h.along
  simp only [barlineSites, List.mem_cons, List.not_mem_nil, or_false] at hsite
  rcases hsite with rfl | rfl | rfl | rfl | rfl
  · rw [repeatTimes?, repeatTimes?, along.child?]
  · exact hname along (by decide)
  · exact hname along (by decide)
  · exact hsign along (by decide)
  · exact hsign along (by decide)

/-! ## Groups of parts -/

/-- A group is started, whatever its symbol is called. -/
theorem PartGroup.concur (hS : S.Lax)
    (h : Element.Amended "group-symbol" (Element.Respelled word .text) e e') (number : String) :
    Concur S (fun _ _ => True) (PartGroup.ofElement e number) (PartGroup.ofElement e' number) := by
  have hchild := h.child?
  unfold PartGroup.ofElement
  generalize e.child? "group-symbol" = c? at hchild
  generalize e'.child? "group-symbol" = c'? at hchild
  extract_lets sign barline withSymbol sign' barline' withSymbol'
  have hkey : ∀ symbol symbol', Concur S (fun _ _ => True) (withSymbol symbol)
      (withSymbol' symbol') := by
    intro symbol symbol'
    unfold withSymbol withSymbol'
    dsimp only [sign, sign']
    cases hchild with
    | none => exact (Concur.pure rfl).bind fun _ _ (_ : _ = _) => .pure trivial
    | @some c c' hc =>
      have hsame : c'.attrValue? .f32 "default-x" = c.attrValue? .f32 "default-x" := by
        rcases hc with rfl | hc
        · rfl
        · cases hc
          rfl
      dsimp only
      rw [hsame]
      exact (hS.ask _).bind fun _ _ _ => .pure trivial
  split <;> split
  · exact (hS.default ⟨_, .pure _⟩).bind fun _ _ _ => hkey _ _
  · exact (hS.default ⟨_, .wordOr ..⟩).bind fun _ _ _ => hkey _ _
  · exact (hS.default ⟨_, .pure _⟩).bind fun _ _ _ => hkey _ _
  · exact (hS.default ⟨_, .wordOr ..⟩).bind fun _ _ _ => hkey _ _

/-! ## Signs -/

/-- Keys with other words for their modes are read side by side. -/
theorem Key.concur (hS : S.Lax) (h : Element.Amended "mode" (Element.Respelled word .text) e e') :
    Concur S (fun _ _ => True) (Key.ofElement e) (Key.ofElement e') := by
  unfold Key.ofElement
  rw [h.childValue?_ne _ (by decide)]
  refine (hS.ask _).bind fun _ _ _ => ?_
  split <;> split
  · exact (hS.default ⟨_, .pure _⟩).bind fun _ _ _ => .pure trivial
  · exact (hS.default ⟨_, .wordOr ..⟩).bind fun _ _ _ => .pure trivial
  · exact (hS.default ⟨_, .pure _⟩).bind fun _ _ _ => .pure trivial
  · exact (hS.default ⟨_, .wordOr ..⟩).bind fun _ _ _ => .pure trivial

/-- Times with other words for their symbols are read side by side. -/
theorem Time.concur (hS : S.Lax) (h : Element.Respelled word (.attr "symbol") e e') :
    Concur S (fun _ _ => True) (Time.ofElement e) (Time.ofElement e') := by
  unfold Time.ofElement
  refine (hS.default ⟨_, .attrWord ..⟩).bind fun _ _ _ => ?_
  dsimp only
  rw [h.has, h.childValue?]
  split
  · exact .pure trivial
  · exact (hS.ask _).bind fun _ _ _ => .pure trivial

/-- A clef is put on its staff, whatever its sign is called. -/
theorem Clef.concur (hS : S.Lax) (h : Element.Amended "sign" (Element.Respelled word .text) e e') :
    Concur S (fun clef clef' => clef.staffNumber = clef'.staffNumber) (Clef.ofElement e)
      (Clef.ofElement e') := by
  unfold Clef.ofElement
  rw [h.attrValue?, h.line]
  refine (hS.ask _).bind ?_
  rintro number? _ rfl
  extract_lets sign withStaff sign' withStaff'
  have hstaff : ∀ staff, Concur S (fun clef clef' => clef.staffNumber = clef'.staffNumber)
      (withStaff staff) (withStaff' staff) := by
    intro staff
    unfold withStaff withStaff'
    rw [h.childValue?_ne _ (by decide), h.childValue?_ne _ (by decide)]
    refine (hS.ask _).bind fun line? line'? _ => ?_
    extract_lets withKind
    have hkind : ∀ kind kind', Concur S (fun clef clef' => clef.staffNumber = clef'.staffNumber)
        (withKind kind) (withKind kind') :=
      fun _ _ => (hS.ask _).bind fun _ _ _ => .pure rfl
    split <;> split
    · exact (hS.default ⟨_, .pure _⟩).bind fun _ _ _ => hkind _ _
    · exact (hS.default ⟨_, (Comes.find ..).bind (.pure _)⟩).bind fun _ _ _ => hkind _ _
    · exact (hS.default ⟨_, .pure _⟩).bind fun _ _ _ => hkind _ _
    · exact (hS.default ⟨_, (Comes.find ..).bind (.pure _)⟩).bind fun _ _ _ => hkind _ _
  split
  · exact (Concur.pure rfl).bind fun staff _ heq => heq ▸ hstaff staff
  · refine (Concur.refl (Surroundings.steady_staffCount _ (fun _ => by trivial)
      (fun _ => by trivial) _).blind hS.failure).bind ?_
    rintro staff _ rfl
    exact hstaff staff

/-! ## What sounds -/

/-- Pitches with other words for their steps are read side by side. -/
theorem Pitch.concur (hS : S.Lax)
    (h : Element.Amended "step" (Element.Respelled word .text) e e') :
    Concur S (fun _ _ => True) (Pitch.ofElement e) (Pitch.ofElement e') := by
  unfold Pitch.ofElement
  rw [h.line, h.childValue?_ne _ (by decide), h.requiredChild_ne _ (by decide)]
  refine (hS.default ⟨_, .wordOr ..⟩).bind fun step step' _ => (hS.ask _).bind ?_
  rintro semitones? _ rfl
  dsimp only
  split
  · exact (Concur.pure rfl).bind fun _ _ (_ : _ = _) => (hS.ask _).bind fun _ _ _ => .pure trivial
  · refine (Concur.refl (Blind.find _ _) hS.failure).bind fun _ _ _ => ?_
    exact (Concur.pure rfl).bind fun _ _ (_ : _ = _) => (hS.ask _).bind fun _ _ _ => .pure trivial

/-- A note rests or sounds, whatever the step of its pitch is called. -/
theorem NoteContent.concur (hS : S.Lax) (hrest : e'.child? "rest" = e.child? "rest")
    (hunpitched : e'.child? "unpitched" = e.child? "unpitched")
    (hpitch : Option.Rel
      (fun c c' => c = c' ∨ Element.Amended "step" (Element.Respelled word .text) c c')
      (e.child? "pitch") (e'.child? "pitch")) (hline : e'.line = e.line) :
    Concur S (fun content content' => content.isRest = content'.isRest) (NoteContent.ofElement e)
      (NoteContent.ofElement e') := by
  have hpitched : ∀ {x y : Journaled Pitch}, Concur S (fun _ _ => True) x y →
      Concur S (fun content content' => content.isRest = content'.isRest)
        (NoteContent.pitched <$> x) (NoteContent.pitched <$> y) := by
    intro x y hxy
    rw [map_eq_pure_bind, map_eq_pure_bind]
    exact hxy.bind fun _ _ _ => .pure rfl
  unfold NoteContent.ofElement
  rw [hrest, hunpitched, hline]
  generalize e.child? "pitch" = c? at hpitch
  generalize e'.child? "pitch" = c'? at hpitch
  rcases e.child? "rest" with _ | silence
  · rcases e.child? "unpitched" with _ | place
    · cases hpitch with
      | none => exact .throw (hS.failure _)
      | some hc =>
        refine hpitched ?_
        rcases hc with rfl | hc
        · exact (Concur.refl (Pitch.steady _).blind hS.failure).mono fun _ _ _ => trivial
        · exact Pitch.concur hS hc
    · exact (hS.ask _).bind fun _ _ _ => .pure rfl
  · exact .pure rfl

/-! ## Notations -/

/-- The notations start and stop the same tuplets. -/
def Notations.SameTuplets (n n' : Notations) : Prop :=
  n.tupletStarts = n'.tupletStarts ∧ n.tupletStops = n'.tupletStops

/-- The values of the elements of a list are there, if each element has one or none. -/
theorem Comes.valuesOf {read : Element → Journaled (Option α)}
    (h : ∀ e, ∃ a?, Comes (read e) (some a?)) (es : List Element) :
    ∃ as, Comes (Partwise.valuesOf read es) (some as) :=
  ⟨_, (Comes.mapM (fun e => (h e).choose_spec) es).bind (.pure _)⟩

/-- An articulation is read whatever it is, and one that is unknown is left out. -/
theorem Articulation.comes (e : Element) : ∃ a?, Comes (Articulation.ofElement e) (some a?) := by
  unfold Articulation.ofElement
  split
  · exact ⟨_, .pure _⟩
  · exact ⟨_, (Comes.find ..).bind (.pure _)⟩

/-- A slur without a type is left out. -/
theorem Slur.comes_unknown (h : isWordFor SlurKind ((e.attr? "type").getD "") = false) :
    Comes (Slur.ofElement e) (some none) := by
  have hunknown : (Vocabulary.ofWord? ((e.attr? "type").getD "") : Option SlurKind) = none :=
    Option.not_isSome_iff_eq_none.mp (Bool.eq_false_iff.mp h)
  unfold Slur.ofElement
  exact (hunknown ▸ Comes.wordOrNone ..).bind (.pure none)

/-- A mark that is read whatever it says, and starts and stops no tuplet. -/
def Markup.Element.IsIdleMark (e : Element) : Prop :=
  e.name = "tied" ∨ e.name = "articulations" ∨
    e.name = "slur" ∧ isWordFor SlurKind ((e.attr? "type").getD "") = false

namespace Notations

variable {n n' : Notations} {ratio? : Option Ratio}

/-- One mark is read on both sides after notations with the same tuplets, and these stay the same.
-/
theorem concur_read_same (hS : S.Lax) (h : n.SameTuplets n') (e : Element) :
    Concur S SameTuplets (read ratio? n e) (read ratio? n' e) := by
  obtain ⟨hstarts, hstops⟩ := h
  unfold read
  split
  · exact .pure ⟨hstarts, hstops⟩
  · exact hS.steady (Slur.steady e) fun _ => ⟨hstarts, hstops⟩
  · split
    · exact hS.steady (TupletStart.steady e ratio?) fun start => ⟨by rw [hstarts], hstops⟩
    · exact .pure ⟨hstarts, congrArg (· + 1) hstops⟩
    · exact hS.steady (Steady.find _ _ rfl) fun _ => ⟨hstarts, hstops⟩
  · exact hS.steady (steady_valuesOf Articulation.steady _) fun _ => ⟨hstarts, hstops⟩
  · exact hS.steady (steady_valuesOf Ornament.steady _) fun _ => ⟨hstarts, hstops⟩
  · exact .pure ⟨hstarts, hstops⟩
  · exact .pure ⟨hstarts, hstops⟩
  · exact hS.steady (Steady.tell _) fun _ => ⟨hstarts, hstops⟩

/-- Marks of one name are read, the second one by its name alone. -/
theorem concur_read (hS : S.Lax) (h : n.SameTuplets n') (hname : e.name = e'.name)
    (hidle : e'.IsIdleMark) : Concur S SameTuplets (read ratio? n e) (read ratio? n' e') := by
  unfold read
  rcases hidle with htied | harticulations | ⟨hslur, hunknown⟩
  · rw [hname, htied]
    exact .pure ⟨h.1, h.2⟩
  · rw [hname, harticulations]
    exact (hS.default (Comes.valuesOf Articulation.comes _)).bind fun _ _ _ => .pure ⟨h.1, h.2⟩
  · rw [hname, hslur]
    exact (hS.default ⟨_, Slur.comes_unknown hunknown⟩).bind fun _ _ _ => .pure ⟨h.1, h.2⟩

/-- The notations of a note start and stop the same tuplets, with other marks replaced. -/
theorem concur (hS : S.Lax) (ratio? : Option Ratio)
    (h : List.Forall₂ (fun c c' => c = c' ∨ c.name = c'.name ∧ c'.IsIdleMark)
      ((e.childrenNamed "notations").flatMap Element.children)
      ((e'.childrenNamed "notations").flatMap Element.children)) :
    Concur S SameTuplets (ofElement e ratio?) (ofElement e' ratio?) := by
  refine .foldlM (h.imp fun c c' hc n n' hn => ?_) ⟨rfl, rfl⟩
  rcases hc with rfl | ⟨hname, hidle⟩
  · exact concur_read_same hS hn c
  · exact concur_read hS hn hname hidle

end Notations

/-! ## Whole notes elements -/

/-- Where a value of a child is asked for and there is none, the child has no text. -/
theorem Markup.Element.childText?_eq_none {format : Text.Format α} {name : String}
    (h : e.childValue? format name = .ok none) : e.childText? name = none := by
  unfold childValue? value? at h
  unfold childText?
  generalize e.child? name = c? at h ⊢
  cases c? with
  | none => rfl
  | some c =>
    dsimp only at h
    rw [Option.bind_some]
    generalize c.text? = text? at h ⊢
    cases text? with
    | none => rfl
    | some raw =>
      dsimp only at h
      split at h
      · exact nomatch h
      · exact nomatch h

/-- What a note is displayed as is read whatever its words are. -/
theorem Display.comes (e : Element) : ∃ display?, Comes (Display.ofElement e) (some display?) := by
  unfold Display.ofElement
  split
  · exact ⟨_, (Comes.wordOrNone ..).bind (.pure _)⟩
  · exact ⟨_, .pure _⟩

/-- A tie is read whatever its words are. -/
theorem comes_tieOfWords (line : Nat) (words : List String) :
    ∃ tie?, Comes (tieOfWords line words) (some tie?) := by
  refine ⟨_,
    (Comes.mapM (g := fun word => tieWords.lookup word) (fun word => ?_) words).bind (.pure _)⟩
  split
  · next tie htie =>
    rw [htie]
    exact .pure _
  · next hnone =>
    rw [hnone]
    exact (Comes.find ..).bind (.pure _)

/-- The length of a note, with or without its type. -/
theorem Surroundings.noteLength_concur (hS : S.Lax) (s : Surroundings)
    {display? display'? : Option Display} (ratio? : Option Ratio)
    (hgrace : e'.has "grace" = e.has "grace")
    (hduration : e'.childValue? .i64 "duration" = e.childValue? .i64 "duration")
    (hline : e'.line = e.line)
    (htimed : display? = display'? ∨ e.has "grace" ∨ (e.childText? "duration").isSome) :
    Concur S Eq (s.noteLength e display? ratio?) (s.noteLength e' display'? ratio?) := by
  unfold noteLength
  rw [hgrace, hduration, hline]
  split
  · exact .pure rfl
  · next hgrace =>
    refine (Concur.given (Steady.ask _).blind hS.failure).bind ?_
    rintro divisions? _ ⟨rfl, hgives⟩
    dsimp only
    split
    · exact .refl (steady_wholeNotes ..).blind hS.failure
    · rcases htimed with rfl | hnot | htext
      · exact .refl ((Steady.find _ _ rfl).bind fun _ => .pure _).blind hS.failure
      · exact absurd hnot hgrace
      · rw [Element.childText?_eq_none hgives.ask] at htext
        exact nomatch htext

/-- The words of a note of which another one stands in the note. Such a note has the same place, and
joins the same tuplets and chords. -/
theorem Sketches.inputs {name : String} {R : Element → Element → Prop} {s t : Surroundings}
    (h : Element.Amended name R e e')
    (hname : name ∈ ["type", "pitch", "tie", "notations", "lyric"])
    (hplace : Concur Sketches.likeness.toStandard Eq (s.place e ⟨1, 1⟩) (t.place e ⟨1, 1⟩))
    (hlength : t.noteLength e' = s.noteLength e')
    (hpitch : Option.Rel
      (fun c c' => c = c' ∨ Element.Amended "step" (Element.Respelled word .text) c c')
      (e.child? "pitch") (e'.child? "pitch"))
    (hmarks : List.Forall₂ (fun c c' => c = c' ∨ c.name = c'.name ∧ c'.IsIdleMark)
      ((e.childrenNamed "notations").flatMap Element.children)
      ((e'.childrenNamed "notations").flatMap Element.children))
    (htimed : name = "type" → e.has "grace" ∨ (e.childText? "duration").isSome) :
    Concur Sketches.likeness.toStandard Sketches.likeness.Inputs (NoteInput.ofElement s e)
      (NoteInput.ofElement t e') := by
  have hS := Sketches.lax
  have hother : ∀ other, other ∉ ["type", "pitch", "tie", "notations", "lyric"] → other ≠ name := by
    rintro _ hnot rfl
    exact hnot hname
  have hratio : ratioOfElement e' = ratioOfElement e := by
    unfold ratioOfElement
    rw [h.child?_ne (hother _ (by decide))]
  have hplaced : t.place e' = t.place e := by
    funext current
    unfold Surroundings.place
    rw [h.childValue?_ne _ (hother _ (by decide)), h.childValue?_ne _ (hother _ (by decide)),
      h.line]
  have hdisplay : Concur Sketches.likeness.toStandard
      (fun display? display'? => display? = display'? ∨ e.has "grace" ∨
        (e.childText? "duration").isSome) (Display.ofElement e) (Display.ofElement e') := by
    by_cases htype : name = "type"
    · exact (hS.default (Display.comes e')).mono fun _ _ _ => .inr (htimed htype)
    · have hsame : Display.ofElement e' = Display.ofElement e := by
        unfold Display.ofElement
        rw [h.child?_ne fun heq => htype heq.symm, h.childrenNamed_ne (hother _ (by decide))]
      rw [hsame]
      exact (Concur.refl (Display.steady e).blind hS.failure).mono fun _ _ heq => .inl heq
  unfold NoteInput.ofElement
  rw [hplaced, hratio, h.has, h.has, h.has]
  refine hplace.bind ?_
  rintro key _ rfl
  refine (NoteContent.concur hS (h.child?_ne (hother _ (by decide)))
    (h.child?_ne (hother _ (by decide))) hpitch h.line).bind fun content content' hcontent => ?_
  refine hdisplay.bind fun display? display'? htime => ?_
  refine (Concur.refl (steady_ratioOfElement e).blind hS.failure).bind ?_
  rintro ratio? _ rfl
  rw [hlength]
  refine (s.noteLength_concur hS ratio? (h.has _) (h.childValue?_ne _ (hother _ (by decide))) h.line
    htime).bind ?_
  rintro length _ rfl
  refine (Notations.concur hS ratio? hmarks).bind fun notations notations' htuplets => ?_
  refine (hS.default (comes_tieOfWords ..)).bind fun tie? tie'? _ => ?_
  exact .pure
    { note := ⟨h.line.symm, hcontent, rfl⟩
      placed := fun _ _ _ => ⟨h.line.symm, hcontent, rfl⟩
      isRest := hcontent
      key := rfl
      inChord := rfl
      isGrace := rfl
      tupletStarts := htuplets.1
      tupletStops := htuplets.2
      belongs := by
        unfold NoteInput.belongsToTuplet
        dsimp only
        rw [htuplets.1, htuplets.2]
      lyrics := False.elim }

/-! ## Directions -/

/-- A tempo is read whatever its words are. -/
theorem Tempo.comes (e : Element) : ∃ tempo, Comes (Tempo.ofMetronome e) (some tempo) := by
  unfold Tempo.ofMetronome
  split
  · exact ⟨_, (Comes.pure none).bind (.pure _)⟩
  · exact ⟨_, (Comes.wordOrNone ..).bind (.pure _)⟩

/-- A wedge without a type is left out. -/
theorem Wedge.comes_unknown (h : isWordFor WedgeKind ((e.attr? "type").getD "") = false) :
    Comes (Wedge.ofElement e) (some none) := by
  have hunknown : (Vocabulary.ofWord? ((e.attr? "type").getD "") : Option WedgeKind) = none :=
    Option.not_isSome_iff_eq_none.mp (Bool.eq_false_iff.mp h)
  unfold Wedge.ofElement
  exact (hunknown ▸ Comes.wordOrNone ..).bind (.pure none)

/-- A direction type that is read whatever its words are: a tempo mark, or a mark for the next
note. -/
def Markup.Element.IsIdleDirection (e : Element) : Prop :=
  e.name = "metronome" ∨ e.name = "pedal" ∨
    e.name = "wedge" ∧ isWordFor WedgeKind ((e.attr? "type").getD "") = false

namespace DirectionContent

variable {d d' : DirectionContent} {placement? : Option Placement}

/-- Directions of the same kinds stand by themselves. -/
def SameKinds (d d' : DirectionContent) : Prop :=
  d.standing.map Direction.isTempo = d'.standing.map Direction.isTempo

/-- Directions that stand by themselves are alike if they are of the same kinds, for nothing of them
ends a reading. -/
theorem SameKinds.contents (h : d.SameKinds d') : Sketches.likeness.Contents d d' where
  marks _ := trivial
  standing := by
    have hlength := congrArg List.length h
    rw [List.length_map, List.length_map] at hlength
    exact List.forall₂_iff_zip.mpr ⟨hlength, fun _ => rfl⟩

/-- Directions of the same kinds stay so if one of the same kind comes to each. -/
theorem SameKinds.stand (h : d.SameKinds d') {direction direction' : Direction}
    (hkind : direction.isTempo = direction'.isTempo) :
    (d.stand direction).SameKinds (d'.stand direction') := by
  unfold SameKinds DirectionContent.stand
  rw [List.map_append, List.map_append, h, List.map_singleton, List.map_singleton, hkind]

/-- The tempo of a sound counts for the same directions. -/
theorem SameKinds.withSound (h : d.SameKinds d') (tempo? : Option String) :
    (d.withSound tempo?).SameKinds (d'.withSound tempo?) := by
  have hany : d.standing.any Direction.isTempo = d'.standing.any Direction.isTempo := by
    have hkinds := congrArg (List.any · id) h
    simpa only [List.any_map, Function.id_comp] using hkinds
  unfold DirectionContent.withSound
  split
  · rw [hany]
    split
    · exact h
    · exact h.stand rfl
  · exact h

/-- One direction type is read on both sides after directions of the same kinds, and these stay so.
-/
theorem concur_read_same (hS : S.Lax) (h : d.SameKinds d') (e : Element) :
    Concur S SameKinds (read placement? d e) (read placement? d' e) := by
  unfold read
  split
  · exact .pure h
  · exact hS.steady (Wedge.steady e) fun _ => h
  · exact .pure h
  · exact hS.steady (Steady.wordOrNone _ _ _ (by decide)) fun _ => h
  · exact hS.steady (Tempo.steady e) fun _ => h.stand rfl
  · exact .pure (h.stand rfl)
  · exact .pure (h.stand rfl)
  · exact .pure (h.stand rfl)
  · exact hS.steady (Steady.find _ _ rfl) fun _ => h

/-- Direction types of one name are read, the second one by its name alone. -/
theorem concur_read (hS : S.Lax) (h : d.SameKinds d') (hname : e.name = e'.name)
    (hidle : e'.IsIdleDirection) :
    Concur S SameKinds (read placement? d e) (read placement? d' e') := by
  unfold read
  rcases hidle with hmetronome | hpedal | ⟨hwedge, hunknown⟩
  · rw [hname, hmetronome]
    exact (hS.default (Tempo.comes e')).bind fun _ _ _ => .pure (h.stand rfl)
  · rw [hname, hpedal]
    exact (hS.default ⟨_, .wordOrNone ..⟩).bind fun _ _ _ => .pure h
  · rw [hname, hwedge]
    exact (hS.default ⟨_, Wedge.comes_unknown hunknown⟩).bind fun _ _ _ => .pure h

/-- Directions hold directions of the same kinds, with direction types replaced by others of their
names. -/
theorem concur (hS : S.Lax)
    (h : List.Forall₂ (fun c c' => c = c' ∨ c.name = c'.name ∧ c'.IsIdleDirection)
      ((e.childrenNamed "direction-type").flatMap Element.children)
      ((e'.childrenNamed "direction-type").flatMap Element.children))
    (hplacement : e'.attr? "placement" = e.attr? "placement")
    (hsound : e'.child? "sound" = e.child? "sound") :
    Concur S SameKinds (ofElement e) (ofElement e') := by
  unfold ofElement
  rw [hplacement, hsound]
  refine Concur.bind (A := SameKinds) ?_ fun d d' hd => .pure (hd.withSound _)
  refine .foldlM (h.imp fun c c' hc d d' hd => ?_) rfl
  rcases hc with rfl | ⟨hname, hidle⟩
  · exact concur_read_same hS hd c
  · exact concur_read hS hd hname hidle

end DirectionContent

end

end Partwise
