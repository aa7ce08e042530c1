import Partwise.Intake.Barline
import Partwise.Intake.Lyric
import Partwise.Intake.Note
import Partwise.Intake.Signature
import Partwise.Proofs.Reading.Ends
import Partwise.Reading.PartList

/-!
# Reading · Decoders: what an element says does not depend on the journal

A decoder may write into the journal and never looks at it. `Steady` says so: it always comes to the
same and says the same on top of what was said before. `NoteInput.steady` proves it of the decoder
of notes, from the decoders of its parts upward, and the last sections of the decoders of
directions, barlines, attributes, lyrics and groups of parts. So `result` may run a decoder on an
empty journal: what it comes to there, it comes to in every run (`Gives.result`). `Comes` names what
that is, or says that it is
nothing. -/

namespace Partwise

open Markup

variable {α β : Type}

/-! ## Marks that were dropped -/

/-- Marks for which no note was found. -/
structure Drop where
  line : Nat
  marks : Attachments
  measure : String
deriving DecidableEq, Repr

/-- The marks that an entry says were dropped. -/
def Entry.drop? : Entry → Option Drop
  | .found line (.attachmentsDropped marks measure) => some ⟨line, marks, measure⟩
  | _ => none

/-- All that a journal says was dropped, first things first. -/
def Journal.drops (j : Journal) : List Drop :=
  j.reverse.filterMap Entry.drop?

/-- Of two journals one after the other, the earlier one has dropped what it has first. -/
theorem Journal.drops_append (said j : Journal) :
    Journal.drops (said ++ j) = Journal.drops j ++ Journal.drops said := by
  simp [drops]

/-- The finding is about the declarations of a part list. -/
def Finding.isOfPartList : Finding → Bool
  | unknownWord .partGroupType _ | groupNotOpen _ | groupNotClosed _ | duplicatePart _ => true
  | _ => false

/-- The finding is about how far voices go in a measure. -/
def Finding.isOfTime : Finding → Bool
  | backupBeforeMeasureStart _ _ _ | incompleteVoice _ _ _ _ _ => true
  | _ => false

/-- The entry says nothing of marks that were dropped, nothing of tuplets without members, nothing
of the declarations of a part list, and nothing of how far voices go. -/
def Entry.isPlain : Entry → Bool
  | .found _ (.attachmentsDropped _ _) => false
  | .found _ (.emptyTuplet _) => false
  | .found _ finding => !finding.isOfPartList && !finding.isOfTime
  | .event _ => true

/-- A word outside of a list is found plainly, if it is not the list for starts and stops of
groups. -/
theorem Entry.isPlain_unknownWord {list : WordList} (hlist : list ≠ .partGroupType) (line : Nat)
    (word : String) : (Entry.found line (.unknownWord list word)).isPlain = true := by
  cases list <;> first | rfl | exact absurd rfl hlist

/-- Nothing that is plain was dropped. -/
theorem Entry.drop?_of_isPlain {entry : Entry} (h : entry.isPlain = true) : entry.drop? = none := by
  unfold drop?
  split
  · exact nomatch h
  · rfl

/-- What is found about declarations was not dropped. -/
theorem Finding.drop?_of_isOfPartList {finding : Finding} (h : finding.isOfPartList = true)
    (line : Nat) : (Entry.found line finding).drop? = none := by
  cases finding <;> first | rfl | exact nomatch h

/-- Plain entries say of nothing that it was dropped. -/
theorem Journal.drops_of_isPlain {said : Journal} (h : ∀ entry ∈ said, entry.isPlain = true) :
    Journal.drops said = [] := by
  rw [drops, List.filterMap_eq_nil_iff]
  exact fun entry hentry => Entry.drop?_of_isPlain (h entry (List.mem_reverse.mp hentry))

/-! ## What documents are to blame for -/

/-- The document is to blame for the failure. No part was placed twice, nothing overflowed that was
not guarded, and a sum or difference that is said to be out of range is so. -/
def Failure.Due : Failure → Prop
  | .inconsistent _ (.partPlacedTwice _) => False
  | .overflow _ => False
  | .range _ (.sumOverflows position duration) => position.plus? duration = none
  | .range _ (.differenceOverflows position duration) => position.minus? duration = none
  | _ => True

/-! ## Results -/

/-- What a decoder comes to, if it does not fail. -/
def result (x : Journaled α) : Option α :=
  match (x.run.run []).1 with
  | .ok a => some a
  | .error _ => none

/-- What comes of it does not depend on the journal, and neither does what is said. -/
def Blind (x : Journaled α) : Prop :=
  ∃ outcome said, ∀ j, x.run.run j = (outcome, said ++ j)

/-- What is demanded is there on any journal, or on none. -/
theorem Blind.demand (x? : Option α) (failure : Failure) : Blind (Partwise.demand x? failure) := by
  cases x? with
  | some a => exact ⟨.ok a, [], fun _ => rfl⟩
  | none => exact ⟨.error failure, [], fun _ => rfl⟩

/-- To find something is blind to the journal. -/
theorem Blind.find (line : Nat) (finding : Finding) : Blind (Partwise.find line finding) :=
  ⟨.ok (), [.found line finding], fun _ => rfl⟩

/-- What the decoder comes to does not depend on the journal, and neither does what it says, which
is plain. If it fails, the document is to blame. -/
structure Steady (x : Journaled α) : Prop where
  runs : ∃ outcome said, (∀ j, x.run.run j = (outcome, said ++ j)) ∧
    ∀ entry ∈ said, entry.isPlain = true
  due : ∀ j failure, (x.run.run j).1 = .error failure → failure.Due

/-- What a steady decoder comes to and says does not depend on the journal. -/
theorem Steady.blind {x : Journaled α} (hx : Steady x) : Blind x := by
  obtain ⟨outcome, said, hrun, _⟩ := hx.runs
  exact ⟨outcome, said, hrun⟩

/-- A steady decoder comes to the same on any two journals. -/
theorem Steady.same {x : Journaled α} (hx : Steady x) (j j' : Journal) :
    (x.run.run j).1 = (x.run.run j').1 := by
  obtain ⟨outcome, said, hrun, _⟩ := hx.runs
  rw [hrun, hrun]

/-- What a steady decoder comes to in some run is its result. -/
theorem Gives.result {x : Journaled α} {a : α} (h : Gives x a) (hx : Steady x) :
    Partwise.result x = some a := by
  obtain ⟨j, j', hrun⟩ := h
  have hfst : (x.run.run []).1 = .ok a := by rw [hx.same [] j, hrun]
  simp [Partwise.result, hfst]

/-- A result is come to on an empty journal. -/
theorem gives_of_result {x : Journaled α} {a : α} (h : result x = some a) : Gives x a := by
  unfold result at h
  split at h
  · next b hrun =>
    cases h
    exact ⟨[], _, Prod.ext hrun rfl⟩
  · exact nomatch h

namespace Steady

/-- A decoder that only gives a value is steady. -/
theorem pure (a : α) : Steady (Pure.pure a) := ⟨⟨.ok a, [], fun _ => rfl, nofun⟩, nofun⟩

/-- A decoder that fails is steady if the document is to blame. -/
theorem throw (failure : Failure) (h : failure.Due) :
    Steady (throw failure : Journaled α) := by
  refine ⟨⟨.error failure, [], fun _ => rfl, nofun⟩, ?_⟩
  rintro j _ ⟨⟩
  exact h

/-- A decoder that finds something plain is steady. -/
theorem find (line : Nat) (finding : Finding)
    (h : (Entry.found line finding).isPlain = true) : Steady (Partwise.find line finding) :=
  ⟨⟨.ok (), [.found line finding], fun _ => rfl, by simpa using h⟩, nofun⟩

/-- A decoder that tells an event is steady. -/
theorem tell (e : Event) : Steady (Partwise.tell e) :=
  ⟨⟨.ok (), [.event e], fun _ => rfl, by simp [Entry.isPlain]⟩, nofun⟩

/-- A value that is asked for is steady: the document is to blame for whatever is wrong with it. -/
theorem ask (x : Except Fault α) : Steady (Partwise.ask x) := by
  cases x with
  | ok a => exact pure a
  | error fault => exact throw _ trivial

/-- A value that is demanded is steady if the document is to blame where it is missing. -/
theorem demand (x? : Option α) (failure : Failure) (h : x? = none → failure.Due) :
    Steady (Partwise.demand x? failure) := by
  cases x? with
  | some a => exact pure a
  | none => exact throw _ (h rfl)

/-- A steady decoder, and what follows on the value that it comes to. -/
theorem bind_gives {x : Journaled α} {f : α → Journaled β} (hx : Steady x)
    (hf : ∀ a, Gives x a → Steady (f a)) : Steady (x >>= f) := by
  obtain ⟨failure | a, said, hrun, hkept⟩ := hx.runs
  · have hfails : ∀ j, (x >>= f).run.run j = (.error failure, said ++ j) := by
      intro j
      rw [ExceptT.run_bind, StateT.run_bind, hrun]
      rfl
    refine ⟨⟨.error failure, said, hfails, hkept⟩, fun j failure' h => ?_⟩
    rw [hfails] at h
    cases h
    exact hx.due j failure (by rw [hrun])
  · have hrest : Steady (f a) := hf a ⟨[], _, hrun []⟩
    obtain ⟨outcome, said', hrun', hkept'⟩ := hrest.runs
    have hgoes : ∀ j, (x >>= f).run.run j = (f a).run.run (said ++ j) := by
      intro j
      rw [ExceptT.run_bind, StateT.run_bind, hrun]
      rfl
    refine ⟨⟨outcome, said' ++ said, fun j => ?_, fun entry hentry =>
      (List.mem_append.mp hentry).elim (hkept' entry) (hkept entry)⟩,
      fun j failure h => hrest.due _ failure (hgoes j ▸ h)⟩
    rw [hgoes, hrun', List.append_assoc]

/-- Steady decoders stay steady one after the other. -/
theorem bind {x : Journaled α} {f : α → Journaled β} (hx : Steady x) (hf : ∀ a, Steady (f a)) :
    Steady (x >>= f) :=
  hx.bind_gives fun a _ => hf a

/-- A steady decoder stays so under a function of its value. -/
theorem map {x : Journaled α} (hx : Steady x) (f : α → β) : Steady (f <$> x) := by
  rw [map_eq_pure_bind]
  exact hx.bind fun a => pure (f a)

/-- Steady decoders, one for each element of a list, are steady together. -/
theorem mapM {f : α → Journaled β} (hf : ∀ a, Steady (f a)) (as : List α) :
    Steady (as.mapM f) := by
  induction as with
  | nil => exact pure []
  | cons a as ih =>
    rw [List.mapM_cons]
    exact (hf a).bind fun b => ih.bind fun bs => pure (b :: bs)

/-- A fold of steady decoders is steady. -/
theorem foldlM {f : β → α → Journaled β} (hf : ∀ b a, Steady (f b a)) (as : List α) (b : β) :
    Steady (as.foldlM f b) := by
  induction as generalizing b with
  | nil => exact pure b
  | cons a as ih =>
    rw [List.foldlM_cons]
    exact (hf b a).bind ih

/-- A word that is in no list is found and replaced. -/
theorem wordOr [Vocabulary α] (line : Nat) (list : WordList) (default : α) (word : String)
    (hlist : list ≠ .partGroupType) : Steady (Partwise.wordOr line list default word) := by
  unfold Partwise.wordOr
  split
  · exact pure _
  · exact (find _ _ (Entry.isPlain_unknownWord hlist ..)).bind fun _ => pure _

/-- A word of an attribute that may be missing. -/
theorem attrWord [Vocabulary α] (e : Element) (name : String) (line : Nat) (list : WordList)
    (default : α) (hlist : list ≠ .partGroupType) :
    Steady (Partwise.attrWord e name line list default) := by
  unfold Partwise.attrWord
  split
  · exact pure none
  · exact (wordOr _ _ _ _ hlist).map _

/-- A word that is in no list is found and left out. -/
theorem wordOrNone [Vocabulary α] (line : Nat) (list : WordList) (word : String)
    (hlist : list ≠ .partGroupType) :
    Steady (Partwise.wordOrNone (α := α) line list word) := by
  unfold Partwise.wordOrNone
  split
  · exact pure _
  · exact (find _ _ (Entry.isPlain_unknownWord hlist ..)).bind fun _ => pure _

end Steady

/-! ## What decoders come to -/

/-- From any journal the decoder comes to the value, or to nothing. -/
structure Comes (x : Journaled α) (o : Option α) : Prop where
  run : ∀ j, (x.run.run j).1.toOption = o

namespace Comes

/-- A decoder that only gives a value comes to it. -/
theorem pure (a : α) : Comes (Pure.pure a) (some a) := ⟨fun _ => rfl⟩

/-- A decoder that fails comes to nothing. -/
theorem throw (failure : Failure) : Comes (MonadExcept.throw failure : Journaled α) none :=
  ⟨fun _ => rfl⟩

/-- What is found keeps no decoder from its value. -/
theorem find (line : Nat) (finding : Finding) : Comes (Partwise.find line finding) (some ()) :=
  ⟨fun _ => rfl⟩

/-- What is told keeps no decoder from its value. -/
theorem tell (e : Event) : Comes (Partwise.tell e) (some ()) := ⟨fun _ => rfl⟩

/-- A value that is asked for is come to if nothing is wrong with it. -/
theorem ask (x : Except Fault α) : Comes (Partwise.ask x) x.toOption := by
  cases x with
  | ok a => exact pure a
  | error fault => exact throw _

/-- A decoder that comes to a value, and what follows on it. -/
theorem bind {x : Journaled α} {f : α → Journaled β} {a : α} {o : Option β} (hx : Comes x (some a))
    (hf : Comes (f a) o) : Comes (x >>= f) o := by
  refine ⟨fun j => ?_⟩
  have hrun := hx.run j
  rw [ExceptT.run_bind, StateT.run_bind]
  generalize x.run.run j = run at hrun
  obtain ⟨_ | b, j'⟩ := run
  · exact nomatch hrun
  · cases hrun
    exact hf.run j'

/-- Nothing follows on nothing. -/
theorem bind_none {x : Journaled α} (f : α → Journaled β) (hx : Comes x none) :
    Comes (x >>= f) none := by
  refine ⟨fun j => ?_⟩
  have hrun := hx.run j
  rw [ExceptT.run_bind, StateT.run_bind]
  generalize x.run.run j = run at hrun
  obtain ⟨_ | b, j'⟩ := run
  · rfl
  · exact nomatch hrun

/-- A decoder under a function comes to the function of its value. -/
theorem map {x : Journaled α} {a : α} (hx : Comes x (some a)) (f : α → β) :
    Comes (f <$> x) (some (f a)) := by
  rw [map_eq_pure_bind]
  exact hx.bind (pure _)

/-- Decoders that each come to a value come to all of them. -/
theorem mapM {f : α → Journaled β} {g : α → β} (hf : ∀ a, Comes (f a) (some (g a))) (as : List α) :
    Comes (as.mapM f) (some (as.map g)) := by
  induction as with
  | nil => exact pure []
  | cons a as ih =>
    rw [List.mapM_cons]
    exact (hf a).bind (ih.bind (pure _))

/-- A word outside of its list stands for the default. -/
theorem wordOr [Vocabulary α] (line : Nat) (list : WordList) (default : α) (word : String) :
    Comes (Partwise.wordOr line list default word)
      (some ((Vocabulary.ofWord? word).getD default)) := by
  unfold Partwise.wordOr
  rcases (Vocabulary.ofWord? word : Option α) with _ | a
  · exact (find _ _).bind (pure _)
  · exact pure a

/-- A word outside of its list stands for nothing. -/
theorem wordOrNone [Vocabulary α] (line : Nat) (list : WordList) (word : String) :
    Comes (Partwise.wordOrNone (α := α) line list word) (some (Vocabulary.ofWord? word)) := by
  unfold Partwise.wordOrNone
  rcases (Vocabulary.ofWord? word : Option α) with _ | a
  · exact (find _ _).bind (pure _)
  · exact pure (some a)

/-- An attribute with a word outside of its list stands for the default. -/
theorem attrWord [Vocabulary α] (e : Element) (name : String) (line : Nat) (list : WordList)
    (default : α) : Comes (Partwise.attrWord e name line list default)
      (some ((e.attr? name).map fun word => (Vocabulary.ofWord? word).getD default)) := by
  unfold Partwise.attrWord
  rcases e.attr? name with _ | word
  · exact pure none
  · exact (wordOr ..).map some

/-- What a decoder comes to in some run, it comes to from any journal. -/
theorem of_gives {x : Journaled α} {o : Option α} {a : α} (hx : Comes x o) (h : Gives x a) :
    o = some a := by
  obtain ⟨j, j', hrun⟩ := h
  rw [← hx.run j, hrun]
  rfl

end Comes

/-- A value that was asked for is the one that was there. -/
theorem Gives.ask {x : Except Fault α} {a : α} (h : Gives (Partwise.ask x) a) : x = .ok a := by
  have hx := (Comes.ask x).of_gives h
  cases x with
  | ok b => exact congrArg Except.ok (Option.some.inj hx)
  | error fault => exact nomatch hx

/-! ## Places and durations -/

namespace Surroundings

/-- A number of staves is checked steadily, if the document is to blame where it is out of range. -/
theorem steady_staffCount (line : Nat) {notPositive tooLarge : Int → RangeFault}
    (hnotPositive : ∀ n, (Failure.range line (notPositive n)).Due)
    (htooLarge : ∀ n, (Failure.range line (tooLarge n)).Due) (n : Int) :
    Steady (staffCount line notPositive tooLarge n) := by
  unfold staffCount
  split
  · exact .throw _ (hnotPositive n)
  · split
    · exact .throw _ (htooLarge n)
    · exact .pure _

/-- The place of an element is decoded steadily. -/
theorem steady_place (s : Surroundings) (e : Element) (default : VoiceKey) :
    Steady (s.place e default) := by
  unfold place
  refine (Steady.ask _).bind ?_
  intro staff?
  dsimp only
  -- the voice is read in the same way whether the staff was named or not
  split
  all_goals
    refine Steady.bind ?_ fun staff => (Steady.ask _).bind ?_
    · first
      | exact .pure _
      | exact steady_staffCount _ (fun _ => by trivial) (fun _ => by trivial) _
    · intro voice?
      split
      · exact (Steady.pure _).bind fun _ => .pure _
      · split
        · refine (Steady.throw _ ?_).bind fun _ => .pure _
          trivial
        · exact (Steady.pure _).bind fun _ => .pure _

/-- A count of divisions is turned into time steadily. -/
theorem steady_wholeNotes (s : Surroundings) (line : Nat) (divisions : Int) :
    Steady (s.wholeNotes line divisions) := by
  unfold wholeNotes
  split
  · exact .throw _ trivial
  · exact .pure _

/-- The duration of an element is decoded steadily. -/
theorem steady_duration (s : Surroundings) (e : Element) : Steady (s.duration e) :=
  (Steady.ask _).bind fun _ => s.steady_wholeNotes ..

/-- The length of a note is decoded steadily. -/
theorem steady_noteLength (s : Surroundings) (e : Element) (display? : Option Display)
    (ratio? : Option Ratio) : Steady (s.noteLength e display? ratio?) := by
  unfold noteLength
  split
  · exact .pure _
  · refine (Steady.ask _).bind ?_
    intro divisions?
    split
    · exact s.steady_wholeNotes ..
    · exact (Steady.find _ _ rfl).bind fun _ => .pure _

end Surroundings

/-- What decoders see of a part: its divisions and which voices it has. -/
def Part.outline (p : Part) : Nat × List VoiceKey :=
  (p.divisionsPerWhole, p.voices.map Voice.key)

/-- The first voice on a staff is found in the outline. -/
theorem Part.head?_voicesOn (p : Part) (staff : Nat) :
    ((p.voicesOn staff).head?).map Voice.number =
      ((p.outline.2.filter fun key => key.staff = staff).head?).map VoiceKey.voice := by
  rw [outline, List.filter_map, List.head?_map, Option.map_map]
  rfl

/-- Which voices have begun is seen in the outline. -/
theorem Part.isSome_voice? (p : Part) (key : VoiceKey) :
    (p.voice? key).isSome = p.outline.2.any fun k => k = key := by
  rw [voice?, List.isSome_find?, outline, List.any_map]
  rfl

namespace Surroundings

variable {s t : Surroundings}

/-- The first voices on staves are the same for parts that have the same voices. -/
theorem firstVoiceOn_congr (hpart : (s.part?.map fun p => p.outline.2) =
    t.part?.map fun p => p.outline.2) : s.firstVoiceOn = t.firstVoiceOn := by
  funext staff
  unfold firstVoiceOn
  rcases hs : s.part? with _ | p <;> rcases ht : t.part? with _ | q <;> rw [hs, ht] at hpart
  · exact nomatch hpart
  · exact nomatch hpart
  · have hkeys : p.outline.2 = q.outline.2 := Option.some.inj hpart
    rw [Option.bind_some, Option.bind_some, p.head?_voicesOn, q.head?_voicesOn, hkeys]

/-- Places are the same for parts of the same outline. -/
theorem place_congr (hgreatest : s.greatestVoice = t.greatestVoice)
    (hpart : s.part?.map Part.outline = t.part?.map Part.outline) : s.place = t.place := by
  have hkeys : ∀ s : Surroundings, (s.part?.map fun p => p.outline.2) =
      (s.part?.map Part.outline).map Prod.snd := fun s => by
    rw [Option.map_map]
    rfl
  have hfirst : s.firstVoiceOn = t.firstVoiceOn :=
    firstVoiceOn_congr (by rw [hkeys s, hkeys t, hpart])
  unfold place
  rw [hfirst, hgreatest]

/-- Lengths are the same in parts of the same divisions. -/
theorem wholeNotes_congr
    (hpart : s.part?.map Part.divisionsPerWhole = t.part?.map Part.divisionsPerWhole) :
    s.wholeNotes = t.wholeNotes := by
  funext line divisions
  unfold wholeNotes
  rcases hs : s.part? with _ | p <;> rcases ht : t.part? with _ | q <;> rw [hs, ht] at hpart
  · exact nomatch hpart
  · exact nomatch hpart
  · have hdivisions : p.divisionsPerWhole = q.divisionsPerWhole := Option.some.inj hpart
    simp only [hdivisions]

/-- Durations are the same for parts of the same outline. -/
theorem duration_congr (hpart : s.part?.map Part.outline = t.part?.map Part.outline) :
    s.duration = t.duration := by
  have hdivisions : ∀ s : Surroundings, s.part?.map Part.divisionsPerWhole =
      (s.part?.map Part.outline).map Prod.fst := fun s => by
    rw [Option.map_map]
    rfl
  have hlength : s.wholeNotes = t.wholeNotes :=
    wholeNotes_congr (by rw [hdivisions s, hdivisions t, hpart])
  unfold duration
  rw [hlength]

end Surroundings

/-! ## Notes -/

/-- Pitches are decoded steadily. -/
theorem Pitch.steady (e : Element) : Steady (Pitch.ofElement e) := by
  refine (Steady.wordOr _ _ _ _ (by decide)).bind fun step => (Steady.ask _).bind ?_
  intro semitones?
  dsimp only
  split
  · exact (Steady.pure _).bind fun _ => (Steady.ask _).bind fun _ => .pure _
  · exact (Steady.find _ _ rfl).bind fun _ => (Steady.pure _).bind fun _ =>
      (Steady.ask _).bind fun _ => .pure _

/-- The content of notes is decoded steadily. -/
theorem NoteContent.steady (e : Element) : Steady (NoteContent.ofElement e) := by
  unfold NoteContent.ofElement
  split
  · exact .pure _
  · exact (Steady.ask _).bind fun _ => .pure _
  · exact (Pitch.steady _).map _
  · exact .throw _ trivial

/-- The display of notes is decoded steadily. -/
theorem Display.steady (e : Element) : Steady (Display.ofElement e) := by
  unfold Display.ofElement
  split
  · exact (Steady.wordOrNone _ _ _ (by decide)).bind fun _ => .pure _
  · exact .pure _

/-- Time modifications are decoded steadily. -/
theorem steady_ratioOfElement (e : Element) : Steady (ratioOfElement e) := by
  unfold ratioOfElement
  split
  · exact (Steady.ask _).bind fun _ => (Steady.ask _).bind fun _ => .pure _
  · exact .pure _

/-! ## Notations -/

/-- Slurs are decoded steadily. -/
theorem Slur.steady (e : Element) : Steady (Slur.ofElement e) := by
  refine (Steady.wordOrNone _ _ _ (by decide)).bind ?_
  intro kind?
  split
  · exact .pure _
  · exact (Steady.ask _).bind fun _ => .pure _

/-- The numbers of notes in a tuplet mark are decoded steadily. -/
theorem steady_tupletNumber? (e : Element) (name : String) : Steady (tupletNumber? e name) := by
  unfold tupletNumber?
  split
  · exact .pure _
  · exact .ask _

/-- The starts of tuplets are decoded steadily. -/
theorem TupletStart.steady (e : Element) (ratio? : Option Ratio) :
    Steady (TupletStart.ofElement e ratio?) :=
  (Steady.ask _).bind fun _ => (steady_tupletNumber? ..).bind fun _ =>
    (steady_tupletNumber? ..).bind fun _ => .pure _

/-- Articulations are decoded steadily. -/
theorem Articulation.steady (e : Element) : Steady (Articulation.ofElement e) := by
  unfold Articulation.ofElement
  split
  · exact .pure _
  · exact (Steady.find _ _ rfl).bind fun _ => .pure _

/-- Ornaments are decoded steadily. -/
theorem Ornament.steady (e : Element) : Steady (Ornament.ofElement e) := by
  unfold Ornament.ofElement
  split
  · exact (Steady.ask _).bind fun _ => .pure _
  · split
    · exact .pure _
    · exact (Steady.tell _).bind fun _ => .pure _

/-- Values of elements are decoded steadily if each of them is. -/
theorem steady_valuesOf {read : Element → Journaled (Option α)} (h : ∀ e, Steady (read e))
    (es : List Element) : Steady (valuesOf read es) :=
  (Steady.mapM h es).bind fun _ => .pure _

namespace Notations

/-- One element of a note's notations is decoded steadily. -/
theorem steady_read (ratio? : Option Ratio) (n : Notations) (e : Element) :
    Steady (read ratio? n e) := by
  unfold read
  split
  · exact .pure _
  · exact (Slur.steady e).bind fun _ => .pure _
  · split
    · exact (TupletStart.steady e ratio?).bind fun _ => .pure _
    · exact .pure _
    · exact (Steady.find _ _ rfl).bind fun _ => .pure _
  · exact (steady_valuesOf Articulation.steady _).bind fun _ => .pure _
  · exact (steady_valuesOf Ornament.steady _).bind fun _ => .pure _
  · exact .pure _
  · exact .pure _
  · exact (Steady.tell _).bind fun _ => .pure _

/-- The notations of a note are decoded steadily. -/
theorem steady (e : Element) (ratio? : Option Ratio) : Steady (ofElement e ratio?) :=
  .foldlM (steady_read ratio?) _ _

end Notations

/-- The words of ties are decoded steadily. -/
theorem steady_tieOfWords (line : Nat) (words : List String) : Steady (tieOfWords line words) := by
  refine (Steady.mapM (?_) words).bind fun _ => .pure _
  intro word
  split
  · exact .pure _
  · exact (Steady.find _ _ rfl).bind fun _ => .pure _

/-- **A note element** says the same whatever was said before. -/
theorem NoteInput.steady (s : Surroundings) (e : Element) : Steady (NoteInput.ofElement s e) :=
  (s.steady_place e _).bind fun _ => (NoteContent.steady e).bind fun _ =>
    (Display.steady e).bind fun _ => (steady_ratioOfElement e).bind fun _ =>
    (s.steady_noteLength e ..).bind fun _ => (Notations.steady e _).bind fun _ =>
    (steady_tieOfWords ..).bind fun _ => .pure _

/-- What a note element says sounds or is written. -/
theorem NoteContent.visible {e : Element} {content : NoteContent}
    (h : Gives (ofElement e) content) : content.isInvisible = false := by
  unfold ofElement at h
  split at h
  · rw [h.pure]
    rfl
  · obtain ⟨octave?, _, hpure⟩ := h.bind
    rw [hpure.pure]
    rfl
  · rw [map_eq_pure_bind] at h
    obtain ⟨pitch, _, hpure⟩ := h.bind
    rw [hpure.pure]
    rfl
  · exact absurd h not_gives_throw

/-- Grace notes take no time. -/
theorem Surroundings.noteLength_of_grace {s : Surroundings} {e : Element} {length : WholeNotes}
    {display? : Option Display} {ratio? : Option Ratio} (hgrace : e.has "grace" = true)
    (h : Gives (s.noteLength e display? ratio?) length) : length = 0 := by
  unfold noteLength at h
  rw [if_pos hgrace] at h
  exact h.pure

/-- What is known of every note that an element says. -/
structure NoteInput.Proper (input : NoteInput) : Prop where
  visible : input.note.content.isInvisible = false
  timeless : input.isGrace = true → input.note.soundingWholeNotes = 0
  kind : input.note.kind = .standalone
  /-- The element itself has no marks for the note. -/
  bare : input.note.attachments = ∅
  /-- The note has not sung yet. -/
  unsung : input.note.lyrics = []

/-- What a note element says is proper. -/
theorem NoteInput.proper {s : Surroundings} {e : Element} {input : NoteInput}
    (h : Gives (ofElement s e) input) : input.Proper := by
  obtain ⟨key, _, hrest₁⟩ := h.bind
  obtain ⟨content, hcontent, hrest₂⟩ := hrest₁.bind
  obtain ⟨display?, _, hrest₃⟩ := hrest₂.bind
  obtain ⟨ratio?, _, hrest₄⟩ := hrest₃.bind
  obtain ⟨length, hlength, hrest₅⟩ := hrest₄.bind
  obtain ⟨notations, _, hrest₆⟩ := hrest₅.bind
  obtain ⟨tie?, _, hpure⟩ := hrest₆.bind
  rw [hpure.pure]
  exact ⟨NoteContent.visible hcontent,
    fun hgrace => Surroundings.noteLength_of_grace hgrace hlength, rfl, rfl, rfl⟩

/-! ## Directions -/

/-- Tempos are decoded steadily. -/
theorem Tempo.steady (e : Element) : Steady (Tempo.ofMetronome e) := by
  unfold Tempo.ofMetronome
  split
  · exact (Steady.pure _).bind fun _ => .pure _
  · exact (Steady.wordOrNone _ _ _ (by decide)).bind fun _ => .pure _

/-- Wedges are decoded steadily. -/
theorem Wedge.steady (e : Element) : Steady (Wedge.ofElement e) := by
  refine (Steady.wordOrNone _ _ _ (by decide)).bind ?_
  intro kind?
  split
  · exact .pure _
  · exact (Steady.ask _).bind fun _ => .pure _

namespace DirectionContent

/-- One element of a direction is decoded steadily. -/
theorem steady_read (placement? : Option Placement) (d : DirectionContent) (e : Element) :
    Steady (read placement? d e) := by
  unfold read
  split
  · exact .pure _
  · exact (Wedge.steady e).bind fun _ => .pure _
  · exact .pure _
  · exact (Steady.wordOrNone _ _ _ (by decide)).bind fun _ => .pure _
  · exact (Tempo.steady e).bind fun _ => .pure _
  · exact .pure _
  · exact .pure _
  · exact .pure _
  · exact (Steady.find _ _ rfl).bind fun _ => .pure _

/-- Directions are decoded steadily. -/
theorem steady (e : Element) : Steady (ofElement e) :=
  (Steady.foldlM (steady_read _) _ _).bind fun _ => .pure _

end DirectionContent

/-! ## Barlines -/

namespace Markup.Element

/-- How often the repeat of a barline is played, where that is said. -/
def repeatTimes? (e : Element) : Except Fault (Option Nat) :=
  match e.child? "repeat" with
  | none => .ok none
  | some sign => sign.attrValue? .u32 "times"

/-- The part that a barline plays, if it plays one. Words that are in no list are passed over. -/
def barlineRole? (e : Element) : Option BarlineCategory :=
  BarlineCategory.classify? (((e.attr? "location").bind Vocabulary.ofWord?).getD .right)
    (((e.child? "repeat").bind (·.attr? "direction")).bind Vocabulary.ofWord?)
    (((e.child? "ending").bind (·.attr? "type")).bind Vocabulary.ofWord?)
    (e.childText? "bar-style").isSome

end Markup.Element

/-- A barline is decoded by steady looks at its element, one after the other, of which only that for
how often its repeat is played may fail. Then the decoder fails, or comes to a barline that stands
in the document, as the barline plays a part or does not. -/
theorem Barline.decoded {K : Journaled Barline → Prop} (e : Element) (measure : String)
    (hlook : ∀ {α : Type} {x : Journaled α} {f : α → Journaled Barline} {a : α},
      Steady x → Comes x (some a) → K (f a) → K (x >>= f))
    (htimes : ∀ {f : Option Nat → Journaled Barline},
      (∀ times?, e.repeatTimes? = .ok times? → K (f times?)) → K (ask e.repeatTimes? >>= f))
    (hthrow : ∀ failure : Failure, failure.Due → e.barlineRole? = none →
      K (throw failure))
    (hpure : ∀ b times?, b.isImplicit = false → e.repeatTimes? = .ok times? →
      e.barlineRole? = some b.category → K (pure b)) :
    K (Barline.ofElement e measure) := by
  refine hlook (Steady.attrWord _ _ _ _ _ (by decide)) (.attrWord ..) ?_
  -- after each of the five looks the rest is the same whether anything was seen or not
  extract_lets location ending sign withStyle
  have hlocation : location = ((e.attr? "location").bind Vocabulary.ofWord?).getD .right := by
    unfold location
    cases e.attr? "location" <;> rfl
  have hsign : e.child? "repeat" = sign := rfl
  have hending : e.child? "ending" = ending := rfl
  clear_value ending sign
  have hstyle : ∀ style?, style?.isSome = (e.childText? "bar-style").isSome →
      K (withStyle style?) := by
    intro style? hstyle
    unfold withStyle
    extract_lets withEnding
    have hwithEnding : K (withEnding ((ending.bind (·.attr? "type")).bind Vocabulary.ofWord?)) := by
      unfold withEnding
      extract_lets withRepeat
      have hrepeat : K (withRepeat ((sign.bind (·.attr? "direction")).bind Vocabulary.ofWord?)) := by
        unfold withRepeat
        extract_lets withWinged
        have hwinged : ∀ winged?, K (withWinged winged?) := by
          intro winged?
          unfold withWinged
          extract_lets withTimes
          have htimes' : ∀ times?, e.repeatTimes? = .ok times? → K (withTimes times?) := by
            intro times? hok
            unfold withTimes
            have hrole : e.barlineRole? = BarlineCategory.classify? location
                ((sign.bind (·.attr? "direction")).bind Vocabulary.ofWord?)
                ((ending.bind (·.attr? "type")).bind Vocabulary.ofWord?) style?.isSome := by
              rw [Element.barlineRole?, hlocation, hstyle, hsign, hending]
            split
            · next category hcategory => exact hpure _ times? rfl hok (hrole.trans hcategory)
            · next hnone => exact hthrow _ trivial (hrole.trans (Option.eq_none_iff_forall_ne_some.mpr hnone))
          have hask := htimes htimes'
          rw [Element.repeatTimes?, hsign] at hask
          cases sign with
          | none => exact hask
          | some sign => exact hask
        split
        · exact hlook (Steady.pure _) (.pure _) (hwinged _)
        · exact hlook (Steady.attrWord _ _ _ _ _ (by decide)) (.attrWord ..) (hwinged _)
      split
      · next hnone =>
        rw [hnone] at hrepeat
        exact hlook (Steady.pure _) (.pure _) hrepeat
      · next word hword =>
        rw [hword] at hrepeat
        exact hlook (Steady.wordOrNone _ _ _ (by decide)) (.wordOrNone ..) hrepeat
    split
    · next hnone =>
      rw [hnone] at hwithEnding
      exact hlook (Steady.pure _) (.pure _) hwithEnding
    · next word hword =>
      rw [hword] at hwithEnding
      exact hlook (Steady.wordOrNone _ _ _ (by decide)) (.wordOrNone ..) hwithEnding
  split
  · next hnone => exact hlook (Steady.pure _) (.pure _) (hstyle _ (by rw [hnone]; rfl))
  · next word hword =>
    exact hlook ((Steady.wordOr _ _ _ _ (by decide)).map _) ((Comes.wordOr ..).map _)
      (hstyle _ (by rw [hword]; rfl))

/-- Barlines are decoded steadily. -/
theorem Barline.steady (e : Element) (measure : String) : Steady (Barline.ofElement e measure) := by
  refine decoded (K := Steady) e measure ?_ ?_ (fun _ h _ => .throw _ h) fun _ _ _ _ _ => .pure _
  · intro α x f a hx ha hf
    refine hx.bind_gives fun b hb => ?_
    cases ha.of_gives hb
    exact hf
  · intro f hf
    refine (Steady.ask _).bind_gives fun times? htimes => hf times? ?_
    exact htimes.ask

/-- A barline that is decoded stands in the document and plays a part. -/
theorem Barline.of_gives {e : Element} {measure : String} {b : Barline}
    (h : Gives (Barline.ofElement e measure) b) :
    b.isImplicit = false ∧ e.barlineRole? = some b.category := by
  have hall : ∀ b, Gives (Barline.ofElement e measure) b →
      b.isImplicit = false ∧ e.barlineRole? = some b.category := by
    refine decoded (K := fun x => ∀ b, Gives x b → b.isImplicit = false ∧
      e.barlineRole? = some b.category) e measure ?_ ?_ ?_ ?_
    · intro α x f a _ ha hf b h
      obtain ⟨a', hx, hrest⟩ := h.bind
      cases ha.of_gives hx
      exact hf b hrest
    · intro f hf b h
      obtain ⟨times?, htimes, hrest⟩ := h.bind
      exact hf times? htimes.ask b hrest
    · exact fun _ _ _ _ h => absurd h not_gives_throw
    · intro b _ hb _ hrole b' h
      rw [h.pure]
      exact ⟨hb, hrole⟩
  exact hall b h

/-- **A barline** is decoded if its repeat is played a number of times and it plays a part. -/
theorem Barline.comes (e : Element) (measure : String) :
    ∃ b?, Comes (Barline.ofElement e measure) b? ∧
      (b?.isSome ↔ (∃ times?, e.repeatTimes? = .ok times?) ∧ e.barlineRole?.isSome) := by
  refine decoded (K := fun x => ∃ b?, Comes x b? ∧
    (b?.isSome ↔ (∃ times?, e.repeatTimes? = .ok times?) ∧ e.barlineRole?.isSome)) e measure
    ?_ ?_ ?_ ?_
  · rintro α x f a _ ha ⟨b?, hf, hb?⟩
    exact ⟨b?, ha.bind hf, hb?⟩
  · intro f hf
    rcases htimes : e.repeatTimes? with fault | times?
    · exact ⟨none, (Comes.ask _).bind_none f, by simp⟩
    · obtain ⟨b?, hf, hb?⟩ := hf times? htimes
      exact ⟨b?, (Comes.ask _).bind hf, by rwa [← htimes]⟩
  · exact fun failure _ hrole => ⟨none, .throw failure, by simp [hrole]⟩
  · exact fun b times? _ htimes hrole => ⟨some b, .pure b, by simp [htimes, hrole]⟩

/-- A barline that is read stands in the document. -/
theorem Barline.isImplicit_ofElement {e : Element} {measure : String} {b : Barline}
    (h : Gives (Barline.ofElement e measure) b) : b.isImplicit = false :=
  (of_gives h).1

/-! ## Attributes, lyrics and groups -/

/-- Divisions are decoded steadily. -/
theorem steady_divisionsOfElement (e : Element) : Steady (divisionsOfElement e) := by
  refine (Steady.ask _).bind ?_
  intro perQuarter?
  split
  · split
    · exact .throw _ trivial
    · split
      · exact .throw _ trivial
      · exact .pure _
  · exact .throw _ trivial

/-- Keys are decoded steadily. -/
theorem Key.steady (e : Element) : Steady (Key.ofElement e) := by
  refine (Steady.ask _).bind fun fifths? => ?_
  split
  · exact (Steady.pure _).bind fun _ => .pure _
  · exact (Steady.wordOr _ _ _ _ (by decide)).bind fun _ => .pure _

/-- Times are decoded steadily. -/
theorem Time.steady (e : Element) : Steady (Time.ofElement e) := by
  refine (Steady.attrWord _ _ _ _ _ (by decide)).bind fun symbol? => ?_
  dsimp only
  split
  · exact .pure _
  · exact (Steady.ask _).bind fun _ => .pure _

/-- Numbers of staves are decoded steadily. -/
theorem steady_staffCountOfElement (e : Element) : Steady (staffCountOfElement e) :=
  (Steady.ask _).bind fun _ =>
    Surroundings.steady_staffCount _ (fun _ => by trivial) (fun _ => by trivial) _

/-- Clefs are decoded steadily. -/
theorem Clef.steady (e : Element) : Steady (Clef.ofElement e) := by
  refine (Steady.ask _).bind fun number? => ?_
  extract_lets _ withStaff
  have hstaff : ∀ staff, Steady (withStaff staff) := by
    intro staff
    refine (Steady.ask _).bind fun line? => ?_
    dsimp only
    split
    · exact (Steady.pure _).bind fun _ => (Steady.ask _).bind fun _ => .pure _
    · exact (Steady.find _ _ rfl).bind fun _ => (Steady.pure _).bind fun _ =>
        (Steady.ask _).bind fun _ => .pure _
  split
  · exact (Steady.pure _).bind hstaff
  · exact (Surroundings.steady_staffCount _ (fun _ => by trivial) (fun _ => by trivial) _).bind hstaff

/-- Lyrics are decoded steadily. -/
theorem Lyric.steady (e : Element) : Steady (Lyric.ofElement e) := by
  unfold Lyric.ofElement
  dsimp only
  split
  · exact ((Steady.wordOr _ _ _ _ (by decide)).map _).bind fun _ => .pure _
  · exact (Steady.pure _).bind fun _ => .pure _

/-- The starts of groups are decoded steadily. -/
theorem PartGroup.steady (e : Element) (number : String) :
    Steady (PartGroup.ofElement e number) := by
  unfold PartGroup.ofElement
  extract_lets symbolElement group withSymbol
  clear_value symbolElement
  have hsymbol : ∀ symbol, Steady (withSymbol symbol) := by
    intro symbol
    unfold withSymbol
    extract_lets withKey
    split
    · exact (Steady.pure _).bind fun _ => .pure _
    · exact (Steady.ask _).bind fun _ => .pure _
  split
  · exact (Steady.pure _).bind hsymbol
  · exact (Steady.wordOr _ _ _ _ (by decide)).bind hsymbol

end Partwise
