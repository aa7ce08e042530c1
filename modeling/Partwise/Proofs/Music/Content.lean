import Partwise.Proofs.Music.Words
import Partwise.Proofs.Repeats.Flattening
import Partwise.Score.Part
import Partwise.Voice.Chords
import Partwise.Reading.Assembly

/-!
# Music · Content: what stands in a voice and takes time

Notes, chords and tuplets take time; signs, directions and barlines stand between them. The music
of a voice is what takes time in it, in the order it is played in, `Voice.music`. Of every element
there matter its notes, as `Imprint`s, and the stretch of time that it covers, as a `Span`.

Three things happen to music: a note comes as an element of its own or within a new tuplet, a note
comes into the tuplet that stands last (`Receives`), or a note joins the chord that stands last
(`Joins`). Barlines leave music as it is, however they cut the repeats of a voice.
-/

namespace Partwise

/-! ## What takes time -/

/-- The element takes time. -/
def VoiceElement.isTimed : VoiceElement → Bool
  | note _ => true
  | chord _ => true
  | tuplet _ => true
  | _ => false

/-- The elements that take time. -/
def timed (es : List VoiceElement) : List VoiceElement :=
  es.filter VoiceElement.isTimed

@[simp] theorem timed_append (as bs : List VoiceElement) :
    timed (as ++ bs) = timed as ++ timed bs :=
  List.filter_append ..

/-- Implicit starts take no time. -/
theorem timed_played (es : List VoiceElement) : timed (played es) = timed es := by
  unfold timed played
  rw [List.filter_filter]
  apply List.filter_congr
  intro e _
  cases e <;> simp [VoiceElement.isTimed, VoiceElement.isImplicit]

mutual

/-- The notes of an element are those of its flattening. -/
theorem VoiceElement.notes_eq (e : VoiceElement) :
    e.notes = (timed e.flatten).flatMap VoiceElement.notes := by
  match e with
  | .repeated r => exact r.notes_eq
  | .note _ | .chord _ | .tuplet _ =>
    simp [VoiceElement.flatten, timed, List.filter_cons, VoiceElement.isTimed]
  | .barline _ | .clef _ | .key _ | .time _ | .direction _ | .barCheck _ =>
    simp [VoiceElement.notes, VoiceElement.flatten, timed, VoiceElement.isTimed]

/-- The notes of a repeat are those of its flattening. -/
theorem Repeat.notes_eq (r : Repeat) :
    r.notes = (timed r.flatten).flatMap VoiceElement.notes := by
  match r with
  | ⟨body, endings, _, _⟩ =>
    rw [Repeat.notes, notesOfElements_eq_flatten body, notesOfEndings_eq endings, Repeat.flatten,
      timed_append, List.flatMap_append]

/-- The notes of some elements are those of their flattening. -/
theorem notesOfElements_eq_flatten (es : List VoiceElement) :
    notesOfElements es = (timed (flattenElements es)).flatMap VoiceElement.notes := by
  match es with
  | [] => rfl
  | e :: es =>
    rw [notesOfElements, e.notes_eq, notesOfElements_eq_flatten es, flattenElements, timed_append,
      List.flatMap_append]

/-- The notes of some endings are those of their flattening. -/
theorem notesOfEndings_eq (endings : List Ending) :
    notesOfEndings endings = (timed (flattenEndings endings)).flatMap VoiceElement.notes := by
  match endings with
  | [] => rfl
  | ⟨_, _, chunk⟩ :: endings =>
    rw [notesOfEndings, notesOfElements_eq_flatten chunk, notesOfEndings_eq endings,
      flattenEndings, timed_append, List.flatMap_append]

end

/-! ## The music of a voice -/

namespace Voice

/-- What takes time in the voice, in the order of the music. -/
def music (v : Voice) : List VoiceElement :=
  timed v.flatten

/-- Where no repeat is pending, the notes of the voice are those of its music. -/
theorem notes_eq_music (v : Voice) (h : v.pending? = none) :
    v.notes = v.music.flatMap VoiceElement.notes := by
  rw [notes, settled, notesOfElements_eq_flatten, music, flatten, h]
  simp

/-- The music of a voice to which an element comes goes on with the music of that element. -/
theorem music_append (v : Voice) (e : VoiceElement) :
    (v.append e).music = v.music ++ timed e.flatten := by
  rw [music, flatten_append, timed_append]
  rfl

/-- A barline leaves music as it is. -/
@[simp] theorem music_takeBarline (v : Voice) (b : Barline) (explicitStart : Bool)
    (measure : String) : (v.takeBarline b explicitStart measure).1.music = v.music := by
  rw [music, ← timed_played, played_takeBarline, timed_append, timed_played, timed_played]
  simp [music, timed, VoiceElement.isTimed]

/-- The end of a part leaves music as it is. -/
@[simp] theorem music_endRepeats (v : Voice) (explicitStart : Bool) (measure : String) :
    (v.endRepeats explicitStart measure).1.music = v.music := by
  rw [music, ← timed_played, played_endRepeats, timed_played]
  rfl

/-- Where no repeat is pending, closing the open chunk leaves music as it is. -/
theorem music_flush (v : Voice) (h : v.pending? = none) : v.flush.music = v.music := by
  rw [music, flatten_flush v h]
  rfl

end Voice

/-! ## What singing changes -/

namespace Voice

/-- Slurs change nothing of a voice but what it remembers of its open slurs. -/
theorem markSlurs_eq (v : Voice) (slurs : List Slur) (kind : LyricKind) :
    ∃ depth opening?,
      v.markSlurs slurs kind = { v with slurDepth := depth, slurOpening? := opening? } := by
  have hfold : ∀ {f : Voice → Voice},
      (∀ v, ∃ depth opening?, f v = { v with slurDepth := depth, slurOpening? := opening? }) →
      ∀ (slurs : List Slur) (v : Voice), ∃ depth opening?,
        slurs.foldl (fun v _ => f v) v = { v with slurDepth := depth, slurOpening? := opening? } := by
    intro f hf slurs
    induction slurs with
    | nil => exact fun v => ⟨v.slurDepth, v.slurOpening?, rfl⟩
    | cons _ slurs ih =>
      intro v
      obtain ⟨_, _, hone⟩ := hf v
      obtain ⟨depth, opening?, hrest⟩ := ih (f v)
      refine ⟨depth, opening?, ?_⟩
      rw [List.foldl_cons, hrest, hone]
  obtain ⟨_, _, hstopped⟩ := hfold (f := stopSlur) (fun _ => ⟨_, _, rfl⟩)
    (slurs.filter fun s => s.kind = .stop) v
  obtain ⟨depth, opening?, hstarted⟩ := hfold (f := startSlur kind) (fun _ => ⟨_, _, rfl⟩)
    (slurs.filter fun s => s.kind = .start)
    ((slurs.filter fun s => s.kind = .stop).foldl (fun v _ => v.stopSlur) v)
  refine ⟨depth, opening?, ?_⟩
  rw [markSlurs, hstarted, hstopped]

/-- A note that sings changes nothing of a voice but what it remembers of stanzas and slurs. -/
theorem sing_eq (v : Voice) (n : Note) (lyrics : List Lyric) :
    ∃ stanzas depth opening?, (v.sing n lyrics).1 =
      { v with stanzas, slurDepth := depth, slurOpening? := opening? } := by
  obtain ⟨depth, opening?, hmarked⟩ := (v.learnStanzas lyrics).markSlurs_eq n.slurs
    (((v.learnStanzas lyrics).lyricChunks n lyrics).head?.elim
      ((v.learnStanzas lyrics).silentKind n) LyricChunk.kind)
  exact ⟨_, depth, opening?, hmarked⟩

end Voice

/-! ## Imprints and spans -/

/-- What a document says of a note, with the position that the note was given. -/
structure Imprint where
  content : NoteContent
  line : Nat
  position : WholeNotes
deriving DecidableEq, Repr

/-- The imprint of a note. -/
def Note.imprint (n : Note) : Imprint := ⟨n.content, n.line, n.positionInMeasure⟩

/-- The imprints of the notes of some elements. -/
def imprints (es : List VoiceElement) : List Imprint :=
  (es.flatMap VoiceElement.notes).map Note.imprint

/-- A stretch of time in a measure. -/
structure Span where
  position : WholeNotes
  length : WholeNotes
deriving DecidableEq, Repr

/-- Where a stretch of time ends. -/
def Span.stop (s : Span) : WholeNotes := s.position + s.length

/-- The stretch of time of an element; what takes no time stands nowhere. -/
def VoiceElement.span : VoiceElement → Span
  | .note n => ⟨n.positionInMeasure, n.soundingWholeNotes⟩
  | .chord c => ⟨c.positionInMeasure, c.soundingWholeNotes⟩
  | .tuplet t => ⟨t.positionInMeasure, t.soundingWholeNotes⟩
  | _ => ⟨0, 0⟩

/-- The stretches of time of some elements. -/
def spans (es : List VoiceElement) : List Span := es.map VoiceElement.span

@[simp] theorem imprints_append (as bs : List VoiceElement) :
    imprints (as ++ bs) = imprints as ++ imprints bs := by
  simp [imprints]

@[simp] theorem spans_append (as bs : List VoiceElement) : spans (as ++ bs) = spans as ++ spans bs :=
  List.map_append ..

/-! ## Notes that come -/

/-- The music takes in a note: as a new element that is nothing but this note, or into the element
that stands last. -/
inductive Receives (n : Note) : List VoiceElement → List VoiceElement → Prop
  | new {es : List VoiceElement} {e : VoiceElement} (notes : e.notes = [n])
      (span : e.span = ⟨n.positionInMeasure, n.soundingWholeNotes⟩) : Receives n es (es ++ [e])
  | more {es : List VoiceElement} {e e' : VoiceElement} (notes : e'.notes = e.notes ++ [n])
      (span : e'.span = ⟨e.span.position, e.span.length + n.soundingWholeNotes⟩) :
      Receives n (es ++ [e]) (es ++ [e'])

/-- A note comes into a voice without music as an element of its own. -/
theorem Receives.new_alone {n : Note} {e : VoiceElement} (notes : e.notes = [n])
    (span : e.span = ⟨n.positionInMeasure, n.soundingWholeNotes⟩) : Receives n [] [e] :=
  @new n [] e notes span

/-- A note comes into the only element there is if its notes and its length grow by it. -/
theorem Receives.more_alone {n : Note} {e e' : VoiceElement} (notes : e'.notes = e.notes ++ [n])
    (span : e'.span = ⟨e.span.position, e.span.length + n.soundingWholeNotes⟩) :
    Receives n [e] [e'] :=
  @more n [] e e' notes span

/-- A note that comes into some elements comes into them behind others as well. -/
theorem Receives.prepend {n : Note} {es es' : List VoiceElement} (h : Receives n es es')
    (before : List VoiceElement) : Receives n (before ++ es) (before ++ es') := by
  cases h with
  | new notes span =>
    rw [← List.append_assoc]
    exact .new notes span
  | more notes span =>
    rw [← List.append_assoc, ← List.append_assoc]
    exact .more notes span

/-- A note that comes leaves its imprint at the end. -/
theorem Receives.imprints_eq {n : Note} {es es' : List VoiceElement} (h : Receives n es es') :
    imprints es' = imprints es ++ [n.imprint] := by
  cases h with
  | new notes _ => simp [imprints, notes]
  | more notes _ => simp [imprints, notes]

/-- A note that comes covers a stretch of its own, or prolongs what stands last. -/
theorem Receives.spans_eq {n : Note} {es es' : List VoiceElement} (h : Receives n es es') :
    spans es' = spans es ++ [⟨n.positionInMeasure, n.soundingWholeNotes⟩] ∨
      ∃ before last, spans es = before ++ [last] ∧
        spans es' = before ++ [⟨last.position, last.length + n.soundingWholeNotes⟩] := by
  cases h with
  | new _ span => exact .inl (by simp [spans, span])
  | @more es e e' _ span =>
    exact .inr ⟨spans es, e.span, by simp [spans], by simp [spans, span]⟩

/-- The first note covers a stretch of its own. -/
theorem Receives.spans_of_nil {n : Note} {es' : List VoiceElement} (h : Receives n [] es') :
    spans es' = [⟨n.positionInMeasure, n.soundingWholeNotes⟩] := by
  rcases h.spans_eq with hnew | ⟨before, last, hnil, _⟩
  · exact hnew
  · simp [spans] at hnil

/-- The music takes in a note as a member of the chord that stands last. The note leaves an imprint
at the end, time is covered as before, and the word is the same. -/
structure Joins (n : Note) (es es' : List VoiceElement) : Prop where
  imprints_eq : ∃ position, imprints es' = imprints es ++ [⟨n.content, n.line, position⟩]
  spans_eq : spans es' = spans es
  word_eq : .hollow ∉ wordOf es → wordOf es' = wordOf es

/-- A note that joins some elements joins them behind others as well. -/
theorem Joins.prepend {n : Note} {es es' : List VoiceElement} (h : Joins n es es')
    (before : List VoiceElement) : Joins n (before ++ es) (before ++ es') := by
  obtain ⟨position, himprints⟩ := h.imprints_eq
  refine ⟨⟨position, by simp [himprints]⟩, by simp [h.spans_eq], fun hfull => ?_⟩
  rw [wordOf_append, List.mem_append, not_or] at hfull
  rw [wordOf_append, wordOf_append, h.word_eq hfull.2]

end Partwise
