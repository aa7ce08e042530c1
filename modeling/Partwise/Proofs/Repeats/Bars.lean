import Partwise.Proofs.Music.Folding
import Partwise.Proofs.Reading.Views
import Partwise.Voice.Singing

/-!
# Repeats · Bars: what barlines have made of a voice

Barlines take a voice apart into closed content, a pending repeat and an open chunk. All else that
happens to a voice leaves its `Voice.bars` as they are: elements come into the open chunk, and the
last of them may be changed, but none of them is a barline or a repeat. Such changes are `Silent`.
-/

namespace Partwise

/-- The closed content, the pending repeat, and of the open chunk the repeats in it and the barline
that it begins with. -/
def Voice.bars (v : Voice) : List VoiceElement × Option Repeat × List Repeat × Option Barline :=
  (v.elements, v.pending?, v.chunk.filterMap VoiceElement.repeat?, firstBarline? v.chunk)

/-- The element is neither a barline nor a repeat. -/
structure VoiceElement.Plain (e : VoiceElement) : Prop where
  barline : e.barline? = none
  repeated : e.repeat? = none

/-- A change of voices that leaves alone what barlines have made of them. -/
def Voice.Silent (f : Voice → Voice) : Prop :=
  ∀ v, (f v).key = v.key ∧ (f v).bars = v.bars

/-- A change of parts that leaves alone what barlines have made of their voices. -/
def Part.Silent (f : Part → Part) : Prop :=
  ∀ p, (f p).id = p.id ∧ ∀ key, ((f p).voice? key).map Voice.bars = (p.voice? key).map Voice.bars

/-- A change of passages that leaves the markers alone. -/
def Passage.Silent (f : Passage → Passage) : Prop :=
  ∀ q, (f q).markers = q.markers

/-- A change of passages that also lets the marks wait that wait for a note. -/
structure Passage.Calm (f : Passage → Passage) : Prop where
  silent : Passage.Silent f
  pending : ∀ q, (f q).pending = q.pending

/-- A first element that is no barline may come into an open chunk, and any element later. -/
theorem firstBarline?_append {chunk : List VoiceElement} {e : VoiceElement} (he : e.barline? = none) :
    firstBarline? (chunk ++ [e]) = firstBarline? chunk := by
  cases chunk with
  | nil => exact he
  | cons first rest => rfl

/-- A note joins no barline and no repeat, and what it joins is none afterwards. -/
theorem VoiceElement.plain_join {e joined : VoiceElement} {n : Note} {chordOpen : Bool}
    (h : e.join n chordOpen = .ok joined) : e.Plain ∧ joined.Plain := by
  unfold join at h
  split at h
  · split at h
    · cases h
    · cases h
      exact ⟨⟨rfl, rfl⟩, ⟨rfl, rfl⟩⟩
  · split at h
    · cases h
      exact ⟨⟨rfl, rfl⟩, ⟨rfl, rfl⟩⟩
    · cases h
  · obtain ⟨t', _, rfl⟩ := of_map_eq_ok h
    exact ⟨⟨rfl, rfl⟩, ⟨rfl, rfl⟩⟩
  · cases h

/-- A note that joins what stands last leaves the barlines and repeats of the chunk. -/
theorem bars_joinLast {chunk joined : List VoiceElement} {n : Note} {chordOpen : Bool}
    (h : joinLast n chordOpen chunk = .ok joined) :
    joined.filterMap VoiceElement.repeat? = chunk.filterMap VoiceElement.repeat? ∧
      firstBarline? joined = firstBarline? chunk := by
  induction chunk generalizing joined with
  | nil => exact nomatch h
  | cons e es ih =>
    unfold joinLast at h
    split at h
    · next heq => exact nomatch heq
    · next heq =>
      cases heq
      obtain ⟨e', hjoin, rfl⟩ := of_map_eq_ok h
      obtain ⟨he, he'⟩ := VoiceElement.plain_join hjoin
      exact ⟨by simp [he.repeated, he'.repeated], he'.barline.trans he.barline.symm⟩
    · next heq =>
      cases heq
      obtain ⟨rest, hrest, rfl⟩ := of_map_eq_ok h
      exact ⟨by simp only [List.filterMap_cons, (ih hrest).1], rfl⟩

namespace Voice.Silent

theorem append {e : VoiceElement} (he : e.Plain) : Voice.Silent fun v => v.append e := by
  intro v
  refine ⟨rfl, ?_⟩
  simp [bars, Voice.append, firstBarline?_append he.barline, he.repeated]

theorem markSlurs (slurs : List Slur) (kind : LyricKind) :
    Voice.Silent fun v => v.markSlurs slurs kind := by
  intro v
  obtain ⟨_, _, hmarked⟩ := v.markSlurs_eq slurs kind
  simp only [hmarked]
  exact ⟨rfl, rfl⟩

theorem sing {note : Note} {lyrics : List Lyric} :
    Voice.Silent fun v => (v.sing note lyrics).1 := by
  intro v
  obtain ⟨_, _, _, hsung⟩ := v.sing_eq note lyrics
  simp only [hsung]
  exact ⟨rfl, rfl⟩

end Voice.Silent

namespace Part.Silent

variable {f : Voice → Voice} {key : VoiceKey}

/-- A change of all voices is silent for their part, if it is silent for each voice. -/
theorem mapVoices (hf : Voice.Silent f) : Part.Silent fun p => p.mapVoices f := by
  refine fun p => ⟨rfl, fun key => ?_⟩
  rw [voice?_mapVoices fun v => (hf v).1, Option.map_map]
  congr 1
  funext v
  exact (hf v).2

/-- A change of the voices with a key is silent for their part, if it is silent for each voice. -/
theorem modifyVoice (hf : Voice.Silent f) : Part.Silent fun p => p.modifyVoice key f := by
  apply mapVoices
  intro v
  dsimp only
  split
  · exact hf v
  · exact ⟨rfl, rfl⟩

/-- What is known of the part besides its voices changes as well. -/
theorem mapVoices_of {g : Part → Part} (hid : ∀ p, (g p).id = p.id)
    (hvoices : ∀ p, (g p).voices = p.voices.map f) (hf : Voice.Silent f) : Part.Silent g := by
  refine fun p => ⟨hid p, fun key => ?_⟩
  have hvoice : (g p).voice? key = (p.mapVoices f).voice? key := by
    simp only [voice?, hvoices, Part.mapVoices]
  rw [hvoice]
  exact (mapVoices hf p).2 key

end Part.Silent

end Partwise
