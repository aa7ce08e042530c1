import Mathlib.Data.List.Nodup
import Partwise.Proofs.Music.Content
import Partwise.Proofs.Reading.Views

/-!
# Music · Parts: what is heard of a part

Of a part there matter the music of every voice, how far every voice has come in the measure, and
what it remembers of its lyrics (`Singing`). `Part.Like` says that a part was changed in none of
these, `Part.Turns` that it was changed in one voice only and what this voice is now. A voice that
begins changes nothing that is heard, so it does not matter when it
begins. -/

namespace Partwise

/-! ## Music, cursors and songs -/

/-- What a voice remembers of its lyrics: the stanzas it has sung, how many slurs are open, and the
kind of the chunk that the outermost of them began on. -/
structure Singing where
  stanzas : List String := []
  slurDepth : Nat := 0
  slurOpening? : Option LyricKind := none

/-- What a voice remembers of its lyrics. -/
def Voice.singing (v : Voice) : Singing := ⟨v.stanzas, v.slurDepth, v.slurOpening?⟩

namespace Part

variable {p q t : Part} {key k : VoiceKey} {v : Voice} {f : Voice → Voice}

/-- The music of a voice of the part. -/
def music (p : Part) (key : VoiceKey) : List VoiceElement :=
  (p.voice? key).elim [] Voice.music

/-- How far a voice of the part has come in the measure. A voice that has not begun stands at the
start. -/
def cursor (p : Part) (key : VoiceKey) : WholeNotes :=
  (p.voice? key).elim 0 Voice.positionInMeasure

/-- What a voice of the part remembers of its lyrics. A voice that has not begun has sung
nothing. -/
def singing (p : Part) (key : VoiceKey) : Singing :=
  (p.voice? key).elim {} Voice.singing

/-- No two voices of the part have the same key. -/
def Keyed (p : Part) : Prop :=
  (p.voices.map Voice.key).Nodup

/-- A voice begins with signs only. -/
theorem music_newVoice (p : Part) (key : VoiceKey) : (p.newVoice key).music = [] := by
  have hsigns : ∀ es : List VoiceElement, (∀ e ∈ es, timed e.flatten = []) →
      timed (flattenElements es) = [] := by
    intro es hes
    induction es with
    | nil => rfl
    | cons e es ih =>
      rw [flattenElements, timed_append, hes e List.mem_cons_self,
        ih fun e he => hes e (List.mem_cons_of_mem _ he)]
      rfl
  apply hsigns _
  intro e he
  simp only [newVoice, Voice.empty, opening, List.nil_append, Option.toList_none, List.map_nil,
    List.mem_append, List.mem_map] at he
  rcases he with (⟨c, _, rfl⟩ | ⟨c, _, rfl⟩) | ⟨c, _, rfl⟩ <;> rfl

/-- The music of a voice of a part is that of the voice, or of a new one. -/
theorem music_eq (p : Part) (key : VoiceKey) : p.music key = (p.voiceOrNew key).music := by
  unfold music voiceOrNew
  cases p.voice? key with
  | none => exact (p.music_newVoice key).symm
  | some v => rfl

/-- A voice of a part stands where the voice does, or at the start if it is new. -/
theorem cursor_eq (p : Part) (key : VoiceKey) :
    p.cursor key = (p.voiceOrNew key).positionInMeasure := by
  unfold cursor voiceOrNew
  cases p.voice? key <;> rfl

/-- A voice of a part remembers what the voice does, or nothing if it is new. -/
theorem singing_eq (p : Part) (key : VoiceKey) :
    p.singing key = (p.voiceOrNew key).singing := by
  unfold singing voiceOrNew
  cases p.voice? key <;> rfl

/-- A voice of the part is found by its key. -/
theorem Keyed.voice?_of_mem (h : p.Keyed) (hv : v ∈ p.voices) : p.voice? v.key = some v := by
  have hsome : (p.voice? v.key).isSome := by
    rw [voice?, List.find?_isSome]
    exact ⟨v, hv, by simp⟩
  obtain ⟨w, hw⟩ := Option.isSome_iff_exists.mp hsome
  rw [hw, List.inj_on_of_nodup_map h (List.mem_of_find?_eq_some hw) hv (key_of_voice? hw)]

/-- The keys stay what they are when a new voice comes in. -/
theorem Keyed.ensureVoice (h : p.Keyed) (key : VoiceKey) : (p.ensureVoice key).Keyed := by
  unfold Part.ensureVoice
  split
  · exact h
  · next hnone =>
    have hnew : ∀ v ∈ p.voices, v.key ≠ (p.newVoice key).key := by
      intro v hv hkey
      apply hnone
      rw [voice?, List.find?_isSome]
      exact ⟨v, hv, by simp [hkey, key_newVoice]⟩
    have hperm := (perm_upsert VoiceKey.before Voice.key (p.newVoice key) hnew).map Voice.key
    rw [Keyed, hperm.nodup_iff, List.map_cons, List.nodup_cons]
    refine ⟨?_, h⟩
    intro hmem
    obtain ⟨v, hv, hkey⟩ := List.mem_map.mp hmem
    exact hnew v hv hkey

/-- The keys stay what they are when voices change and keep theirs. -/
theorem Keyed.of_map (h : p.Keyed) (hq : q.voices = p.voices.map f)
    (hf : ∀ v, (f v).key = v.key) : q.Keyed := by
  have hkeys : q.voices.map Voice.key = p.voices.map Voice.key := by
    rw [hq, List.map_map]
    exact List.map_congr_left fun v _ => hf v
  rw [Keyed, hkeys]
  exact h

end Part

/-! ## Changes that are not heard -/

/-- The voice is changed in nothing that is seen of it. -/
structure Voice.Like (v w : Voice) : Prop where
  key : w.key = v.key
  music : w.music = v.music
  position : w.positionInMeasure = v.positionInMeasure
  singing : w.singing = v.singing

/-- A voice is like itself in all that is seen of it. -/
theorem Voice.Like.refl (v : Voice) : v.Like v := ⟨rfl, rfl, rfl, rfl⟩

/-- The voice is changed in nothing that is seen of it, but may remember something else of its
lyrics. -/
structure Voice.Still (v w : Voice) : Prop where
  key : w.key = v.key
  music : w.music = v.music
  position : w.positionInMeasure = v.positionInMeasure

/-- A voice is like itself in what is seen of its music. -/
theorem Voice.Still.refl (v : Voice) : v.Still v := ⟨rfl, rfl, rfl⟩

/-- The music is what it was, if that of one voice changes in nothing else than in what the voice
remembers. -/
theorem Part.music_modifyVoice {p : Part} {key : VoiceKey} {f : Voice → Voice}
    (hf : ∀ v : Voice, v.key = key → v.Still (f v)) (k : VoiceKey) :
    (p.modifyVoice key f).music k = p.music k := by
  rw [music, music, voice?_modifyVoice fun v hv => (hf v hv).key.trans hv]
  split
  · next hk =>
    cases hv : p.voice? k with
    | none => rfl
    | some v => exact (hf v ((key_of_voice? hv).trans hk)).music
  · rfl

/-- The part is changed in nothing that is seen of it, and keeps all its voices. -/
structure Part.Like (p q : Part) : Prop where
  id : q.id = p.id
  music : ∀ key, q.music key = p.music key
  cursor : ∀ key, q.cursor key = p.cursor key
  singing : ∀ key, q.singing key = p.singing key
  voices : ∀ key, (p.voice? key).isSome → (q.voice? key).isSome
  keyed : p.Keyed → q.Keyed

namespace Part.Like

variable {p q t : Part} {key : VoiceKey} {f : Voice → Voice}

/-- All voices are changed in nothing that is seen of them; what else is changed is not seen. -/
theorem of_map (hid : q.id = p.id) (hq : q.voices = p.voices.map f)
    (hf : ∀ v : Voice, v.Like (f v)) : p.Like q := by
  have hvoice : ∀ key, q.voice? key = (p.voice? key).map f := by
    intro key
    rw [← voice?_mapVoices fun v => (hf v).key]
    simp only [voice?, hq, mapVoices]
  refine ⟨hid, ?_, ?_, ?_, ?_,
    fun hkeyed => hkeyed.of_map hq fun v => (hf v).key⟩
  · intro key
    rw [Part.music, Part.music, hvoice]
    cases p.voice? key with
    | none => rfl
    | some v => exact (hf v).music
  · intro key
    rw [Part.cursor, Part.cursor, hvoice]
    cases p.voice? key with
    | none => rfl
    | some v => exact (hf v).position
  · intro key
    rw [Part.singing, Part.singing, hvoice]
    cases p.voice? key with
    | none => rfl
    | some v => exact (hf v).singing
  · intro key
    rw [hvoice]
    simp

/-- A part of which all voices stay like themselves stays like itself. -/
theorem mapVoices (hf : ∀ v : Voice, v.Like (f v)) : p.Like (p.mapVoices f) :=
  of_map rfl rfl hf

/-- A part of which one voice stays like itself stays like itself. -/
theorem modifyVoice (hf : ∀ v : Voice, v.key = key → v.Like (f v)) :
    p.Like (p.modifyVoice key f) := by
  apply mapVoices
  intro v
  split
  · next hkey => exact hf v hkey
  · exact Voice.Like.refl v

/-- A voice that begins is silent. -/
theorem ensureVoice (p : Part) (key : VoiceKey) : p.Like (p.ensureVoice key) := by
  refine ⟨id_ensureVoice, ?_, ?_, ?_, ?_,
    fun hkeyed => hkeyed.ensureVoice key⟩
  · intro k
    by_cases hk : k = key
    · rw [music_eq p, Part.music, voice?_ensureVoice, if_pos hk, hk]
      rfl
    · rw [Part.music, Part.music, voice?_ensureVoice, if_neg hk]
  · intro k
    by_cases hk : k = key
    · rw [cursor_eq p, Part.cursor, voice?_ensureVoice, if_pos hk, hk]
      rfl
    · rw [Part.cursor, Part.cursor, voice?_ensureVoice, if_neg hk]
  · intro k
    by_cases hk : k = key
    · rw [singing_eq p, Part.singing, voice?_ensureVoice, if_pos hk, hk]
      rfl
    · rw [Part.singing, Part.singing, voice?_ensureVoice, if_neg hk]
  · intro k hk
    rw [voice?_ensureVoice]
    split
    · rfl
    · exact hk

end Part.Like

/-! ## Changes of one voice -/

/-- The part is changed in one voice, which is now `v`, and in nothing else that is seen of it. -/
structure Part.Turns (p q : Part) (key : VoiceKey) (v : Voice) : Prop where
  id : q.id = p.id
  here : q.voice? key = some v
  music : ∀ k, k ≠ key → q.music k = p.music k
  cursor : ∀ k, k ≠ key → q.cursor k = p.cursor k
  singing : ∀ k, k ≠ key → q.singing k = p.singing k
  voices : ∀ k, (p.voice? k).isSome → (q.voice? k).isSome
  keyed : p.Keyed → q.Keyed

namespace Part.Turns

variable {p q : Part} {key : VoiceKey} {v : Voice} {f : Voice → Voice}

/-- A voice is there, or it begins now. -/
theorem ensureVoice (p : Part) (key : VoiceKey) :
    p.Turns (p.ensureVoice key) key (p.voiceOrNew key) := by
  have hlike := Like.ensureVoice p key
  refine ⟨hlike.id, ?_, fun k _ => hlike.music k, fun k _ => hlike.cursor k,
    fun k _ => hlike.singing k, hlike.voices, hlike.keyed⟩
  rw [voice?_ensureVoice, if_pos rfl]

/-- A voice that is there stays. -/
theorem ensureVoice_self (h : p.Turns q key v) : q.ensureVoice key = q := by
  simp [Part.ensureVoice, h.here]

/-- The voice that a part was changed in is found in it. -/
theorem voiceOrNew_self (h : p.Turns q key v) : q.voiceOrNew key = v := by
  simp [Part.voiceOrNew, h.here]

/-- A part that turned into another one turns further when the same voice changes. -/
theorem modifyVoice (h : p.Turns q key v) (hf : ∀ w : Voice, w.key = key → (f w).key = key) :
    p.Turns (q.modifyVoice key f) key (f v) := by
  have hother : ∀ k, k ≠ key → (q.modifyVoice key f).voice? k = q.voice? k := by
    intro k hk
    rw [voice?_modifyVoice hf, if_neg hk]
  refine ⟨h.id, ?_, ?_, ?_, ?_, ?_, ?_⟩
  · rw [voice?_modifyVoice hf, if_pos rfl, h.here]
    rfl
  · intro k hk
    rw [← h.music k hk, Part.music, Part.music, hother k hk]
  · intro k hk
    rw [← h.cursor k hk, Part.cursor, Part.cursor, hother k hk]
  · intro k hk
    rw [← h.singing k hk, Part.singing, Part.singing, hother k hk]
  · intro k hk
    have hvoice := h.voices k hk
    rw [voice?_modifyVoice hf]
    split
    · simpa using hvoice
    · exact hvoice
  · intro hkeyed
    refine (h.keyed hkeyed).of_map rfl ?_
    intro w
    split
    · next hw => rw [hf w hw, hw]
    · rfl

/-- The part has the music of the voice that it was changed in. -/
theorem music_here (h : p.Turns q key v) : q.music key = v.music := by
  simp [Part.music, h.here]

/-- The voice that the part was changed in stands where it was put. -/
theorem cursor_here (h : p.Turns q key v) : q.cursor key = v.positionInMeasure := by
  simp [Part.cursor, h.here]

/-- The voice that the part was changed in remembers what it was given to remember. -/
theorem singing_here (h : p.Turns q key v) : q.singing key = v.singing := by
  simp [Part.singing, h.here]

end Part.Turns

end Partwise
