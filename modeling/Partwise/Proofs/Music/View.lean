import Partwise.Proofs.Music.Folding
import Partwise.Proofs.Music.Parts

/-!
# Music · View: what is heard of a reading

Of a reading there matter the music of every voice, with what is still held in open tuplets, what
every voice remembers of its lyrics, how far every voice of the current part has come in the
measure, where the document stands, and which voice is current. That is its `View`.

Most steps leave the view as it is: signs, directions, marks, barlines, checks and whatever is only
told. `Quiet r s` says that a step from `r` to `s` is of this kind; a step that is `Hushed` may let
a voice remember something else. `Reading.Sound` is the invariant of all readings that the views
rest on: parts and voices are known by their keys, and open tuplets belong to one voice, which has
come as far as the
document. -/

namespace Partwise

/-! ## Views -/

/-- What is heard of a reading. -/
@[ext]
structure View where
  partId? : Option String
  music : String → VoiceKey → List VoiceElement
  singing : String → VoiceKey → Singing
  cursor : VoiceKey → WholeNotes
  position : WholeNotes
  current : VoiceKey

/-- What the open tuplets hold for a voice. -/
def Passage.held (p : Passage) (key : VoiceKey) : List VoiceElement :=
  if p.tupletKey? = some key then openMusic p.tuplets else []

namespace Reading

/-- The music of a voice, with what open tuplets still hold. -/
def music (r : Reading) (id : String) (key : VoiceKey) : List VoiceElement :=
  (r.partOf id).elim [] (Part.music · key) ++
    if r.partId? = some id then r.passage.held key else []

/-- What a voice of a part remembers of its lyrics. -/
def singing (r : Reading) (id : String) (key : VoiceKey) : Singing :=
  (r.partOf id).elim {} (Part.singing · key)

/-- How far a voice of the current part has come in the measure. -/
def cursor (r : Reading) (key : VoiceKey) : WholeNotes :=
  r.part?.elim 0 (Part.cursor · key)

/-- Where a voice of a part stands in its measure, also while another part is being read or none. A
voice that has not begun stands at the start. -/
def positionOf (r : Reading) (id : String) (key : VoiceKey) : WholeNotes :=
  (r.partOf id).elim 0 (Part.cursor · key)

/-- In the part that is being read it stands where the cursor is. -/
theorem positionOf_current {r : Reading} {id : String} (h : r.partId? = some id) (key : VoiceKey) :
    r.positionOf id key = r.cursor key := by
  rw [positionOf, cursor, part?_eq, h, Option.bind_some]

/-- Voices of the same parts stand at the same positions. -/
theorem positionOf_congr {r s : Reading} {id : String} (h : s.partOf id = r.partOf id)
    (key : VoiceKey) : s.positionOf id key = r.positionOf id key := by
  rw [positionOf, positionOf, h]

/-- What is heard of a reading. -/
def view (r : Reading) : View where
  partId? := r.partId?
  music := r.music
  singing := r.singing
  cursor := r.cursor
  position := r.passage.position
  current := r.passage.current

/-! ## Invariants -/

/-- The open tuplets belong to one voice. It has begun and has come as far as the document, and the
innermost tuplet is not empty. -/
structure HoldsTuplets (r : Reading) (key : VoiceKey) : Prop where
  sameVoice : ∀ t ∈ r.passage.tuplets, t.key = key
  members : ∀ t, r.passage.tuplets.head? = some t → t.members ≠ []
  reached : r.passage.position ≤ r.cursor key
  begun : ∃ part, r.part? = some part ∧ (part.voice? key).isSome

/-- Parts and voices are known by their keys, and open tuplets belong to one voice. -/
structure Sound (r : Reading) : Prop where
  ids : (r.parts.map Part.id).Nodup
  keyed : ∀ id p, r.partOf id = some p → p.Keyed
  tuplets : ∀ key, r.passage.tupletKey? = some key → r.HoldsTuplets key

/-- Outside of the current part no repeat is pending. -/
def Closed (r : Reading) : Prop :=
  ∀ id p, r.partId? ≠ some id → r.partOf id = some p → ∀ v ∈ p.voices, v.pending? = none

end Reading

/-! ## Readings that become others -/

namespace Becomes

variable {r s : Reading} {part part' : Part} {q : Passage} {key : VoiceKey} {id : String}

/-- The music of the current part is that of the part it has become. -/
theorem music_here (h : Becomes r s part q) (key : VoiceKey) :
    s.music part.id key = part.music key ++ q.held key := by
  rw [Reading.music, h.here, h.same_partId, if_pos h.partId, h.passage]
  rfl

/-- The music of another part is what it was. -/
theorem music_other (h : Becomes r s part q) (hid : id ≠ part.id) (key : VoiceKey) :
    s.music id key = r.music id key := by
  have hne : r.partId? ≠ some id := by
    rw [h.partId]
    exact fun heq => hid (Option.some.inj heq).symm
  rw [Reading.music, Reading.music, h.others id hid, h.same_partId, if_neg hne, if_neg hne]

/-- The music is what it was, if the current part and the open tuplets say the same of it. -/
theorem music_same (h : Becomes r s part' q) (hpart : r.part? = some part) (hsame : part'.id = part.id)
    (id : String) (hhere : id = part.id →
      part'.music key ++ q.held key = part.music key ++ r.passage.held key) :
    s.music id key = r.music id key := by
  by_cases hid : id = part.id
  · have hmusic := h.music_here key
    rw [hsame] at hmusic
    rw [hid, hmusic, (refl hpart).music_here, hhere hid]
  · exact h.music_other (by rwa [hsame]) key

/-- A voice of the current part remembers what it does in the part it has become. -/
theorem singing_here (h : Becomes r s part q) (key : VoiceKey) :
    s.singing part.id key = part.singing key := by
  rw [Reading.singing, h.here]
  rfl

/-- A voice of another part remembers what it did. -/
theorem singing_other (h : Becomes r s part q) (hid : id ≠ part.id) (key : VoiceKey) :
    s.singing id key = r.singing id key := by
  rw [Reading.singing, Reading.singing, h.others id hid]

/-- Voices remember what they did, if those of the current part do. -/
theorem singing_same (h : Becomes r s part' q) (hpart : r.part? = some part)
    (hsame : part'.id = part.id) (id : String)
    (hhere : id = part.id → part'.singing key = part.singing key) :
    s.singing id key = r.singing id key := by
  by_cases hid : id = part.id
  · have hsinging := h.singing_here key
    rw [hsame] at hsinging
    rw [hid, hsinging, (refl hpart).singing_here, hhere hid]
  · exact h.singing_other (by rwa [hsame]) key

/-- Voices have come as far as they have in the part it has become. -/
theorem cursor (h : Becomes r s part q) (key : VoiceKey) : s.cursor key = part.cursor key := by
  rw [Reading.cursor, h.part?]
  rfl

/-- The keys are kept if the current part keeps them. -/
theorem sound (h : Becomes r s part' q) (hr : r.Sound) (hpart : r.part? = some part)
    (hkeyed : part.Keyed → part'.Keyed)
    (htuplets : ∀ key, q.tupletKey? = some key → s.HoldsTuplets key) : s.Sound := by
  refine ⟨by rw [h.ids]; exact hr.ids, ?_, ?_⟩
  · intro id p hp
    by_cases hid : id = part'.id
    · rw [hid, h.here] at hp
      obtain ⟨id₀, _, hfound⟩ := Option.bind_eq_some_iff.mp (r.part?_eq ▸ hpart)
      rw [← Option.some.inj hp]
      exact hkeyed (hr.keyed id₀ part hfound)
    · rw [h.others id hid] at hp
      exact hr.keyed id p hp
  · intro key hkey
    rw [h.passage] at hkey
    exact htuplets key hkey

/-- What happens in the current part does not open repeats in others. -/
theorem closed (h : Becomes r s part q) (hr : r.Closed) : s.Closed := by
  intro id p hid hp
  have hne : id ≠ part.id := by
    rintro rfl
    exact hid (h.same_partId.trans h.partId)
  rw [h.others id hne] at hp
  exact hr id p (h.same_partId ▸ hid) hp

end Becomes

/-! ## Quiet steps -/

/-- No tuplet is opened for another voice: those that are open after the step were open before it,
or they belong to the same voice. -/
def TupletsGoOn (r s : Reading) : Prop :=
  s.passage.tuplets = [] ∨ s.passage.tupletKey? = r.passage.tupletKey?

/-- If tuplets go on in two steps, they go on in both together. -/
theorem TupletsGoOn.trans {r s t : Reading} (h : TupletsGoOn r s) (h' : TupletsGoOn s t) :
    TupletsGoOn r t := by
  rcases h' with hnone | hsame
  · exact .inl hnone
  · rcases h with hnone | hsame'
    · exact .inl (by simpa [Passage.tupletKey?, hnone] using hsame)
    · exact .inr (hsame.trans hsame')

/-- The step is not heard, but voices may remember something else of their lyrics. -/
structure Hushed (r s : Reading) : Prop where
  view : s.view = { r.view with singing := s.singing }
  sound : s.Sound
  closed : r.Closed → s.Closed
  tuplets : TupletsGoOn r s

/-- The step is not heard: the view is as it was, and no tuplet was opened. -/
structure Quiet (r s : Reading) : Prop where
  view : s.view = r.view
  sound : s.Sound
  closed : r.Closed → s.Closed
  tuplets : TupletsGoOn r s

namespace Hushed

variable {r s t : Reading} {part part' : Part} {q : Passage} {line : Nat} {key : VoiceKey}
  {u : Unit}

/-- What is not heard leaves all music as it is. -/
theorem music (h : Hushed r s) : s.music = r.music := congrArg View.music h.view

/-- What is not heard leaves the same voice current. -/
theorem current (h : Hushed r s) : s.passage.current = r.passage.current :=
  congrArg View.current h.view

/-- A part in which only songs are changed, and a passage that stands where it stood. -/
theorem of_becomes (hr : r.Sound) (hpart : r.part? = some part) (h : Becomes r s part' q)
    (hid : part'.id = part.id) (hmusic : ∀ key, part'.music key = part.music key)
    (hcursor : ∀ key, part'.cursor key = part.cursor key)
    (hvoices : ∀ key, (part.voice? key).isSome → (part'.voice? key).isSome)
    (hkeyed : part.Keyed → part'.Keyed) (hposition : q.position = r.passage.position)
    (hcurrent : q.current = r.passage.current) (htuplets : q.tuplets = r.passage.tuplets) :
    Hushed r s := by
  have hrefl := Becomes.refl hpart
  have hkey : q.tupletKey? = r.passage.tupletKey? := by simp [Passage.tupletKey?, htuplets]
  have hcursor : ∀ key, s.cursor key = r.cursor key := fun key => by
    rw [h.cursor, hrefl.cursor, hcursor]
  refine ⟨?_, h.sound hr hpart hkeyed ?_, h.closed, ?_⟩
  · have hmusic : s.music = r.music := by
      funext id key
      refine h.music_same hpart hid id fun _ => ?_
      rw [hmusic, Passage.held, Passage.held, hkey, htuplets]
    ext1
    · exact h.same_partId
    · exact hmusic
    · rfl
    · exact funext hcursor
    · exact (congrArg Passage.position h.passage).trans hposition
    · exact (congrArg Passage.current h.passage).trans hcurrent
  · intro key htuplet
    obtain ⟨hsame, hmembers, hreached, begun, hbegun, hvoice⟩ := hr.tuplets key (hkey ▸ htuplet)
    rw [hpart] at hbegun
    cases hbegun
    refine ⟨?_, ?_, ?_, part', h.part?, hvoices key hvoice⟩
    · rw [h.passage, htuplets]
      exact hsame
    · rw [h.passage, htuplets]
      exact hmembers
    · rw [h.passage, hposition, hcursor]
      exact hreached
  · exact .inr (by rw [h.passage, hkey])

/-- What is not heard in two steps is not heard in both together. -/
theorem trans (h : Hushed r s) (h' : Hushed s t) : Hushed r t :=
  ⟨h'.view.trans (by rw [h.view]), h'.sound, fun hr => h'.closed (h.closed hr),
    h.tuplets.trans h'.tuplets⟩

/-- Where voices remember what they did, the step is quiet. -/
theorem quiet (h : Hushed r s) (hsinging : s.singing = r.singing) : Quiet r s :=
  ⟨h.view.trans (by rw [hsinging]; rfl), h.sound, h.closed, h.tuplets⟩

end Hushed

namespace Quiet

variable {r s t : Reading} {part part' : Part} {q : Passage} {line : Nat} {key : VoiceKey}
  {u : Unit}

/-- Where nothing happens, nothing is heard. -/
theorem refl (hr : r.Sound) : Quiet r r := ⟨rfl, hr, fun h => h, .inr rfl⟩

/-- Two quiet steps are quiet together. -/
theorem trans (h : Quiet r s) (h' : Quiet s t) : Quiet r t :=
  ⟨h'.view.trans h.view, h'.sound, fun hr => h'.closed (h.closed hr), h.tuplets.trans h'.tuplets⟩

/-- A quiet step is not heard, and voices remember the same lyrics. -/
theorem hushed (h : Quiet r s) : Hushed r s := by
  have hsinging : s.singing = r.singing := congrArg View.singing h.view
  exact ⟨by rw [h.view, hsinging]; rfl, h.sound, h.closed, h.tuplets⟩

/-- After a quiet step the same part is read. -/
theorem partId (h : Quiet r s) : s.partId? = r.partId? := congrArg View.partId? h.view

/-- A quiet step leaves the music of every voice as it is. -/
theorem music (h : Quiet r s) (id : String) (key : VoiceKey) : s.music id key = r.music id key :=
  congrFun (congrFun (congrArg View.music h.view) id) key

/-- A quiet step leaves what voices remember of their lyrics. -/
theorem singing (h : Quiet r s) : s.singing = r.singing := congrArg View.singing h.view

/-- A quiet step leaves every voice where it stands. -/
theorem cursor (h : Quiet r s) (key : VoiceKey) : s.cursor key = r.cursor key :=
  congrFun (congrArg View.cursor h.view) key

/-- A quiet step leaves the document at its position. -/
theorem position (h : Quiet r s) : s.passage.position = r.passage.position :=
  congrArg View.position h.view

/-- A quiet step leaves the same voice current. -/
theorem current (h : Quiet r s) : s.passage.current = r.passage.current :=
  congrArg View.current h.view

/-- A part that is changed in nothing that is heard, and a passage that stands where it stood. -/
theorem of_becomes (hr : r.Sound) (hpart : r.part? = some part) (h : Becomes r s part' q)
    (hlike : part.Like part') (hposition : q.position = r.passage.position)
    (hcurrent : q.current = r.passage.current) (htuplets : q.tuplets = r.passage.tuplets) :
    Quiet r s := by
  refine (Hushed.of_becomes hr hpart h hlike.id hlike.music hlike.cursor hlike.voices hlike.keyed
    hposition hcurrent htuplets).quiet ?_
  funext id key
  exact h.singing_same hpart hlike.id id fun _ => hlike.singing key

/-- The current part is changed in nothing that is heard. -/
theorem changePart (hr : r.Sound) {f : Part → Part}
    (h : Ends (Partwise.changePart line f) r u s) (hf : ∀ p : Part, p.Like (f p)) :
    Quiet r s := by
  obtain ⟨part, hpart, _⟩ := h.changePart
  have hbecomes := (Becomes.refl hpart).changePart h (hf part).id
  exact of_becomes hr hpart hbecomes (hf part) rfl rfl rfl

/-- A voice is looked at, and begins if it is not there. -/
theorem voiceAt (hr : r.Sound) {v : Voice} (h : Ends (Partwise.voiceAt line key) r v s) :
    Quiet r s := by
  obtain ⟨part, _, hcurrent, _⟩ := h.bind
  have hpart := hcurrent.currentPart.1
  obtain ⟨_, hbecomes⟩ := (Becomes.refl hpart).voiceAt h
  exact of_becomes hr hpart hbecomes (Part.Like.ensureVoice part key) rfl rfl rfl

/-- A voice is changed in nothing that is heard. -/
theorem changeVoice (hr : r.Sound) {f : Voice → Voice}
    (h : Ends (Partwise.changeVoice line key f) r u s)
    (hf : ∀ v : Voice, v.key = key → v.Like (f v)) : Quiet r s := by
  obtain ⟨_, _, hvoice, hchange⟩ := h.bind
  obtain ⟨_, hat⟩ := hvoice.discard
  have hquiet := voiceAt hr hat
  exact hquiet.trans (changePart hquiet.sound hchange fun _ => Part.Like.modifyVoice hf)

/-- An element that takes no time is put at the end of a voice. -/
theorem appendTo (hr : r.Sound) {e : VoiceElement} (h : Ends (Partwise.appendTo line key e) r u s)
    (he : timed e.flatten = []) : Quiet r s := by
  refine changeVoice hr h fun v _ => ⟨rfl, ?_, rfl, rfl⟩
  rw [Voice.music_append, he, List.append_nil]

/-- The passage is another one in nothing that is heard. -/
theorem of_passage (hr : r.Sound) (hs : s = { r with passage := q })
    (hposition : q.position = r.passage.position) (hcurrent : q.current = r.passage.current)
    (htuplets : q.tuplets = r.passage.tuplets) : Quiet r s := by
  subst hs
  have hkey : q.tupletKey? = r.passage.tupletKey? := by simp [Passage.tupletKey?, htuplets]
  refine ⟨?_, ⟨hr.ids, hr.keyed, ?_⟩, fun hclosed => hclosed, .inr hkey⟩
  · ext1
    · rfl
    · funext id key
      simp [Reading.view, Reading.music, Reading.partOf, Passage.held, hkey, htuplets]
    · rfl
    · rfl
    · exact hposition
    · exact hcurrent
  · intro key htuplet
    obtain ⟨hsame, hmembers, hreached, hbegun⟩ := hr.tuplets key (hkey ▸ htuplet)
    refine ⟨?_, ?_, ?_, hbegun⟩
    · rw [htuplets]
      exact hsame
    · rw [htuplets]
      exact hmembers
    · rw [hposition]
      exact hreached

/-- The passage is changed in nothing that is heard. -/
theorem changePassage (hr : r.Sound) {f : Passage → Passage}
    (h : Ends (Partwise.changePassage f) r u s)
    (hposition : (f r.passage).position = r.passage.position)
    (hcurrent : (f r.passage).current = r.passage.current)
    (htuplets : (f r.passage).tuplets = r.passage.tuplets) : Quiet r s :=
  of_passage hr h.changePassage hposition hcurrent htuplets

/-- What only speaks or decodes is not heard. -/
theorem lift (hr : r.Sound) {α : Type} {x : Journaled α} {a : α} (h : Ends (liftM x) r a s) :
    Quiet r s := by
  rw [h.lift.2]
  exact refl hr

/-- Quiet steps one after the other. -/
theorem forM (hr : r.Sound) {γ : Type} {xs : List γ} {f : γ → Step Unit}
    (h : Ends (xs.forM f) r u s)
    (step : ∀ x ∈ xs, ∀ {r s : Reading}, r.Sound → Ends (f x) r () s → Quiet r s) : Quiet r s :=
  h.forM (P := Quiet r) (refl hr) fun x hx _ _ hquiet hrun =>
    hquiet.trans (step x hx hquiet.sound hrun)

end Quiet

end Partwise
