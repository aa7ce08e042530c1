import Partwise.Proofs.Reading.Leeway

/-!
# Reading · Sketches: what the rest of a document can fail by

Most of what was read is only kept. Whether the rest of the document ends the reading depends on
little of it: in what divisions a part counts, which voices have begun, how far each of them came,
and what stands last in it, since a member of a chord joins that or ends the reading. `Part.sketch`
is this much of a part.

Readings with the same sketches are alike (`Sketches.likeness`). Part lists, repeats, signs, marks
and lyrics may differ between them, and no finding counts. The likeness is `Uniform`, with a
`Policy`: two readings with the same sketches go on to readings with the same sketches, and the
second one does not fail before the first one
does. -/

namespace Partwise

open Markup

/-! ## What stands last -/

/-- What a member of a chord finds in front of it. -/
inductive Grip where
  /-- No note, or a sign that comes after the last one. -/
  | nothing
  | rest
  | note
  | chord
deriving DecidableEq

/-- What stands last once a note has joined. -/
def Grip.join (chordOpen : Bool) : Grip → Except StructureFault Grip
  | nothing => .error .chordWithoutNote
  | rest => .error .restInChord
  | note => .ok chord
  | chord => if chordOpen then .ok chord else .error .chordWithoutNote

/-- A note as it stands last. -/
def Note.grip (n : Note) : Grip :=
  if n.isRest then .rest else .note

mutual

/-- What stands last in a tuplet. -/
def Tuplet.grip : Tuplet → Grip
  | { members, .. } => gripOfMembers members

/-- What stands last in a member of a tuplet. -/
def TupletMember.grip : TupletMember → Grip
  | .note n => n.grip
  | .chord _ => .chord
  | .tuplet t => t.grip

/-- What stands last in the members of a tuplet. -/
def gripOfMembers : List TupletMember → Grip
  | [] => .nothing
  | [m] => m.grip
  | _ :: ms => gripOfMembers ms

end

/-- What stands last in an element of a voice. -/
def VoiceElement.grip : VoiceElement → Grip
  | .note n => n.grip
  | .chord _ => .chord
  | .tuplet t => t.grip
  | _ => .nothing

/-- What stands last among the elements of a voice. -/
def gripOfElements (es : List VoiceElement) : Grip :=
  es.getLast?.elim .nothing VoiceElement.grip

/-- What stands last among members is the last one. -/
theorem gripOfMembers_append (ms : List TupletMember) (m : TupletMember) :
    gripOfMembers (ms ++ [m]) = m.grip := by
  induction ms with
  | nil => rfl
  | cons m' ms ih =>
    cases ms with
    | nil => rfl
    | cons _ _ => exact ih

/-- What stands last among the elements of a voice is the last one. -/
theorem gripOfElements_append (es : List VoiceElement) (e : VoiceElement) :
    gripOfElements (es ++ [e]) = e.grip := by
  rw [gripOfElements, List.getLast?_concat, Option.elim_some]

/-- What stands last in a tuplet is its last member. -/
theorem Tuplet.grip_append (t : Tuplet) (m : TupletMember) : (t.append m).grip = m.grip :=
  gripOfMembers_append t.members m

/-! ## Joining what stands last -/

variable (n : Note) (chordOpen : Bool)

/-- What stands last once a note joined another note depends on that note alone. -/
theorem Note.grip_join {α : Type} {f : Chord → α} {grip : α → Grip} (hf : ∀ c, grip (f c) = .chord)
    (first : Note) :
    (if first.isRest then .error .restInChord else .ok (f (.ofPair first n))
      : Except StructureFault α).map grip = first.grip.join chordOpen := by
  unfold Note.grip
  split
  · rfl
  · exact congrArg Except.ok (hf _)

/-- What stands last once a note joined a chord is a chord, if the chord is open. -/
theorem Chord.grip_join {α : Type} {f : Chord → α} {grip : α → Grip} (hf : ∀ c, grip (f c) = .chord)
    (c : Chord) :
    (if chordOpen then .ok (f (c.absorb n)) else .error .chordWithoutNote
      : Except StructureFault α).map grip = Grip.chord.join chordOpen := by
  unfold Grip.join
  split
  · exact congrArg Except.ok (hf _)
  · rfl

mutual

/-- A note joins a member of a tuplet by what stands last in it. -/
theorem TupletMember.grip_join (m : TupletMember) :
    (m.join n chordOpen).map TupletMember.grip = m.grip.join chordOpen := by
  match m with
  | .note first =>
    rw [TupletMember.join, TupletMember.grip]
    exact Note.grip_join n chordOpen (fun _ => rfl) first
  | .chord c =>
    rw [TupletMember.join, TupletMember.grip]
    exact Chord.grip_join n chordOpen (fun _ => rfl) c
  | .tuplet t =>
    rw [TupletMember.join, TupletMember.grip, ← t.grip_join]
    cases t.join n chordOpen <;> rfl

/-- A note joins a tuplet by what stands last in it. -/
theorem Tuplet.grip_join (t : Tuplet) :
    (t.join n chordOpen).map Tuplet.grip = t.grip.join chordOpen := by
  match t with
  | ⟨_, _, _, _, _, _, _, _, members, _⟩ =>
    rw [Tuplet.join, Tuplet.grip, ← grip_joinLastMember members]
    cases joinLastMember n chordOpen members <;> rfl

/-- A note joins the last member of a tuplet. -/
theorem grip_joinLastMember (ms : List TupletMember) :
    (joinLastMember n chordOpen ms).map gripOfMembers = (gripOfMembers ms).join chordOpen := by
  match ms with
  | [] => rfl
  | [m] =>
    rw [joinLastMember, gripOfMembers, ← m.grip_join]
    cases m.join n chordOpen <;> rfl
  | m :: m' :: ms =>
    have hrest := grip_joinLastMember (m' :: ms)
    show ((joinLastMember n chordOpen (m' :: ms)).map (m :: ·)).map gripOfMembers =
      (gripOfMembers (m' :: ms)).join chordOpen
    rw [← hrest]
    rcases hjoin : joinLastMember n chordOpen (m' :: ms) with _ | joined
    · rfl
    · obtain ⟨_, hjoined⟩ := ne_nil_of_joinLastMember hjoin
      cases joined with
      | nil => exact absurd rfl hjoined
      | cons _ _ => rfl

end

/-- A note joins an element of a voice by what stands last in it. -/
theorem VoiceElement.grip_join (e : VoiceElement) :
    (e.join n chordOpen).map VoiceElement.grip = e.grip.join chordOpen := by
  cases e with
  | note first => exact Note.grip_join n chordOpen (fun _ => rfl) first
  | chord c => exact Chord.grip_join n chordOpen (fun _ => rfl) c
  | tuplet t =>
    rw [VoiceElement.join, VoiceElement.grip, ← t.grip_join]
    cases t.join n chordOpen <;> rfl
  | _ => rfl

/-- A note joins the last of some elements as it joins it alone. -/
theorem joinLast_concat (es : List VoiceElement) (e : VoiceElement) :
    joinLast n chordOpen (es ++ [e]) = (e.join n chordOpen).map fun joined => es ++ [joined] := by
  induction es with
  | nil => rfl
  | cons e' es ih =>
    have hrest : joinLast n chordOpen (e' :: (es ++ [e])) =
        (joinLast n chordOpen (es ++ [e])).map (e' :: ·) := by
      cases es <;> rfl
    rw [List.cons_append, hrest, ih]
    cases e.join n chordOpen <;> rfl

/-- A note joins the last element of a voice. -/
theorem grip_joinLast (es : List VoiceElement) :
    (joinLast n chordOpen es).map gripOfElements = (gripOfElements es).join chordOpen := by
  rcases es.eq_nil_or_concat with rfl | ⟨init, e, rfl⟩
  · rfl
  · rw [List.concat_eq_append, joinLast_concat, gripOfElements_append, ← e.grip_join n chordOpen]
    cases e.join n chordOpen with
    | error => rfl
    | ok joined => exact congrArg Except.ok (gripOfElements_append init joined)

/-! ## What stands last in a guise -/

namespace Guise.Lawful

variable {g : Guise}

/-- A note stands last in any guise as it does. -/
theorem grip_note (hg : g.Lawful) (n : Note) : (g.note n).grip = n.grip := by
  rw [Note.grip, Note.grip, hg.isRest]

mutual

/-- What stands last in a member is the same in a guise. -/
theorem grip_member (hg : g.Lawful) (m : TupletMember) : (m.guise g).grip = m.grip := by
  match m with
  | .note n => exact hg.grip_note n
  | .chord _ => rfl
  | .tuplet t =>
    rw [TupletMember.guise, TupletMember.grip, TupletMember.grip]
    exact grip_tuplet hg t

/-- What stands last in a tuplet is the same in a guise. -/
theorem grip_tuplet (hg : g.Lawful) (t : Tuplet) : (t.guise g).grip = t.grip := by
  match t with
  | ⟨_, _, _, _, _, _, _, _, members, _⟩ =>
    rw [Tuplet.guise, Tuplet.grip, Tuplet.grip]
    exact grip_members hg members

/-- What stands last among members is the same in a guise. -/
theorem grip_members (hg : g.Lawful) (ms : List TupletMember) :
    gripOfMembers (guiseMembers g ms) = gripOfMembers ms := by
  match ms with
  | [] => rfl
  | [m] => exact grip_member hg m
  | _ :: m :: ms => exact grip_members hg (m :: ms)

end

/-- What stands last in an element of a voice is the same in a guise. -/
theorem grip_element (hg : g.Lawful) (e : VoiceElement) : (e.guise g).grip = e.grip := by
  cases e with
  | note n => exact hg.grip_note n
  | tuplet t => exact hg.grip_tuplet t
  | _ => rfl

end Guise.Lawful

/-! ## Sketches -/

/-- What the rest of a document can fail by in a voice. -/
structure VoiceSketch where
  key : VoiceKey
  position : WholeNotes
  grip : Grip

/-- What the rest of a document can fail by in a part. -/
structure PartSketch where
  id : String
  divisionsPerWhole : Nat
  voices : List VoiceSketch

/-- What the rest of a document can fail by in an open tuplet, and the number that a finding
names. -/
structure TupletSketch where
  key : VoiceKey
  number : Nat
  isEmpty : Bool
  grip : Grip

/-- The sketch of a tuplet. -/
def Tuplet.sketch (t : Tuplet) : TupletSketch :=
  { key := t.key, number := t.number, isEmpty := t.members.isEmpty, grip := t.grip }

namespace Tuplet

/-- A member is put at the end of a tuplet. -/
theorem sketch_append (t : Tuplet) (m : TupletMember) :
    (t.append m).sketch = { t.sketch with isEmpty := false, grip := m.grip } := by
  have hempty : (t.append m).members.isEmpty = false := by simp [append]
  rw [sketch, grip_append, hempty]
  rfl

/-- A note joins a tuplet by what stands last in it. -/
theorem sketch_join (t : Tuplet) (n : Note) (chordOpen : Bool) :
    (t.join n chordOpen).map sketch =
      (t.sketch.grip.join chordOpen).map fun grip => { t.sketch with grip } := by
  show _ = (t.grip.join chordOpen).map _
  rw [← t.grip_join n chordOpen]
  match t with
  | ⟨_, _, _, _, _, _, _, _, members, _⟩ =>
    rw [join]
    rcases hjoin : joinLastMember n chordOpen members with _ | joined
    · rfl
    · obtain ⟨hmembers, hjoined⟩ := ne_nil_of_joinLastMember hjoin
      have hempty : joined.isEmpty = members.isEmpty := by
        rw [List.isEmpty_eq_false_iff.mpr hmembers, List.isEmpty_eq_false_iff.mpr hjoined]
      show Except.ok _ = Except.ok _
      rw [sketch, sketch, hempty]
      rfl

end Tuplet

/-- The sketch of a voice. -/
def Voice.sketch (v : Voice) : VoiceSketch :=
  { key := v.key, position := v.positionInMeasure, grip := gripOfElements v.chunk }

/-- The sketch of a part. -/
def Part.sketch (p : Part) : PartSketch :=
  { id := p.id, divisionsPerWhole := p.divisionsPerWhole, voices := p.voices.map Voice.sketch }

namespace Voice

variable {v w : Voice}

/-- Something is put at the end of a voice. -/
theorem sketch_append (v : Voice) (e : VoiceElement) :
    (v.append e).sketch = { v.sketch with grip := e.grip } := by
  rw [sketch, append, gripOfElements_append]
  rfl

/-- A note joins a voice by what stands last in it. -/
theorem sketch_joinChord (v : Voice) (n : Note) (chordOpen : Bool) :
    (v.joinChord n chordOpen).map sketch =
      (v.sketch.grip.join chordOpen).map fun grip => { v.sketch with grip } := by
  show _ = ((gripOfElements v.chunk).join chordOpen).map _
  rw [joinChord, ← grip_joinLast n chordOpen]
  cases joinLast n chordOpen v.chunk <;> rfl

/-- Once the open chunk is closed nothing stands last. -/
theorem sketch_flush (v : Voice) : v.flush.sketch = { v.sketch with grip := .nothing } := rfl

/-- A repeat that is closed leaves the open chunk as it is. -/
theorem sketch_closeRepeat (v : Voice) (explicitStart : Bool) (measure : String) :
    (v.closeRepeat explicitStart measure).1.sketch = v.sketch := by
  unfold closeRepeat
  split <;> rfl

/-- **A barline** of whatever kind leaves nothing to join. -/
theorem sketch_takeBarline (v : Voice) (b : Barline) (explicitStart : Bool) (measure : String) :
    (v.takeBarline b explicitStart measure).1.sketch = { v.sketch with grip := .nothing } := by
  unfold takeBarline
  cases b.category with
  | standalone => exact sketch_append v (.barline b)
  | repeatStart =>
    have hclosed := v.sketch_closeRepeat explicitStart measure
    exact congrArg (fun sketch : VoiceSketch => { sketch with grip := .nothing }) hclosed
  | endingStart => rfl
  | hookedEndingEnd =>
    dsimp only
    split
    · rfl
    · rw [sketch_closeRepeat]
      rfl
  | hooklessEndingEnd =>
    rw [sketch_closeRepeat]
    rfl
  | repeatEnd =>
    dsimp only
    split
    · rfl
    · rw [sketch_closeRepeat]
      rfl

/-- At the end of a part nothing is left to join. -/
theorem sketch_endRepeats (v : Voice) (explicitStart : Bool) (measure : String) :
    (v.endRepeats explicitStart measure).1.flush.sketch = { v.sketch with grip := .nothing } := by
  have hlike := v.like_endRepeats explicitStart measure
  rw [sketch_flush, sketch, hlike.key, hlike.position]
  rfl

/-- A voice has the same sketch in any guise. -/
theorem sketch_guise {g : Guise} (hg : g.Lawful) (divisions : Nat → Nat) (v : Voice) :
    (v.guise g divisions).sketch = v.sketch := by
  have hgrip : gripOfElements (v.chunk.map (VoiceElement.guise g)) = gripOfElements v.chunk := by
    rw [gripOfElements, gripOfElements, List.getLast?_map]
    cases v.chunk.getLast? with
    | none => rfl
    | some e => exact hg.grip_element e
  exact congrArg (fun grip => { v.sketch with grip }) hgrip

end Voice

namespace Part

variable {p q : Part}

/-- Voices of one key have the same sketch. -/
theorem sketch_voice (h : p.sketch = q.sketch) {key : VoiceKey} {v w : Voice}
    (hv : p.voice? key = some v) (hw : q.voice? key = some w) : v.sketch = w.sketch := by
  have hvoices : p.voices.map Voice.sketch = q.voices.map Voice.sketch :=
    congrArg PartSketch.voices h
  have hfind : ∀ p : Part, (p.voice? key).map Voice.sketch =
      (p.voices.map Voice.sketch).find? fun sketch => sketch.key = key := by
    intro p
    rw [List.find?_map]
    rfl
  have hsketch := hfind p
  rw [hvoices, ← hfind q, hv, hw] at hsketch
  exact Option.some.inj hsketch

/-- In parts with the same sketches the same voices have begun. -/
theorem sketch_keys (h : p.sketch = q.sketch) :
    p.voices.map Voice.key = q.voices.map Voice.key := by
  have hkeys := congrArg (fun sketch : PartSketch => sketch.voices.map VoiceSketch.key) h
  dsimp only [sketch] at hkeys
  rwa [List.map_map, List.map_map] at hkeys

/-- Parts change to parts with the same sketch if their voices do. -/
theorem sketch_mapVoices (h : p.sketch = q.sketch) {f g : Voice → Voice}
    (hfg : ∀ v w, v.sketch = w.sketch → (f v).sketch = (g w).sketch) :
    (p.mapVoices f).sketch = (q.mapVoices g).sketch := by
  have hvoices : List.Forall₂ (fun v w : Voice => v.sketch = w.sketch) p.voices q.voices := by
    have hsame : p.voices.map Voice.sketch = q.voices.map Voice.sketch :=
      congrArg PartSketch.voices h
    rwa [← List.forall₂_eq_eq_eq, List.forall₂_map_left_iff, List.forall₂_map_right_iff] at hsame
  have hchanged : (p.voices.map f).map Voice.sketch = (q.voices.map g).map Voice.sketch := by
    rw [← List.forall₂_eq_eq_eq, List.forall₂_map_left_iff, List.forall₂_map_right_iff,
      List.forall₂_map_left_iff, List.forall₂_map_right_iff]
    exact hvoices.imp hfg
  have hid : p.id = q.id := congrArg PartSketch.id h
  have hdivisions : p.divisionsPerWhole = q.divisionsPerWhole :=
    congrArg PartSketch.divisionsPerWhole h
  simp only [sketch, mapVoices, hchanged, hid, hdivisions]

/-- Parts keep the same sketches after changes of the voices with a key that keep the same sketches.
-/
theorem sketch_modifyVoice (h : p.sketch = q.sketch) {key : VoiceKey} {f g : Voice → Voice}
    (hfg : ∀ v w, v.key = key → v.sketch = w.sketch → (f v).sketch = (g w).sketch) :
    (p.modifyVoice key f).sketch = (q.modifyVoice key g).sketch := by
  refine sketch_mapVoices h fun v w hvw => ?_
  have hkey : v.key = w.key := congrArg VoiceSketch.key hvw
  rw [← hkey]
  split
  · next hv => exact hfg v w hv hvw
  · exact hvw

/-- A voice that begins has nothing to join. -/
theorem sketch_newVoice (p : Part) (key : VoiceKey) :
    (p.newVoice key).sketch = { key, position := 0, grip := .nothing } := by
  have hsigns : ∀ e ∈ p.opening key.staff, e.grip = .nothing := by
    intro e he
    simp only [opening, List.mem_append, List.mem_map] at he
    rcases he with (⟨_, _, rfl⟩ | ⟨_, _, rfl⟩) | ⟨_, _, rfl⟩ <;> rfl
  have hgrip : gripOfElements (p.opening key.staff) = .nothing := by
    rcases List.eq_nil_or_concat (p.opening key.staff) with hnone | ⟨init, e, hopening⟩
    · rw [hnone]
      rfl
    · rw [hopening, List.concat_eq_append, gripOfElements_append]
      exact hsigns e (by rw [hopening]; simp)
  have hsketch : (p.newVoice key).sketch =
      { key, position := 0, grip := gripOfElements (p.opening key.staff) } := rfl
  rw [hsketch, hgrip]

/-- Parts keep the same sketches once a voice has begun in both. -/
theorem sketch_ensureVoice (h : p.sketch = q.sketch) (key : VoiceKey) :
    (p.ensureVoice key).sketch = (q.ensureVoice key).sketch := by
  have hthere : (p.voice? key).isSome = (q.voice? key).isSome := by
    rw [p.isSome_voice?, q.isSome_voice?, outline, outline, sketch_keys h]
  have hbegun : ∀ p : Part, (upsert VoiceKey.before Voice.key (p.newVoice key) p.voices).map
      Voice.sketch = upsert VoiceKey.before VoiceSketch.key
        { key, position := 0, grip := .nothing } p.sketch.voices := by
    intro p
    rw [← sketch_newVoice p key]
    have hkey : ∀ v : Voice, v.sketch.key = v.key := fun _ => rfl
    exact map_upsert VoiceKey.before _ hkey p.voices
  have hid : p.id = q.id := congrArg PartSketch.id h
  have hdivisions : p.divisionsPerWhole = q.divisionsPerWhole :=
    congrArg PartSketch.divisionsPerWhole h
  unfold ensureVoice
  rw [hthere]
  split
  · exact h
  · rw [sketch, sketch, hbegun p, hbegun q, h, hid, hdivisions]

end Part

/-! ## Readings with the same sketches -/

namespace Sketches

/-- Readings are alike whose parts and open tuplets have the same sketches. -/
def likeness : Likeness where
  heeds _ := false
  fails _ _ := True
  lenient := True
  here p q := p.sketch = q.sketch ∧ p.Keyed
  there p q := p.sketch = q.sketch ∧ p.Keyed
  tuplet t u := t.sketch = u.sketch
  note m n := m.line = n.line ∧ m.isRest = n.isRest ∧ m.soundingWholeNotes = n.soundingWholeNotes
  marks _ _ := True
  element e f := e.grip = f.grip
  strict := False

variable {r s : Reading} {p q : Part} {settings : Settings}

/-- A note that is alike stands last alike. -/
theorem grip_note {m n : Note} (h : likeness.note m n) : m.grip = n.grip := by
  rw [Note.grip, Note.grip, h.2.1]

/-- Alike parts stay so after changes of all voices that keep the same sketches. -/
theorem mapVoices (h : likeness.here p q) {f g : Voice → Voice} (hkey : ∀ v, (f v).key = v.key)
    (hfg : ∀ v w, v.sketch = w.sketch → (f v).sketch = (g w).sketch) :
    likeness.here (p.mapVoices f) (q.mapVoices g) :=
  ⟨Part.sketch_mapVoices h.1 hfg, h.2.of_map rfl hkey⟩

/-- Alike parts stay so after changes of the voices with a key that keep the same sketches. -/
theorem modifyVoice (h : likeness.here p q) {key : VoiceKey} {f g : Voice → Voice}
    (hkey : ∀ v, v.key = key → (f v).key = key)
    (hfg : ∀ v w, v.sketch = w.sketch → (f v).sketch = (g w).sketch) :
    likeness.here (p.modifyVoice key f) (q.modifyVoice key g) :=
  ⟨Part.sketch_modifyVoice h.1 fun v w _ hvw => hfg v w hvw, Pairing.Resemble.keyed_modifyVoice hkey h.2⟩

/-- Something that stands last is put at the end of voices. -/
theorem append {v w : Voice} {e f : VoiceElement} (hvw : v.sketch = w.sketch)
    (hef : e.grip = f.grip) : (v.append e).sketch = (w.append f).sketch := by
  rw [v.sketch_append, w.sketch_append, hvw, hef]

/-- That readings have the same sketches goes together with everything that reading does. -/
theorem lawful : likeness.Lawful where
  failure _ := trivial
  deaf _ _ := rfl
  id h := congrArg PartSketch.id h.1
  leave h := h
  keys h := Part.sketch_keys h.1
  pending hs := hs.elim
  position h hv hw := congrArg VoiceSketch.position (Part.sketch_voice h.1 hv hw)
  ensureVoice h := ⟨Part.sketch_ensureVoice h.1 _, h.2.ensureVoice _⟩
  placeVoice {p q key position} _ h := modifyVoice h (fun _ hv => hv) fun v w hvw =>
    congrArg (fun sketch : VoiceSketch => { sketch with position }) hvw
  append h he := modifyVoice h (fun _ hv => hv) fun _ _ hvw => append hvw he
  addRest h := modifyVoice h (fun _ hv => hv) fun _ _ hvw => append hvw rfl
  joinVoice {p q key v w n n'} chordOpen h hv hw hn := by
    have hvw := Part.sketch_voice h.1 hv hw
    have hjoin : (v.joinChord n chordOpen).map Voice.sketch =
        (w.joinChord n' chordOpen).map Voice.sketch := by
      rw [v.sketch_joinChord, w.sketch_joinChord, hvw]
    refine Pairing.outcomes_of_map hjoin fun v' w' hv' hsame => ?_
    have hkey : v'.key = key := (Voice.of_joinChord hv').2.1.trans (Part.key_of_voice? hv)
    exact modifyVoice h (fun _ _ => hkey) fun _ _ _ => hsame
  withKey h _ := mapVoices h (fun _ => rfl) fun _ _ hvw => append hvw rfl
  withTime h _ := mapVoices h (fun _ => rfl) fun _ _ hvw => append hvw rfl
  withClef {p q clef clef'} h _ hstaff := by
    refine mapVoices h (fun v => by split <;> rfl) fun v w hvw => ?_
    have hkey : v.key = w.key := congrArg VoiceSketch.key hvw
    have hsame : v.staffNumber = w.staffNumber := congrArg VoiceKey.staff hkey
    rw [hsame, hstaff]
    split
    · exact append hvw rfl
    · exact hvw
  ensureStaves h := h
  restart h := mapVoices h (fun _ => rfl) fun _ _ hvw =>
    congrArg (fun sketch : VoiceSketch => { sketch with position := 0 }) hvw
  takeBarline h _ := mapVoices h (fun v => (v.like_takeBarline ..).key) fun v w hvw => by
    rw [v.sketch_takeBarline, w.sketch_takeBarline, hvw]
  close {p q explicitStart explicitStart' measure} h _ := by
    rw [Part.mapVoices, Part.mapVoices, Part.mapVoices, Part.mapVoices, List.map_map, List.map_map]
    refine mapVoices h (fun v => (v.like_endRepeats ..).key) fun v w hvw => ?_
    rw [Function.comp_apply, Function.comp_apply, v.sketch_endRepeats, w.sketch_endRepeats, hvw]
  noteSame _ _ := ⟨rfl, rfl, rfl⟩
  noteLine h := h.1
  noteLength h := h.2.2
  elementNote h := grip_note h
  elementTuplet h := congrArg TupletSketch.grip h
  elementDirection _ := rfl
  tupletKey h := congrArg TupletSketch.key h
  tupletNumber h := congrArg TupletSketch.number h
  tupletEmpty h := congrArg TupletSketch.isEmpty h
  tupletNote {t u n n'} h hn := by
    have hgrip : (TupletMember.note n).grip = (TupletMember.note n').grip := grip_note hn
    show (t.append _).sketch = (u.append _).sketch
    rw [t.sketch_append, u.sketch_append, h, hgrip]
  tupletInner {t t' u u'} h hu := by
    have hgrip : (TupletMember.tuplet u).grip = (TupletMember.tuplet u').grip :=
      congrArg TupletSketch.grip hu
    show (t.append _).sketch = (t'.append _).sketch
    rw [t.sketch_append, t'.sketch_append, h, hgrip]
  tupletJoin {t u n n'} chordOpen h hn := by
    have hjoin : (t.join n chordOpen).map Tuplet.sketch = (u.join n' chordOpen).map Tuplet.sketch := by
      rw [t.sketch_join, u.sketch_join, h]
    exact Pairing.outcomes_of_map hjoin fun _ _ _ hsame => hsame
  queue _ := trivial

/-- That readings have the same sketches goes together with whole documents. -/
theorem uniform : likeness.Uniform where
  toLawful := lawful
  opens _ _ _ _ _ _ := rfl
  enter h := h
  declare _ _ _ := ⟨rfl, List.nodup_nil⟩
  unknown _ := id
  divisions h := congrArg PartSketch.divisionsPerWhole h.1
  withDivisions {p q perWhole} _ h := by
    have hvoices := mapVoices h (f := fun v => { v with divisionsPerWhole := perWhole })
      (g := fun v => { v with divisionsPerWhole := perWhole }) (fun _ => rfl) fun _ _ hvw => hvw
    exact ⟨congrArg (fun sketch : PartSketch => { sketch with divisionsPerWhole := perWhole })
      hvoices.1, hvoices.2⟩
  elementCheck _ := rfl
  noMarks := trivial

/-! ## The policy -/

/-- What is heeded here is heeded with more leeway as well, for nothing is. -/
theorem deaf (d : Diagnostic) : likeness.heeds d = true → Leeway.likeness.heeds d = true :=
  fun h => absurd h Bool.false_ne_true

/-- Notes are alike that are the same without lyrics and marks. -/
theorem note_of_bare {m n : Note} (h : Guise.bare.note m = Guise.bare.note n) :
    likeness.note m n :=
  ⟨(congrArg Note.line h :), (congrArg Note.isRest h :), (congrArg Note.soundingWholeNotes h :)⟩

/-- Notes that differ from alike ones in lyrics and marks alone are alike. -/
theorem note_trans {m m' n n' : Note} (h : likeness.note m n)
    (hm : Guise.bare.note m' = Guise.bare.note m) (hn : Guise.bare.note n' = Guise.bare.note n) :
    likeness.note m' n' := by
  obtain ⟨hline, hrest, hlength⟩ := note_of_bare hm
  obtain ⟨hline', hrest', hlength'⟩ := note_of_bare hn
  exact ⟨hline.trans (h.1.trans hline'.symm), hrest.trans (h.2.1.trans hrest'.symm),
    hlength.trans (h.2.2.trans hlength'.symm)⟩

/-- A part that has sung has the same sketch. -/
theorem sketch_of_bare {p p' : Part} (h : p'.bare = p.bare) : p'.sketch = p.sketch := by
  have hbare : ∀ p : Part, p.bare.sketch = p.sketch := by
    intro p
    have hvoices : p.bare.voices.map Voice.sketch = p.voices.map Voice.sketch := by
      rw [Part.bare, Part.guise, Part.mapVoices, List.map_map]
      exact List.map_congr_left fun v _ => v.sketch_guise Guise.bare_lawful _
    rw [Part.sketch, hvoices]
    rfl
  rw [← hbare p', h, hbare p]

/-- Readings that have sung are alike if they were. -/
theorem alike_of_sings {t u : Reading} (h : likeness.Alike r s) (hr : Leeway.Sings r t)
    (hs : Leeway.Sings s u) : likeness.Alike t u := by
  obtain ⟨p, p', hp, rfl, hid, hsame⟩ := hr
  obtain ⟨q, q', hq, rfl, -, hsame'⟩ := hs
  have hpart := h.part
  rw [hp, hq] at hpart
  cases hpart with
  | some hpq =>
    obtain ⟨hkeyed, hbare⟩ := hsame hpq.2
    have hqkeyed : q.Keyed := by
      rw [Part.Keyed, ← Part.sketch_keys hpq.1]
      exact hpq.2
    have hsketch : p'.sketch = q'.sketch :=
      (sketch_of_bare hbare).trans (hpq.1.trans (sketch_of_bare (hsame' hqkeyed).2).symm)
    exact h.setPart lawful hp hq hid hpq ⟨hsketch, hkeyed⟩

/-- Readings in which other marks wait are alike if they were. -/
theorem alike_of_marksChange {t u : Reading} (h : likeness.Alike r s) (hr : Leeway.MarksChange r t)
    (hs : Leeway.MarksChange s u) : likeness.Alike t u := by
  obtain ⟨_, rfl⟩ := hr
  obtain ⟨_, rfl⟩ := hs
  exact { h with passage := { h.passage with pending := trivial } }

/-- Notes take marks alike, whatever marks wait. -/
theorem takePending {n n' : Note} (hn : likeness.note n n') :
    likeness.Parallel likeness.note (Partwise.takePending settings n)
      (Partwise.takePending settings n') := by
  intro r s h
  refine .aside ((Leeway.takes settings r n).mono deaf) ((Leeway.takes settings s n').mono deaf) ?_
  exact fun _ _ _ _ hm hm' => ⟨note_trans hn hm.1 hm'.1, alike_of_marksChange h hm.2 hm'.2⟩

/-- **The policy** under any settings. -/
theorem policy (settings : Settings) : Policy likeness settings settings where
  place h e current := by
    rw [lawful.place rfl h]
    exact .refl (Surroundings.steady_place ..).blind lawful.failure
  takePending := takePending
  singNote {key n n' lyrics lyrics'} hn _ r s h := by
    have hr := Leeway.sings settings h.1.distinct h.2 n lyrics
    have hs := Leeway.sings settings (h.1.distinct' lawful) (h.1.hasVoice lawful h.2) n' lyrics'
    refine .aside (hr.mono deaf) (hs.mono deaf) ?_
    exact fun _ _ _ _ hm hm' => ⟨note_trans hn hm.1 hm'.1, alike_of_sings h.1 hm.2 hm'.2⟩
  joinChord {i i'} hi := by
    refine lawful.joinChord hi (takePending hi.note) fun n n' hn r s h => ?_
    by_cases hvoice : r.HasVoice i.key
    · have hr := Leeway.marks settings i.note.line n h.1.distinct hvoice
      have hs := Leeway.marks settings i.note.line n' (h.1.distinct' lawful)
        (h.1.hasVoice lawful hvoice)
      refine ParallelAt.bind (R := likeness.Alike) (A := Eq)
        (.aside (hr.mono deaf) (hs.mono deaf) ?_) fun _ _ r' s' _ h' =>
          lawful.joinMember hn r' s' h'
      exact fun _ _ _ _ ht hu => ⟨rfl, alike_of_sings h.1 ht hu⟩
    · exact .spared trivial fun _ _ => Leeway.not_ends_member h.2 hvoice
  dropPending line r s h := by
    refine .aside ((Leeway.drops line r).mono deaf) ((Leeway.drops line s).mono deaf) ?_
    exact fun _ _ _ _ ht hu => ⟨rfl, alike_of_marksChange h ht hu⟩

end Sketches

end Partwise
