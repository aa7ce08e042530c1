import Partwise.Proofs.Music.Nesting

/-!
# Music · Conservation: no note is lost, moved or made up

A note passes through chords, open tuplets, padding and the repeats of its voice. All the same the
notes of every voice of a score are those that the document brought it, in the order of the document
and each exactly once. `arrivals` lists what a document brings to a voice: the notes of its note
elements, the rests of its movements forward, and the padding of a voice that is behind.

* `Does.imprints_eq`: one deed adds what it brings to the music of its voice.
* `Unfolds.written_eq`: the music of a voice is what the moments have brought it.
* `Document.notes_conserved`: so are the notes of the voices of a score.
-/

namespace Partwise

open Markup

variable {settings : Settings} {r s t : Reading} {ms : List Moment} {key : VoiceKey} {id : String}

/-! ## What arrives -/

/-- Where a note of a score comes from. -/
inductive Origin where
  | note
  | forward
  | padding
deriving DecidableEq, Repr

/-- What is brought to a voice. -/
structure Arrived where
  origin : Origin
  content : NoteContent
  line : Nat
deriving DecidableEq, Repr

/-- What is written of a note. -/
def Note.written (n : Note) : NoteContent × Nat := (n.content, n.line)

/-- What is written of an imprint. -/
def Imprint.written (i : Imprint) : NoteContent × Nat := (i.content, i.line)

/-- What is written of that which is brought. -/
def Arrived.written (a : Arrived) : NoteContent × Nat := (a.content, a.line)

/-- The padding of a voice that is behind the document. -/
def Reading.padding (r : Reading) (key : VoiceKey) (line : Nat) : List Arrived :=
  if r.cursor key < r.passage.position then [⟨.padding, .rest false true, line⟩] else []

/-- What a deed brings to a voice. -/
def Deed.brings (r : Reading) (key : VoiceKey) : Deed → List Arrived
  | note input =>
    if input.key = key then
      (if input.inChord then [] else r.padding key input.note.line) ++
        [⟨.note, input.note.content, input.note.line⟩]
    else []
  | forward k _ line =>
    if k = key then r.padding key line ++ [⟨.forward, .rest false true, line⟩] else []
  | _ => []

/-- A note brings itself to its voice, behind its padding if it is no member of a chord. -/
theorem Deed.brings_note (r : Reading) (input : NoteInput) : (note input).brings r input.key =
    (if input.inChord then [] else r.padding input.key input.note.line) ++
      [⟨.note, input.note.content, input.note.line⟩] :=
  if_pos rfl

/-- A movement forward brings an invisible rest to its voice, behind the padding. -/
theorem Deed.brings_forward (r : Reading) (key : VoiceKey) (duration : WholeNotes) (line : Nat) :
    (forward key duration line).brings r key =
      r.padding key line ++ [⟨.forward, .rest false true, line⟩] :=
  if_pos rfl

/-- A deed brings nothing to other voices. -/
theorem Deed.brings_other (r : Reading) {d : Deed} (h : d.voice? ≠ some key) :
    d.brings r key = [] := by
  cases d with
  | note input => exact if_neg fun hkey => h (congrArg some hkey)
  | forward k => exact if_neg fun hkey => h (congrArg some hkey)
  | backup | enterMeasure | leaveMeasure | enterPart | leavePart | nothing => rfl

/-- What some moments bring to a voice of a part, from where a given part is current. -/
def arrivals (settings : Settings) (id : String) (key : VoiceKey) :
    Option String → List Moment → List Arrived
  | _, [] => []
  | part?, m :: ms =>
    let deed := m.move.deed settings m.before
    (if part? = some id then deed.brings m.before key else []) ++
      arrivals settings id key (deed.partAfter part?) ms

/-- The note or rest that a deed gives a place in time. -/
def Deed.arrival? : Deed → Option Arrival
  | note input => if input.inChord then none else some input.arrival
  | forward key duration line => some (.skip key duration line)
  | _ => none

/-- An arrival is given its place in the voice that its deed is about. -/
theorem Deed.voice?_of_arrival {d : Deed} {a : Arrival} (h : d.arrival? = some a) :
    d.voice? = some a.key := by
  cases d with
  | note input =>
    rw [arrival?] at h
    split at h
    · exact nomatch h
    · cases h
      rfl
  | forward =>
    cases h
    rfl
  | backup | enterMeasure | leaveMeasure | enterPart | leavePart | nothing => exact nomatch h

/-! ## What one deed adds -/

/-- An imprint is that of what was brought. What takes a place in time takes that of its onset. -/
structure Fits (r : Reading) (d : Deed) (i : Imprint) (a : Arrived) : Prop where
  written : i.written = a.written
  position : a.origin ≠ .padding → ∀ x, d.arrival? = some x → i.position = r.onset x.key

/-- What is placed fits, and so does the padding before it. -/
theorem fits_placed {d : Deed} {content : NoteContent} {line : Nat} {origin : Origin}
    (hkey : ∀ x, d.arrival? = some x → x.key = key) :
    List.Forall₂ (Fits r d)
      (r.padImprints key line ++ [⟨content, line, r.onset key⟩])
      (r.padding key line ++ [⟨origin, content, line⟩]) := by
  have hlast : Fits r d ⟨content, line, r.onset key⟩ ⟨origin, content, line⟩ :=
    ⟨rfl, fun _ x hx => by rw [hkey x hx]⟩
  unfold Reading.padImprints Reading.padding
  split
  · exact .cons ⟨rfl, fun hpadding => absurd rfl hpadding⟩ (.cons hlast .nil)
  · exact .cons hlast .nil

/-- **A deed adds to a voice what it brings.** -/
theorem Does.imprints_eq {d : Deed} (h : Does r s d)
    (halone : ∀ id, d = .enterPart id → r.partId? = none) (id : String) (key : VoiceKey) :
    ∃ new, imprints (s.music id key) = imprints (r.music id key) ++ new ∧
      List.Forall₂ (Fits r d) new (if r.partId? = some id then d.brings r key else []) := by
  by_cases hhere : r.partId? = some id ∧ d.voice? = some key
  · obtain ⟨hid, hkey⟩ := hhere
    rw [if_pos hid]
    cases h with
    | @place input at' _ alone placed =>
      cases hkey
      obtain rfl : at' = id := Option.some.inj (placed.partId.symm.trans hid)
      refine ⟨_, placed.imprints.trans (List.append_assoc ..), ?_⟩
      rw [Deed.brings_note, if_neg (by simp [alone])]
      apply fits_placed
      intro x hx
      rw [Deed.arrival?, if_neg (by simp [alone])] at hx
      cases hx
      rfl
    | @join input at' _ member joined =>
      cases hkey
      obtain rfl : at' = id := Option.some.inj (joined.partId.symm.trans hid)
      obtain ⟨position, himprints⟩ := joined.imprints
      refine ⟨_, himprints, ?_⟩
      have hfits : Fits r (.note input)
          ⟨input.note.content, input.note.line, position⟩
          ⟨.note, input.note.content, input.note.line⟩ :=
        ⟨rfl, fun _ x hx => by simp [Deed.arrival?, member] at hx⟩
      rw [Deed.brings_note, if_pos member]
      exact .cons hfits .nil
    | @forward k duration line at' placed =>
      cases hkey
      obtain rfl : at' = id := Option.some.inj (placed.partId.symm.trans hid)
      refine ⟨_, placed.imprints.trans (List.append_assoc ..), ?_⟩
      rw [Deed.brings_forward]
      apply fits_placed
      intro x hx
      cases hx
      rfl
    | backup | enterMeasure | leaveMeasure | enterPart | leavePart | nothing => exact nomatch hkey
  · have hother : r.partId? = some id → d.voice? ≠ some key := not_and.mp hhere
    refine ⟨[], by rw [h.music_other halone hother, List.append_nil], ?_⟩
    split
    · next hid =>
      rw [Deed.brings_other r (hother hid)]
      exact .nil
    · exact .nil

/-! ## Small documents -/

/-- An element that holds only a text. -/
def textElement (name text : String) : Element := { name, text? := some text }

/-- A note of a voice on the first staff, in the octave of the middle C. -/
def noteElement (line : Nat) (step voice duration : String) (marks : List Element) : Element :=
  { name := "note", line
    children := marks ++
      [{ name := "pitch", children := [textElement "step" step, textElement "octave" "4"] },
        textElement "duration" duration, textElement "voice" voice] }

/-- A movement back in time. -/
def backupElement (duration : String) : Element :=
  { name := "backup", children := [textElement "duration" duration] }

/-- A document of a single part with a single measure. Four divisions are a whole note. -/
def singleMeasure (es : List Element) : Element :=
  { name := "score-partwise"
    children :=
      [{ name := "part-list", children := [{ name := "score-part", attributes := [("id", "P")] }] },
        { name := "part"
          attributes := [("id", "P")]
          children := [{ name := "measure", attributes := [("number", "1")], children := es }] }] }

/-- The document is read, and its score is of that kind. -/
def Document.hasScore (root : Element) (holds : Score → Bool) : Bool :=
  match (Document.read {} root).score with
  | .ok score => holds score
  | .error _ => false

/-- A document of which the score is seen to be of some kind is read. -/
theorem Document.exists_score {root : Element} {holds : Score → Bool}
    (h : hasScore root holds = true) :
    ∃ score, (Document.read {} root).score = .ok score ∧ holds score = true := by
  unfold hasScore at h
  split at h
  · next score hscore => exact ⟨score, hscore, h⟩
  · exact nomatch h

/-- The document is read, and a part of its score has a voice of that kind. -/
def Document.hasVoice (root : Element) (id : String) (key : VoiceKey) (holds : Voice → Bool) :
    Bool :=
  match (Document.read {} root).score with
  | .ok score => score.parts.any fun part =>
    part.id = id ∧ part.voices.any fun voice => voice.key = key ∧ holds voice
  | .error _ => false

/-- A document of which a voice is seen to be of some kind is read, and has that voice. -/
theorem Document.exists_voice {root : Element} {holds : Voice → Bool}
    (h : hasVoice root id key holds = true) :
    ∃ score, ∃ part ∈ score.parts, ∃ voice ∈ part.voices,
      (Document.read {} root).score = .ok score ∧ part.id = id ∧ voice.key = key ∧
        holds voice = true := by
  unfold hasVoice at h
  split at h
  · next score hscore =>
    obtain ⟨part, hpart, hboth⟩ := List.any_eq_true.mp h
    obtain ⟨hid, hvoices⟩ := of_decide_eq_true hboth
    obtain ⟨voice, hvoice, hkey⟩ := List.any_eq_true.mp hvoices
    exact ⟨score, part, hpart, voice, hvoice, hscore, hid, of_decide_eq_true hkey⟩
  · exact nomatch h

/-! ## What a document brings -/

/-- Notes that fit what arrived are written as it was. -/
theorem written_of_fits {d : Deed} {is : List Imprint} {as : List Arrived}
    (h : List.Forall₂ (Fits r d) is as) : is.map Imprint.written = as.map Arrived.written := by
  induction h with
  | nil => rfl
  | cons hfits _ ih => rw [List.map_cons, List.map_cons, hfits.written, ih]

/-- The music of a voice is what it was, and then what the moments bring. -/
theorem Unfolds.written_eq (h : Unfolds settings r ms t) (id : String) (key : VoiceKey) :
    (imprints (t.music id key)).map Imprint.written =
      (imprints (r.music id key)).map Imprint.written ++
        (arrivals settings id key r.partId? ms).map Arrived.written := by
  induction h with
  | nil r => simp [arrivals]
  | @cons m ms t _ hdoes halone _ ih =>
    obtain ⟨new, hnew, hfits⟩ := hdoes.imprints_eq halone id key
    rw [ih, hnew, hdoes.partId, arrivals, List.map_append, List.map_append,
      written_of_fits hfits, List.append_assoc]

/-- Of what a deed brings, only what a note element brings sounds or is written. -/
theorem Deed.visible_of_mem_brings {d : Deed} (hproper : ∀ input, d = .note input → input.Proper)
    {a : Arrived} (h : a ∈ d.brings r key) : a.content.isInvisible = !decide (a.origin = .note) := by
  have hpadding : ∀ line, ∀ a ∈ r.padding key line,
      a.content.isInvisible = !decide (a.origin = .note) := by
    intro line a ha
    unfold Reading.padding at ha
    split at ha
    · rw [List.mem_singleton.mp ha]
      rfl
    · exact nomatch ha
  cases d with
  | note input =>
    dsimp only [brings] at h
    split at h
    · rcases List.mem_append.mp h with h | h
      · split at h
        · exact nomatch h
        · exact hpadding _ a h
      · rw [List.mem_singleton.mp h]
        simp [(hproper input rfl).visible]
    · exact nomatch h
  | forward k duration line =>
    dsimp only [brings] at h
    split at h
    · rcases List.mem_append.mp h with h | h
      · exact hpadding _ a h
      · rw [List.mem_singleton.mp h]
        rfl
    · exact nomatch h
  | backup | enterMeasure | leaveMeasure | enterPart | leavePart | nothing => exact nomatch h

/-- Of all that arrives, only what a note element brings sounds or is written. -/
theorem visible_of_mem_arrivals {part? : Option String} {a : Arrived}
    (h : a ∈ arrivals settings id key part? ms) :
    a.content.isInvisible = !decide (a.origin = .note) := by
  induction ms generalizing part? with
  | nil => exact nomatch h
  | cons m ms ih =>
    rcases List.mem_append.mp h with h | h
    · split at h
      · exact Deed.visible_of_mem_brings (fun _ => Move.proper_of_deed) h
      · exact nomatch h
    · exact ih h

/-- The notes that are no invisible rests are those of which that is written. -/
theorem written_visible (notes : List Note) :
    (notes.filter fun n => !n.isInvisibleRest).map Note.written =
      (notes.map Note.written).filter fun w => !w.1.isInvisible := by
  rw [List.filter_map]
  rfl

/-- **Notes are conserved.** The notes of a voice of a score are what the document brought to it, in
the order of the document and each exactly once. Those that are no invisible rests are the notes of
its note elements; the others are movements forward and padding. -/
theorem Document.notes_conserved {root : Element} {score : Score}
    (h : (Document.read settings root).score = .ok score) :
    (trail settings root).map Moment.move = movesOf root ∧
      ∀ part ∈ score.parts,
        (∀ voice ∈ part.voices,
          voice.notes.map Note.written =
              (arrivals settings part.id voice.key none (trail settings root)).map
                Arrived.written ∧
            (voice.notes.filter fun n => !n.isInvisibleRest).map Note.written =
              ((arrivals settings part.id voice.key none (trail settings root)).filter
                fun a => a.origin = .note).map Arrived.written) ∧
        ∀ key, part.voice? key = none →
          arrivals settings part.id key none (trail settings root) = [] := by
  obtain ⟨last, hunfolds, hcomplete, hmoves⟩ := Document.unfolds h
  have hwritten : ∀ id key, (imprints (last.music id key)).map Imprint.written =
      (arrivals settings id key none (trail settings root)).map Arrived.written :=
    hunfolds.written_eq
  refine ⟨hmoves, fun part hpart => ⟨fun voice hvoice => ?_, fun key hnone => ?_⟩⟩
  · have hall : voice.notes.map Note.written =
        (arrivals settings part.id voice.key none (trail settings root)).map Arrived.written := by
      rw [← hwritten, hcomplete.imprints_eq hpart hvoice, List.map_map]
      rfl
    refine ⟨hall, ?_⟩
    rw [written_visible, hall, List.filter_map]
    congr 1
    apply List.filter_congr
    intro a ha
    have hvisible := visible_of_mem_arrivals ha
    simp [Arrived.written, hvisible]
  · have hempty := hwritten part.id key
    rw [hcomplete.music hpart, Part.music, hnone] at hempty
    exact List.map_eq_nil_iff.mp hempty.symm

/-- A chord in one voice, and a note of another voice that comes in late. -/
def chordAndLateVoice : Element :=
  singleMeasure [noteElement 1 "C" "1" "2" [], noteElement 2 "E" "1" "2" [{ name := "chord" }],
    noteElement 3 "G" "2" "2" [], noteElement 4 "A" "1" "1" []]

/-- Both notes of the chord and the last note are in the first voice, with padding between them. -/
theorem Document.notes_conserved_chord : ∃ score, ∃ part ∈ score.parts, ∃ voice ∈ part.voices,
    (Document.read {} chordAndLateVoice).score = .ok score ∧
      voice.notes.map Note.line = [1, 2, 4, 4] ∧
      (voice.notes.filter fun n => !n.isInvisibleRest).map Note.line = [1, 2, 4] := by
  have hthere : hasVoice chordAndLateVoice "P" ⟨1, 1⟩ (fun _ => true) = true := by
    decide +kernel
  obtain ⟨score, part, hpart, voice, hvoice, hread, hid, hkey, _⟩ := exists_voice hthere
  obtain ⟨hall, hvisible⟩ := ((Document.notes_conserved hread).2 part hpart).1 voice hvoice
  have hlines : ((arrivals {} "P" ⟨1, 1⟩ none (trail {} chordAndLateVoice)).map
        Arrived.written).map Prod.snd = [1, 2, 4, 4] ∧
      (((arrivals {} "P" ⟨1, 1⟩ none (trail {} chordAndLateVoice)).filter
        fun a => a.origin = .note).map Arrived.written).map Prod.snd = [1, 2, 4] := by
    decide +kernel
  rw [hid, hkey] at hall hvisible
  rw [← hall, ← hvisible, List.map_map, List.map_map] at hlines
  exact ⟨score, part, hpart, voice, hvoice, hread, hlines⟩

end Partwise
