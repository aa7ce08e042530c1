import Partwise.Proofs.Music.Grouping

/-!
# Music · Melismas: what a note sings under the slurs of its voice

A note without a syllable sings on under a slur, or nothing. Which of the two it is depends on all
notes of its voice before it, since the voice only counts its open slurs.

* `notesTo`: the notes that a document brings to a voice, and `SungBy`: what they sing, one after
  the other.
* `SungBy.slurDepth_add`: where every slur starts on a note before the one that it stops on, the
  count is that of the starts less that of the stops.
* `Document.melismas`: so a note sings on where more slurs have started before it than stopped.

Grace notes are the exception: those that are no members of a chord are not followed, and their
slurs are not counted (`NoteInput.marksSlurs`). `Document.unsung_graceSlur` is what comes of it:
between the start of a slur and its stop a note sings nothing, since a grace note has started a slur
of its own between the
two. -/

namespace Partwise

open Markup

variable {settings : Settings} {r s t : Reading} {m : Moment} {ms : List Moment} {id : String}
  {key : VoiceKey}

/-! ## The notes of a voice -/

/-- The note that a deed brings to a voice. -/
def Deed.notesTo (key : VoiceKey) : Deed → List NoteInput
  | note input => if input.key = key then [input] else []
  | _ => []

/-- The note that a moment brings to a voice of a part. -/
def Moment.notesTo (settings : Settings) (id : String) (key : VoiceKey) (m : Moment) :
    List NoteInput :=
  if m.before.partId? = some id then (m.move.deed settings m.before).notesTo key else []

/-- The notes that some moments bring to a voice of a part, in their order. -/
def notesTo (settings : Settings) (id : String) (key : VoiceKey) (ms : List Moment) :
    List NoteInput :=
  ms.flatMap (Moment.notesTo settings id key)

/-- What notes sing one after the other, given what their voice remembers before and after them. -/
inductive SungBy (settings : Settings) : Singing → List NoteInput → Singing → List Verse → Prop
  | nil (s : Singing) : SungBy settings s [] s []
  | cons {before between after : Singing} {input : NoteInput} {inputs : List NoteInput}
      {chunks : List LyricChunk} {verses : List Verse}
      (first : Sung settings before input between chunks)
      (rest : SungBy settings between inputs after verses) :
      SungBy settings before (input :: inputs) after ((input.note.asRead, chunks) :: verses)

namespace SungBy

variable {before between after : Singing} {input : NoteInput} {inputs more : List NoteInput}
  {verses verses' : List Verse}

/-- Notes that are sung one after the other are sung together. -/
theorem append (h : SungBy settings before inputs between verses)
    (h' : SungBy settings between more after verses') :
    SungBy settings before (inputs ++ more) after (verses ++ verses') := by
  induction h with
  | nil => exact h'
  | cons first _ ih => exact .cons first (ih h')

/-- What is sung before one of the notes, and what this note sings. -/
theorem split (h : SungBy settings before (inputs ++ input :: more) after verses) :
    ∃ (here there : Singing) (earlier later : List Verse) (chunks : List LyricChunk),
      verses = earlier ++ (input.note.asRead, chunks) :: later ∧ earlier.length = inputs.length ∧
        SungBy settings before inputs here earlier ∧ Sung settings here input there chunks := by
  induction inputs generalizing before verses with
  | nil =>
    cases h with
    | cons first rest => exact ⟨_, _, [], _, _, rfl, rfl, .nil _, first⟩
  | cons i inputs ih =>
    cases h with
    | cons first rest =>
      obtain ⟨here, there, earlier, later, chunks, rfl, hlength, hearlier, hsung⟩ := ih rest
      exact ⟨here, there, _ :: earlier, later, chunks, rfl, by simp [hlength],
        .cons first hearlier, hsung⟩

/-- Every note sings what it is to sing. -/
theorem map_fst (h : SungBy settings before inputs after verses) :
    verses.map Prod.fst = inputs.map fun i => i.note.asRead := by
  induction h with
  | nil => rfl
  | cons _ _ ih => rw [List.map_cons, List.map_cons, ih]

end SungBy

/-! ## Whole readings -/

/-- **One move** brings a voice what its note has to sing. -/
theorem Does.sings (hsound : m.before.Sound)
    (hdoes : Does m.before m.after (m.move.deed settings m.before))
    (halone : ∀ id, m.move.deed settings m.before = .enterPart id → m.before.partId? = none)
    (hstep : Ends (m.move.perform settings) m.before () m.after) (id : String) (key : VoiceKey) :
    ∃ verses, SungBy settings (m.before.singing id key) (m.notesTo settings id key)
        (m.after.singing id key) verses ∧
      versesOf (leavesOf (m.after.music id key)) =
        versesOf (leavesOf (m.before.music id key)) ++ verses := by
  by_cases hhere : m.before.partId? = some id ∧ (m.move.deed settings m.before).voice? = some key
  · obtain ⟨hid, hkey⟩ := hhere
    rw [Moment.notesTo, if_pos hid]
    generalize hdeed : m.move.deed settings m.before = deed at hdoes hkey ⊢
    cases deed with
    | note input =>
      cases hkey
      obtain ⟨id', chunks, after, hid', hintones, hsung⟩ := sung_of_note hsound hstep hdeed
      obtain rfl : id' = id := Option.some.inj (hid'.symm.trans hid)
      rw [Deed.notesTo, if_pos rfl, hintones.here]
      exact ⟨_, .cons hsung (.nil _), hintones.verses⟩
    | forward k duration line =>
      cases hkey
      refine ⟨[], ?_, ?_⟩
      · rw [hdoes.singing_eq fun _ h => Deed.noConfusion h]
        exact .nil _
      · cases hdoes with
        | @forward _ _ _ at' placed _ seats =>
          obtain rfl : at' = id := Option.some.inj (placed.partId.symm.trans hid)
          obtain ⟨rests, n, hrests, hdressed, hleaves⟩ := seats
          have hall : ∀ rest ∈ rests ++ [n], rest.isInvisibleRest = true := by
            intro rest hrest
            rcases List.mem_append.mp hrest with hrest | hrest
            · exact invisible_of_padRests hrests rest hrest
            · rw [List.mem_singleton.mp hrest, hdressed.isInvisibleRest]
              rfl
          have hunsung := versesOf_rests hall
          rw [List.map_append] at hunsung
          rw [hleaves, List.append_assoc, versesOf_append]
          exact congrArg _ hunsung
    | backup | enterMeasure | leaveMeasure | enterPart | leavePart | nothing => exact nomatch hkey
  · have hother := not_and.mp hhere
    refine ⟨[], ?_, by rw [hdoes.music_other halone hother, List.append_nil]⟩
    have hnone : m.notesTo settings id key = [] := by
      unfold Moment.notesTo
      split
      · next hid =>
        generalize m.move.deed settings m.before = deed at hother
        cases deed with
        | note input => exact if_neg fun hkey => hother hid (congrArg some hkey)
        | forward | backup | enterMeasure | leaveMeasure | enterPart | leavePart | nothing => rfl
      · rfl
    have hsame : m.after.singing id key = m.before.singing id key := by
      generalize hdeed : m.move.deed settings m.before = deed at hdoes hother
      cases deed with
      | note input =>
        obtain ⟨id', chunks, after, hid', hintones, _⟩ := sung_of_note hsound hstep hdeed
        refine hintones.others id key ?_
        rintro ⟨⟩
        exact hother hid' rfl
      | forward | backup | enterMeasure | leaveMeasure | enterPart | leavePart | nothing =>
        rw [hdoes.singing_eq fun _ h => Deed.noConfusion h]
    rw [hnone, hsame]
    exact .nil _

/-- **A whole reading** brings a voice what its notes have to sing. -/
theorem Follows.sings (hfollows : Follows settings r ms t) (hunfolds : Unfolds settings r ms t)
    (id : String) (key : VoiceKey) :
    ∃ verses, SungBy settings (r.singing id key) (notesTo settings id key ms) (t.singing id key)
        verses ∧
      versesOf (leavesOf (t.music id key)) = versesOf (leavesOf (r.music id key)) ++ verses := by
  induction hfollows with
  | nil r => exact ⟨[], .nil _, (List.append_nil _).symm⟩
  | @cons m ms t hstep _ ih =>
    obtain ⟨hsound, hdoes, halone, hrest⟩ := hunfolds.of_cons
    obtain ⟨first, hfirst, hbrought⟩ := hdoes.sings hsound halone hstep id key
    obtain ⟨rest, hlater, hall⟩ := ih hrest
    exact ⟨first ++ rest, hfirst.append hlater, by rw [hall, hbrought, List.append_assoc]⟩

/-! ## What notes leave behind -/

/-- The slurs of the note are followed: it is a member of a chord, or no grace note. -/
def NoteInput.marksSlurs (input : NoteInput) : Bool := input.inChord || !input.isGrace

/-- How many slurs start on some notes, as far as they are followed. -/
def slurStarts (inputs : List NoteInput) : Nat :=
  ((inputs.filter NoteInput.marksSlurs).map fun i => i.note.slurStarts).sum

/-- How many slurs stop on some notes, as far as they are followed. -/
def slurStops (inputs : List NoteInput) : Nat :=
  ((inputs.filter NoteInput.marksSlurs).map fun i => i.note.slurStops).sum

/-- The slurs that start on some notes and then on others start on them all. -/
theorem slurStarts_append (as bs : List NoteInput) :
    slurStarts (as ++ bs) = slurStarts as + slurStarts bs := by
  simp [slurStarts]

/-- The slurs that stop on some notes and then on others stop on them all. -/
theorem slurStops_append (as bs : List NoteInput) :
    slurStops (as ++ bs) = slurStops as + slurStops bs := by
  simp [slurStops]

/-- Every slur that stops has started on an earlier note. -/
def SlursBalance (inputs : List NoteInput) : Prop :=
  ∀ i < inputs.length, slurStops (inputs.take (i + 1)) ≤ slurStarts (inputs.take i)

instance (inputs : List NoteInput) : Decidable (SlursBalance inputs) :=
  inferInstanceAs (Decidable (∀ i < inputs.length, _))

/-- The notes have sung the stanza: one of their lyrics is of it. -/
def HasSung (settings : Settings) (inputs : List NoteInput) (stanza : String) : Prop :=
  ∃ input ∈ inputs, input.inChord = false ∧ input.isGrace = false ∧
    settings.keepsStanza stanza = true ∧ ∃ e ∈ input.lyrics, Lyric.stanzaOf e = stanza

instance (inputs : List NoteInput) (stanza : String) :
    Decidable (HasSung settings inputs stanza) :=
  inferInstanceAs (Decidable (∃ input ∈ inputs, _))

/-- The note has no syllable of its own for the stanza. -/
def NoteInput.Silent (input : NoteInput) (stanza : String) : Prop :=
  ∀ e ∈ input.lyrics, Lyric.stanzaOf e = stanza → hasSyllable e = false

instance (input : NoteInput) (stanza : String) : Decidable (input.Silent stanza) :=
  inferInstanceAs (Decidable (∀ e ∈ input.lyrics, _))

/-- What the note sings without a syllable is up to the slurs: it is a note of its own that sounds
and is not tied. -/
structure NoteInput.SingsOn (input : NoteInput) : Prop where
  alone : input.inChord = false
  grace : input.isGrace = false
  untied : input.note.tie? = none
  sounds : input.note.isRest = false

instance (input : NoteInput) : Decidable input.SingsOn :=
  decidable_of_iff (input.inChord = false ∧ input.isGrace = false ∧ input.note.tie? = none ∧
    input.note.isRest = false)
    ⟨fun ⟨alone, grace, untied, sounds⟩ => ⟨alone, grace, untied, sounds⟩,
      fun h => ⟨h.alone, h.grace, h.untied, h.sounds⟩⟩

/-- A note sings on while slurs are open, and otherwise nothing. -/
def LyricKind.IsMelisma (kind : LyricKind) (slursOpen : Prop) : Prop :=
  slursOpen ∧ (kind = .slur ∨ kind = .slurBeyondEnd) ∨ ¬ slursOpen ∧ kind = .none

namespace Sung

variable {before after : Singing} {input : NoteInput} {chunks : List LyricChunk}

/-- The slurs of a note are counted where they are followed. -/
theorem slurDepth_eq (h : Sung settings before input after chunks)
    (hheard : settings.ignoreLyrics = false) :
    after.slurDepth = before.slurDepth - slurStops [input] + slurStarts [input] := by
  cases h with
  | member member => simp [slurStops, slurStarts, NoteInput.marksSlurs, member, Singing.follow,
      Singing.mark, hheard]
  | grace alone grace => simp [slurStops, slurStarts, NoteInput.marksSlurs, alone, grace]
  | sings alone grace sings =>
    obtain ⟨kind, hafter⟩ := sings.singing
    rw [hafter]
    simp [slurStops, slurStarts, NoteInput.marksSlurs, grace, Singing.sing, Singing.mark,
      Singing.learn, hheard]

/-- The stanzas of a note are learnt where it sings. -/
theorem mem_stanzas (h : Sung settings before input after chunks)
    (hheard : settings.ignoreLyrics = false) (stanza : String) :
    stanza ∈ after.stanzas ↔ stanza ∈ before.stanzas ∨ HasSung settings [input] stanza := by
  cases h with
  | member member => simp [HasSung, member, Singing.follow, Singing.mark, hheard]
  | grace alone grace => simp [HasSung, grace]
  | sings alone grace sings =>
    obtain ⟨kind, hafter⟩ := sings.singing
    rw [hafter, Singing.sing, if_neg (by simp [hheard])]
    refine Singing.mem_learn.trans (or_congr_right ?_)
    simp [HasSung, alone, grace, List.mem_filter, and_comm]

/-- A note has a chunk for every stanza that its voice knows. Where it has no syllable, the chunk is
up to the slurs that are open before it. -/
theorem chunk_of_known (h : Sung settings before input after chunks)
    (hheard : settings.ignoreLyrics = false) (hon : input.SingsOn) {stanza : String}
    (hknown : stanza ∈ before.stanzas) (hsilent : input.Silent stanza) :
    (∃ c ∈ chunks, c.stanza = stanza) ∧
      ∀ c ∈ chunks, c.stanza = stanza → c.kind.IsMelisma (0 < before.slurDepth) := by
  have hlearnt := (h.mem_stanzas hheard stanza).mpr (.inl hknown)
  cases h with
  | member member => simp [hon.alone] at member
  | grace _ grace => simp [hon.grace] at grace
  | sings _ _ sings =>
    have hstanzas := sings.stanzas
    rw [if_neg (by simp [hheard])] at hstanzas
    rw [← hstanzas] at hlearnt
    obtain ⟨c, hc, hstanza⟩ := List.mem_map.mp hlearnt
    refine ⟨⟨c, hc, hstanza⟩, ?_⟩
    rintro c hc rfl
    have hkind := sings.standIns c hc hsilent
    rw [Note.StandsIn, hon.untied, Option.isSome_none, if_neg Bool.false_ne_true,
      if_neg (by simp [hon.sounds])] at hkind
    split at hkind
    · next hnone => exact .inr ⟨by omega, hkind⟩
    · next hsome => exact .inl ⟨by omega, hkind⟩

end Sung

namespace SungBy

variable {before after : Singing} {inputs : List NoteInput} {verses : List Verse}

/-- Where every slur that stops has started before, none is stopped in vain. -/
theorem slurDepth_add (h : SungBy settings before inputs after verses)
    (hheard : settings.ignoreLyrics = false)
    (hbalance : ∀ i < inputs.length, slurStops (inputs.take (i + 1)) ≤
      before.slurDepth + slurStarts (inputs.take i)) :
    after.slurDepth + slurStops inputs = before.slurDepth + slurStarts inputs := by
  induction h with
  | nil => rfl
  | @cons before between after input inputs chunks verses first _ ih =>
    have hfirst := first.slurDepth_eq hheard
    have hstops : ∀ more, slurStops (input :: more) = slurStops [input] + slurStops more :=
      slurStops_append [input]
    have hstarts : ∀ more, slurStarts (input :: more) = slurStarts [input] + slurStarts more :=
      slurStarts_append [input]
    have hopen : slurStops [input] ≤ before.slurDepth :=
      hbalance 0 (by simp)
    have hrest := ih fun i hi => by
      have hnext := hbalance (i + 1) (by simpa using hi)
      rw [List.take_succ_cons, List.take_succ_cons, hstops, hstarts] at hnext
      omega
    rw [hstops, hstarts]
    omega

/-- The stanzas that are known are those that were sung. -/
theorem mem_stanzas (h : SungBy settings before inputs after verses)
    (hheard : settings.ignoreLyrics = false) (stanza : String) :
    stanza ∈ after.stanzas ↔ stanza ∈ before.stanzas ∨ HasSung settings inputs stanza := by
  induction h with
  | nil => simp [HasSung]
  | cons first _ ih =>
    rw [ih, first.mem_stanzas hheard, or_assoc]
    refine or_congr_right ?_
    simp [HasSung, or_and_right, exists_or]

end SungBy

/-! ## Whole documents -/

/-- The notes of a voice of a score that are no invisible rests sing what their voice has to
sing. -/
theorem Document.sungBy {root : Element} {score : Score}
    (h : (Document.read settings root).score = .ok score) {part : Part} (hpart : part ∈ score.parts)
    {voice : Voice} (hvoice : voice ∈ part.voices) :
    ∃ after, SungBy settings {} (notesTo settings part.id voice.key (trail settings root)) after
      ((voice.notes.filter fun n => !n.isInvisibleRest).map Note.verse) := by
  obtain ⟨last, hfollows, hunfolds, hcomplete, -⟩ := Document.follows_unfolds h
  obtain ⟨verses, hsung, hverses⟩ := hfollows.sings hunfolds part.id voice.key
  have hall : (voice.notes.filter fun n => !n.isInvisibleRest).map Note.verse = verses := by
    rw [hcomplete.leaves_eq hpart hvoice] at hverses
    rw [hcomplete.notes_eq_leaves hpart hvoice]
    exact hverses.trans (List.nil_append _)
  exact ⟨_, hall ▸ hsung⟩

/-- **Melismas follow the slurs.** The notes of a voice of a score that are no invisible rests are
those that the document brought to it. Take one that sounds and is not tied, alone or as the first
of a chord, and a stanza that was sung before it and that it has no syllable for. If every slur of
the voice stops after it has started, the note has a chunk for the stanza, and it sings on if before
it more slurs have started than stopped, as far as slurs are followed. -/
theorem Document.melismas {root : Element} {score : Score}
    (h : (Document.read settings root).score = .ok score)
    (hheard : settings.ignoreLyrics = false) :
    (trail settings root).map Moment.move = movesOf root ∧
      ∀ part ∈ score.parts, ∀ voice ∈ part.voices, ∀ inputs notes,
        inputs = notesTo settings part.id voice.key (trail settings root) →
        notes = (voice.notes.filter fun n => !n.isInvisibleRest) →
          notes.map Note.asRead = (inputs.map fun i => i.note.asRead) ∧
            (SlursBalance inputs → ∀ i input note, inputs[i]? = some input →
              notes[i]? = some note → input.SingsOn → ∀ stanza,
                HasSung settings (inputs.take i) stanza → input.Silent stanza →
                  (∃ c ∈ note.lyrics, c.stanza = stanza) ∧
                    ∀ c ∈ note.lyrics, c.stanza = stanza → c.kind.IsMelisma
                      (slurStops (inputs.take i) < slurStarts (inputs.take i))) := by
  obtain ⟨_, _, _, hmoves, _⟩ := Document.follows_trail h
  refine ⟨hmoves, ?_⟩
  rintro part hpart voice hvoice inputs notes hinputs hnotes
  obtain ⟨after, hsung⟩ := Document.sungBy h hpart hvoice
  rw [← hinputs, ← hnotes] at hsung
  generalize hall : notes.map Note.verse = verses at hsung
  refine ⟨?_, fun hbalance i input note hinput hnote hon stanza hknown hsilent => ?_⟩
  · rw [← hsung.map_fst, ← hall, List.map_map]
    rfl
  · obtain ⟨hi, hget⟩ := List.getElem?_eq_some_iff.mp hinput
    have hsplit : inputs = inputs.take i ++ input :: inputs.drop (i + 1) := by
      rw [← hget, ← List.drop_eq_getElem_cons hi, List.take_append_drop]
    have htake : (inputs.take i).length = i := by simp [hi.le]
    rw [hsplit] at hsung
    obtain ⟨here, there, earlier, later, chunks, rfl, hlength, hearlier, hhere⟩ := hsung.split
    rw [htake] at hlength
    have hverse : note.verse = (input.note.asRead, chunks) := by
      subst hlength
      simpa [hnote] using congrArg (·[earlier.length]?) hall
    have hlyrics : note.lyrics = chunks := congrArg Prod.snd hverse
    have hdepth := hearlier.slurDepth_add hheard fun j hj => by
      rw [htake] at hj
      have hnext := hbalance j (hj.trans hi)
      rw [List.take_take, List.take_take, Nat.min_eq_left (by omega), Nat.min_eq_left (by omega)]
      omega
    have hstanzas := (hearlier.mem_stanzas hheard stanza).mpr (.inr hknown)
    obtain ⟨hchunk, hkinds⟩ := hhere.chunk_of_known hheard hon hstanzas hsilent
    rw [hlyrics]
    have hopen : (0 < here.slurDepth) =
        (slurStops (inputs.take i) < slurStarts (inputs.take i)) := by
      rw [Nat.zero_add] at hdepth
      exact propext (by omega)
    rw [← hopen]
    exact ⟨hchunk, hkinds⟩

/-- A mark of a slur. -/
def slurMark (kind : String) : Element :=
  { name := "notations", children := [{ name := "slur", attributes := [("type", kind)] }] }

/-- A lyric of one syllable. -/
def syllable : Element := { name := "lyric", children := [textElement "text" "la"] }

/-- Both notes of a chord start a slur; the next two notes stop one each, and a last one follows. -/
def slursFromChord : Element :=
  singleMeasure [noteElement 1 "C" "1" "1" [syllable, slurMark "start"],
    noteElement 2 "E" "1" "1" [{ name := "chord" }, slurMark "start"],
    noteElement 3 "D" "1" "1" [slurMark "stop"], noteElement 4 "F" "1" "1" [slurMark "stop"],
    noteElement 5 "G" "1" "1" []]

/-- One of the two slurs is open before the fourth note, which sings on. None is before the
fifth. -/
theorem Document.melismas_slursFromChord : ∃ score, ∃ part ∈ score.parts, ∃ voice ∈ part.voices,
    (Document.read {} slursFromChord).score = .ok score ∧
      ∃ under after, voice.notes[3]? = some under ∧ voice.notes[4]? = some after ∧
        (∃ c ∈ under.lyrics, c.stanza = "1" ∧ (c.kind = .slur ∨ c.kind = .slurBeyondEnd)) ∧
          ∃ c ∈ after.lyrics, c.stanza = "1" ∧ c.kind = .none := by
  have hthere : hasVoice slursFromChord "P" ⟨1, 1⟩ (fun voice =>
      (voice.notes.filter fun n => !n.isInvisibleRest) = voice.notes) = true := by
    decide +kernel
  obtain ⟨score, part, hpart, voice, hvoice, hread, hid, hkey, hnotes⟩ := exists_voice hthere
  generalize hinputs : notesTo {} "P" ⟨1, 1⟩ (trail {} slursFromChord) = inputs
  obtain ⟨hwritten, hmelismas⟩ := (Document.melismas hread rfl).2 part hpart voice hvoice inputs
    voice.notes (by rw [hid, hkey, hinputs]) (of_decide_eq_true hnotes).symm
  have hfacts : inputs.length = 5 ∧ SlursBalance inputs ∧
      (∀ i (hi : i < inputs.length), 3 ≤ i → inputs[i].SingsOn ∧
        HasSung {} (inputs.take i) "1" ∧ inputs[i].Silent "1") ∧
      slurStops (inputs.take 3) < slurStarts (inputs.take 3) ∧
      ¬ slurStops (inputs.take 4) < slurStarts (inputs.take 4) := by
    rw [← hinputs]
    decide +kernel
  obtain ⟨hlength, hbalance, hsilent, hopen, hclosed⟩ := hfacts
  have hnotes : voice.notes.length = 5 := by
    simpa [hlength] using congrArg List.length hwritten
  have hsings := fun i (hi : i < 5) (hlate : 3 ≤ i) =>
    have hfacts := hsilent i (hlength ▸ hi) hlate
    hmelismas hbalance i _ _ (List.getElem?_eq_getElem (hlength ▸ hi))
      (List.getElem?_eq_getElem (hnotes ▸ hi)) hfacts.1 "1" hfacts.2.1 hfacts.2.2
  obtain ⟨⟨c, hc, hstanza⟩, hkinds⟩ := hsings 3 (by decide) (by decide)
  obtain ⟨⟨c', hc', hstanza'⟩, hkinds'⟩ := hsings 4 (by decide) (by decide)
  refine ⟨score, part, hpart, voice, hvoice, hread, _, _,
    List.getElem?_eq_getElem (by omega), List.getElem?_eq_getElem (by omega),
    ⟨c, hc, hstanza, ?_⟩, c', hc', hstanza', ?_⟩
  · rcases hkinds c hc hstanza with ⟨_, hkind⟩ | ⟨hnone, _⟩
    · exact hkind
    · exact absurd hopen hnone
  · rcases hkinds' c' hc' hstanza' with ⟨hsome, _⟩ | ⟨_, hkind⟩
    · exact absurd hsome hclosed
    · exact hkind

/-- A note starts a slur, a grace note starts another, and the next two notes stop one each. -/
def graceSlur : Element :=
  singleMeasure [noteElement 1 "C" "1" "1" [syllable, slurMark "start"],
    noteElement 2 "D" "1" "1" [{ name := "grace" }, slurMark "start"],
    noteElement 3 "E" "1" "1" [slurMark "stop"], noteElement 4 "F" "1" "1" [slurMark "stop"]]

/-- Two slurs have started and one has stopped before the last note, and every slur stops after it
has started. But the grace note is not followed, and so the last note sings nothing. -/
theorem Document.unsung_graceSlur : ∃ score, ∃ part ∈ score.parts, ∃ voice ∈ part.voices,
    (Document.read {} graceSlur).score = .ok score ∧ part.id = "P" ∧ voice.key = ⟨1, 1⟩ ∧
      (∀ i < (notesTo {} "P" ⟨1, 1⟩ (trail {} graceSlur)).length,
        (((notesTo {} "P" ⟨1, 1⟩ (trail {} graceSlur)).take (i + 1)).map
            fun input => input.note.slurStops).sum ≤
          (((notesTo {} "P" ⟨1, 1⟩ (trail {} graceSlur)).take i).map
            fun input => input.note.slurStarts).sum) ∧
        (((notesTo {} "P" ⟨1, 1⟩ (trail {} graceSlur)).take 3).map fun input =>
          (input.note.slurStarts, input.note.slurStops)) = [(1, 0), (1, 0), (0, 1)] ∧
          voice.notes.map (fun note => note.lyrics.map LyricChunk.kind) =
            [[.single], [], [.slur], [.none]] := by
  have hthere : hasVoice graceSlur "P" ⟨1, 1⟩ (fun voice =>
      voice.notes.map (fun note => note.lyrics.map LyricChunk.kind) =
        [[.single], [], [.slur], [.none]]) = true := by
    decide +kernel
  obtain ⟨score, part, hpart, voice, hvoice, hread, hid, hkey, hkinds⟩ := exists_voice hthere
  refine ⟨score, part, hpart, voice, hvoice, hread, hid, hkey, ?_, ?_, of_decide_eq_true hkinds⟩
  · decide +kernel
  · decide +kernel

end Partwise
