import Partwise.Proofs.Music.Openings
import Partwise.Proofs.Reading.Leeway

/-!
# Reading · Selection: what is left of a score when stanzas are left out

A document that is read without a list of stanzas is read with any such list, too
(`Document.read_kept`). The second score has the lyrics and stanzas of the first one that are in the
list, in the same order, and nothing else of it is different, but for one thing: a voice remembers
of its first stanza only on which syllable a slur began. Where that stanza is left out, a note of
another one that goes on under the slur can be `slur` in one of the scores and `slurBeyondEnd` in
the other (`slurOverStanzas`).

The two readings are followed side by side, and the stanzas of the first one are in order at all
times (`stanzasAscend_invariant`): what is picked out of them is what the second one has learnt. So
the two scores are the same in the guise `Guise.sung`, in which the two kinds look alike. Which of
them a note has in the second score is what `OpenSlurs.selectAll` says: both readings bring the same
notes to every voice (`Likeness.Uniform.notesTo_eq`), and so the voices may be compared note by
note.
-/

namespace Partwise

open Markup

/-! ## Readings with and without a list -/

/-- A part of which some stanzas are shown. -/
def Part.sung (keep : String → Bool) (p : Part) : Part :=
  p.guise (.sung keep) fun divisions => divisions

/-- The first reading knows more stanzas than the second one. Findings about syllables do not count,
since the second one does not look at those it leaves out. -/
def Pairing.sung (keep : String → Bool) : Pairing where
  heeds d := d.kind ≠ "unknown_syllabic"
  fails f g := f = g
  lenient := False
  first := .sung keep
  second := .sung fun _ => true
  divisions _ divisions := divisions
  divisions' _ divisions := divisions
  marks a b := a = b
  among _ := True

/-- The pairing of the kept stanzas is plain: nothing in it hangs on divisions, tuplets or parts. -/
theorem Pairing.sung_plain (keep : String → Bool) : (Pairing.sung keep).Plain where
  failure _ := rfl
  first := Guise.sung_lawful keep
  second := Guise.sung_lawful _
  note n hsilent := by simp only [Pairing.sung, Guise.sung, hsilent, keptChunks, List.filter_nil]
  queue h := congrArg (· ++ _) h
  divisions := rfl
  divisions' := rfl
  tuplets := rfl
  among _ := trivial
  unknown _ := id
  noMarks := rfl

namespace Selection

/-- The stanzas of all voices of a part are in order. -/
abbrev Ordered (p : Part) : Prop := ∀ v ∈ p.voices, StanzasAscend v.stanzas

/-- Readings are alike of which the second one shows what the first one shows of the kept
stanzas. -/
def likeness (keep : String → Bool) : Likeness := (Pairing.sung keep).likeness.keeping Ordered

/-- That one reading shows what the other shows of the kept stanzas goes together with whole
documents. -/
theorem uniform (keep : String → Bool) : (likeness keep).Uniform :=
  (Pairing.sung_plain keep).uniform.keeping stanzasAscend_invariant.part

/-- That one reading shows what the other shows of the kept stanzas goes together with all that
reading does. -/
theorem lawful (keep : String → Bool) : (likeness keep).Lawful := (uniform keep).toLawful

variable {settings : Settings} {kept : List String} {key : VoiceKey} {n n' : Note}

/-- The settings with a list of the stanzas that are kept. -/
abbrev listed (settings : Settings) (kept : List String) : Settings :=
  { settings with stanzaFilter? := some kept }

/-- Marks that wait are taken alike, for which stanzas are kept makes no difference to them. -/
theorem takePending (hn : (likeness kept.contains).note n n') :
    (likeness kept.contains).Parallel (likeness kept.contains).note
      (Partwise.takePending settings n) (Partwise.takePending (listed settings kept) n') := by
  refine (lawful _).takePending (fun h => h) rfl rfl hn (congrArg Note.kind hn :)
    (congrArg Note.content hn :) fun marks => ?_
  exact congrArg (fun n : Note => { n with attachments := n.attachments ++ marks }) hn

/-- Voices sing alike, one all lyrics and the other one those that are kept. -/
theorem singNote (hall : settings.stanzaFilter? = none) (hn : (likeness kept.contains).note n n')
    (lyrics : List Element) :
    (likeness kept.contains).Parallel (likeness kept.contains).note
      (Partwise.singNote settings key n lyrics)
      (Partwise.singNote (listed settings kept) key n' lyrics) := by
  have hspared : ∀ line word, (likeness kept.contains).heeds
      ((Finding.unknownWord .syllabic word).onLine line) = false := fun _ _ => rfl
  have hfirst : (lyrics.filter fun e => settings.keepsStanza (Lyric.stanzaOf e)) = lyrics := by
    simp [Settings.keepsStanza, hall]
  unfold Partwise.singNote
  rw [hfirst, (lawful kept.contains).noteLine hn]
  split
  · exact .pure hn
  · have hdecode : (likeness kept.contains).Parallel
        (fun ls ls' => ls' = ls.filter fun l => kept.contains l.stanza)
        (lyrics.mapM fun e => (Lyric.ofElement e : Step Lyric))
        ((lyrics.filter fun e => (listed settings kept).keepsStanza (Lyric.stanzaOf e)).mapM
          fun e => (Lyric.ofElement e : Step Lyric)) := by
      refine fun r s h => .aside (.mapM (Lyric.aside hspared) _) (.mapM (Lyric.aside hspared) _) ?_
      rintro _ _ _ _ ⟨rfl, rfl⟩ ⟨rfl, rfl⟩
      refine ⟨?_, h⟩
      rw [List.filter_map]
      rfl
    refine hdecode.bind ?_
    rintro lyrics _ rfl
    refine (lawful _).withVoice fun r s p q v w h hp hq hpq hv hw => ?_
    have hordered : StanzasAscend v.stanzas := hpq.2.1 v (List.mem_of_find?_eq_some hv)
    obtain ⟨hvoice, hsung⟩ := Voice.sing_sung lyrics hordered (hpq.1.1.voice hv hw) hn
    dsimp only
    have htold : ∀ (r : Reading) (chunks : List LyricChunk), (likeness kept.contains).Aside
        (chunks.forM fun chunk =>
          liftM (tell (.lyricAligned n'.line chunk.stanza chunk.kind chunk.text?))) r
        fun _ t => t = r := fun r chunks => .forM (fun _ => .tell rfl) chunks
    refine ParallelAt.bind (R := fun r' s' => r' = r ∧ s' = s) (A := Eq)
      (.aside (htold r _) (htold s _) fun _ _ _ _ hr hs => ⟨rfl, hr, hs⟩) ?_
    rintro _ _ _ _ - ⟨rfl, rfl⟩
    have hkey : (v.sing n lyrics).1.key = key :=
      (v.still_sing n lyrics).1.key.trans (Part.key_of_voice? hv)
    refine ParallelAt.bind ((lawful _).changeParts h hp hq hpq rfl ⟨⟨hpq.1.1.setVoice hkey hvoice,
      trivial⟩, stanzasAscend_invariant.part.setVoice hpq.2 hv (.sing n lyrics)⟩) ?_
    exact fun _ _ _ _ _ h' => .pure hsung h'

/-- Slurs are followed alike. -/
theorem markSlurs {p q : Part} (slurs : List Slur) (kind kind' : LyricKind)
    (h : (likeness kept.contains).here p q) :
    (likeness kept.contains).here (p.modifyVoice key fun v => v.markSlurs slurs kind)
      (q.modifyVoice key fun v => v.markSlurs slurs kind') := by
  refine ⟨⟨h.1.1.of_map (fun p => p.modifyVoice key fun v => v.followSlurs slurs) rfl rfl ?_
    (p.modifyVoice_guise fun v => v.markSlurs_sung ..)
    (q.modifyVoice_guise fun v => v.markSlurs_sung ..), trivial⟩, ?_⟩
  · exact Pairing.Resemble.keyed_modifyVoice (fun v hv => (v.still_markSlurs ..).key.trans hv) h.2.2
  · exact stanzasAscend_invariant.part.modifyVoice h.2 fun _ _ _ => .markSlurs slurs kind

/-- **The policy** of a list of stanzas. -/
theorem policy (hall : settings.stanzaFilter? = none) (kept : List String) :
    Policy (likeness kept.contains) settings (listed settings kept) where
  place h e current := by
    have hmax : settings.maxVoiceNumber = (listed settings kept).maxVoiceNumber := rfl
    rw [(lawful _).place hmax h]
    exact .refl (Surroundings.steady_place ..).blind (lawful _).failure
  takePending := takePending
  singNote hn hlyrics r s h := by
    cases hlyrics trivial
    exact singNote hall hn _ r s h.1
  joinChord {i i'} hi := by
    refine (lawful _).joinChord hi (takePending hi.note) fun n n' hn r s h => ?_
    have hmark : (likeness kept.contains).Parallel Eq
        (markMember settings i.note.line i.key n)
        (markMember (listed settings kept) i.note.line i.key n') := by
      have hslurs : n.slurs = n'.slurs := (congrArg Note.slurs hn :)
      unfold markMember
      rw [hslurs]
      split
      · exact (lawful _).changeVoice fun _ _ h => markSlurs _ _ _ h
      · exact .pure rfl
    exact Parallel.bind hmark (fun _ _ _ => (lawful _).joinMember hn) r s h.1
  dropPending _ := (lawful _).dropPending (fun h => h) rfl

end Selection

/-! ## Documents -/

/-- Under two settings that are alike a document brings the same notes to a voice. -/
theorem Likeness.Uniform.notesTo_eq {L : Likeness} {settings settings' : Settings}
    (hL : L.Uniform) (hexacting : ¬ L.lenient) (P : Policy L settings settings') (root : Element)
    (id : String) (key : VoiceKey) :
    notesTo settings' id key (Partwise.trail settings' root) =
      notesTo settings id key (Partwise.trail settings root) := by
  have htrails := hL.trails hexacting P root
  unfold notesTo
  generalize Partwise.trail settings root = ms at htrails
  generalize Partwise.trail settings' root = ms' at htrails
  induction htrails with
  | nil => rfl
  | @cons m m' _ _ hm _ ih =>
    have hsame : Moment.notesTo settings' id key m' = Moment.notesTo settings id key m := by
      rw [Moment.notesTo, Moment.notesTo, ← hm.1.partId, hm.2, hL.deed hexacting P m.move hm.1]
    rw [List.flatMap_cons, List.flatMap_cons, hsame, ih]

/-- **A list of stanzas is a projection.** A document that is read without such a list is read with
any. The second score is what the first one is without the stanzas that are not in the list, apart
from where notes go on under slurs, and the same is found, but for syllables that are in no list.

Every note has its chunks of the listed stanzas in the second score. Only if slurs are open before
it, and the note that opened them is the end of a word by its first chunk and not by its first chunk
of a listed stanza, or the other way round, `slur` and `slurBeyondEnd` are exchanged in them. -/
theorem Document.read_kept {settings : Settings} {root : Element} {t : Transcript}
    (hall : settings.stanzaFilter? = none) (kept : List String)
    (h : (Document.read settings root).transcript = .ok t) :
    ∃ t', (Document.read { settings with stanzaFilter? := some kept } root).transcript = .ok t' ∧
      t'.score.mapParts (Part.sung fun _ => true) = t.score.mapParts (Part.sung kept.contains) ∧
      t'.diagnostics.marks.filter (fun d => d.kind ≠ "unknown_syllabic") =
        t.diagnostics.marks.filter (fun d => d.kind ≠ "unknown_syllabic") ∧
      ∀ part ∈ t.score.parts, ∀ part' ∈ t'.score.parts, part'.id = part.id →
        ∀ voice ∈ part.voices, ∀ voice' ∈ part'.voices, voice'.key = voice.key →
          ∀ inputs notes notes', inputs = notesTo settings part.id voice.key (trail settings root) →
            notes = (voice.notes.filter fun n => !n.isInvisibleRest) →
            notes' = (voice'.notes.filter fun n => !n.isInvisibleRest) →
              notes.map Note.asRead = (inputs.map fun i => i.note.asRead) ∧
                notes'.map Note.asRead = notes.map Note.asRead ∧
                  notes'.map Note.lyrics = OpenSlurs.selectAll kept.contains {}
                    (inputs.zip (notes.map Note.lyrics)) := by
  have hpolicy := Selection.policy hall kept
  have hagree := (Selection.uniform kept.contains).read trivial hpolicy
    (fun _ _ drafts h => Pairing.groups (h.parts.imp fun _ _ hpq => hpq.1) drafts) root
  obtain ⟨t', hread, ⟨hidentification, hgroups⟩, hdiagnostics⟩ := hagree.transcript h
  refine ⟨t', hread, ?_, hdiagnostics.symm, ?_⟩
  · unfold Score.mapParts
    rw [hidentification]
    exact congrArg (Score.mk t'.score.identification) hgroups.symm
  · intro part hpart part' hpart' hid voice hvoice voice' hvoice' hkey inputs notes notes' hinputs
      hnotes hnotes'
    obtain ⟨_, hsung⟩ := Document.sungBy (Outcome.score_of_transcript h) hpart hvoice
    obtain ⟨_, hsung'⟩ := Document.sungBy (Outcome.score_of_transcript hread) hpart' hvoice'
    have hsame := (Selection.uniform kept.contains).notesTo_eq (fun h => h) hpolicy root part.id
      voice.key
    rw [← hinputs, ← hnotes] at hsung
    rw [hid, hkey, hsame, ← hinputs, ← hnotes'] at hsung'
    have hwritten := hsung.map_fst
    have hwritten' := hsung'.map_fst
    have hlyrics := hsung.selectAll hsung' hall
    simp only [List.map_map] at hwritten hwritten' hlyrics
    exact ⟨hwritten, hwritten'.trans hwritten.symm, hlyrics⟩

/-- A document is read if its score is seen to be of some kind. -/
theorem Outcome.exists_transcript {o : Outcome} {holds : Score → Bool}
    (h : (o.score.map holds).toOption = some true) :
    ∃ t, o.transcript = .ok t ∧ holds t.score = true := by
  unfold Outcome.transcript
  generalize o.score = x at h
  cases x with
  | error => exact nomatch h
  | ok score => exact ⟨_, rfl, Option.some.inj h⟩

/-- The kinds of the chunks of the notes that are no invisible rests, note by note. -/
def Voice.kindsSung (voice : Voice) : List (List LyricKind) :=
  (voice.notes.filter fun n => !n.isInvisibleRest).map fun n => n.lyrics.map LyricChunk.kind

/-- The score has a part and in it a voice with chunks of these kinds. -/
def Score.sings (id : String) (key : VoiceKey) (kinds : List (List LyricKind)) (score : Score) :
    Bool :=
  score.parts.any fun part => part.id = id && part.voices.any fun voice =>
    voice.key = key && voice.kindsSung = kinds

/-- A score in which a voice sings some kinds has the part and the voice. -/
theorem Score.of_sings {id : String} {key : VoiceKey} {kinds : List (List LyricKind)}
    {score : Score}
    (h : score.sings id key kinds = true) :
    ∃ part ∈ score.parts, part.id = id ∧ ∃ voice ∈ part.voices, voice.key = key ∧
      voice.kindsSung = kinds := by
  simpa [sings] using h

/-- A syllable of a stanza. -/
def syllableOf (stanza syllabic : String) : Element :=
  { name := "lyric"
    attributes := [("number", stanza)]
    children := [textElement "syllabic" syllabic, textElement "text" "la"] }

/-- A slur begins on the end of a word of the second stanza, while the first stanza has a word of
its own there. Another slur begins where a word of both stanzas ends. After each of them there is a
note that goes on under it. -/
def slursOverStanzas : Element :=
  singleMeasure [noteElement 1 "C" "1" "1"
      [slurMark "start", syllableOf "1" "single", syllableOf "2" "end"],
    noteElement 2 "D" "1" "1" [slurMark "stop"],
    noteElement 3 "E" "1" "1" [slurMark "start", syllableOf "1" "end", syllableOf "2" "end"],
    noteElement 4 "F" "1" "1" [slurMark "stop"]]

/-- The second stanza is left alone. Of the kinds by which its notes go on under slurs, the first
one is exchanged, and the second one is the same. -/
theorem Document.read_kept_slursOverStanzas : ∃ t t',
    (Document.read {} slursOverStanzas).transcript = .ok t ∧
      (Document.read { stanzaFilter? := some ["2"] } slursOverStanzas).transcript = .ok t' ∧
        t'.score.mapParts (Part.sung fun _ => true) =
          t.score.mapParts (Part.sung (["2"] : List String).contains) ∧
        ∃ part ∈ t.score.parts, ∃ part' ∈ t'.score.parts, ∃ voice ∈ part.voices,
          ∃ voice' ∈ part'.voices, part'.id = part.id ∧ voice'.key = voice.key ∧
            voice.kindsSung =
              [[.single, .end], [.slur, .slur], [.end, .end], [.slurBeyondEnd, .slurBeyondEnd]] ∧
            voice'.kindsSung = [[.end], [.slurBeyondEnd], [.end], [.slurBeyondEnd]] ∧
            (voice'.notes.filter fun n => !n.isInvisibleRest).map Note.lyrics =
              OpenSlurs.selectAll (["2"] : List String).contains {}
                ((notesTo {} part.id voice.key (trail {} slursOverStanzas)).zip
                  ((voice.notes.filter fun n => !n.isInvisibleRest).map Note.lyrics)) := by
  have hread : ((Document.read {} slursOverStanzas).score.map (Score.sings "P" ⟨1, 1⟩
      [[.single, .end], [.slur, .slur], [.end, .end],
        [.slurBeyondEnd, .slurBeyondEnd]])).toOption = some true := by
    decide +kernel
  have hread' : ((Document.read { stanzaFilter? := some ["2"] } slursOverStanzas).score.map
      (Score.sings "P" ⟨1, 1⟩ [[.end], [.slurBeyondEnd], [.end],
        [.slurBeyondEnd]])).toOption = some true := by
    decide +kernel
  obtain ⟨t, ht, hsings⟩ := Outcome.exists_transcript hread
  obtain ⟨u, hu, hsings'⟩ := Outcome.exists_transcript hread'
  obtain ⟨t', ht', hsung, -, hvoices⟩ := Document.read_kept rfl ["2"] ht
  obtain rfl : u = t' := Except.ok.inj (hu.symm.trans ht')
  obtain ⟨part, hpart, hid, voice, hvoice, hkey, hkinds⟩ := Score.of_sings hsings
  obtain ⟨part', hpart', hid', voice', hvoice', hkey', hkinds'⟩ := Score.of_sings hsings'
  have hsame : part'.id = part.id := hid'.trans hid.symm
  have hsame' : voice'.key = voice.key := hkey'.trans hkey.symm
  obtain ⟨-, -, hselect⟩ := hvoices part hpart part' hpart' hsame voice hvoice voice' hvoice' hsame'
    _ _ _ rfl rfl rfl
  exact ⟨t, u, ht, hu, hsung, part, hpart, part', hpart', voice, hvoice, voice', hvoice', hsame,
    hsame', hkinds, hkinds', hselect⟩

/-- The kinds of all chunks of a stanza, in the order of parts, voices and notes. -/
def Score.kindsOf (stanza : String) (score : Score) : List LyricKind :=
  score.parts.flatMap fun part => part.voices.flatMap fun voice => voice.notes.flatMap fun note =>
    (note.lyrics.filter fun c => c.stanza = stanza).map LyricChunk.kind

/-- The first of the two slurs alone. -/
def slurOverStanzas : Element :=
  singleMeasure [noteElement 1 "C" "1" "1"
      [slurMark "start", syllableOf "1" "single", syllableOf "2" "end"],
    noteElement 2 "D" "1" "1" [slurMark "stop"]]

/-- Of all stanzas the first one says that the slur began on a word of its own. Where it is left
out, the second one says that it began on the end of a word, and so its chunk on the next note is of
another kind. -/
theorem Document.slurBegun_slurOverStanzas : ∃ t t',
    (Document.read {} slurOverStanzas).transcript = .ok t ∧
      (Document.read { stanzaFilter? := some ["2"] } slurOverStanzas).transcript = .ok t' ∧
        t.score.kindsOf "2" = [.end, .slur] ∧ t'.score.kindsOf "2" = [.end, .slurBeyondEnd] := by
  have hread : ((Document.read {} slurOverStanzas).score.map fun score =>
      decide (score.kindsOf "2" = [.end, .slur])).toOption = some true := by
    decide +kernel
  have hread' : ((Document.read { stanzaFilter? := some ["2"] } slurOverStanzas).score.map
      fun score => decide (score.kindsOf "2" = [.end, .slurBeyondEnd])).toOption = some true := by
    decide +kernel
  obtain ⟨t, ht, hkinds⟩ := Outcome.exists_transcript hread
  obtain ⟨t', ht', hkinds'⟩ := Outcome.exists_transcript hread'
  exact ⟨t, t', ht, ht', of_decide_eq_true hkinds, of_decide_eq_true hkinds'⟩

end Partwise
