import Partwise.Proofs.Music.Marks
import Partwise.Proofs.Reading.Resemblance

/-!
# Reading · Leeway: what the settings do not decide

Settings say which voice numbers are accepted, which lyrics are sung, and whether marks wait behind
a rest. Nothing else depends on them: `Transcript.bare` is a transcript without lyrics, without what
voices remember of them, without marks, and without the findings that are about these. A document
that is read under some settings is read under all others that accept the same voices, and to a
transcript that is `bare` the same (`Document.read_bare`).

The two readings are followed side by side (`Reading.Resemblance`), both in the guise `Guise.bare`.
Where one of them follows lyrics and slurs and the other does not, the voice has begun in both: it
has the note before, or the member of a chord cannot join it and the first reading
fails. -/

namespace Partwise

open Markup

/-! ## Bare scores -/

/-- Scores without lyrics and marks. -/
def Guise.bare : Guise where
  note n := { n with attachments := ∅, lyrics := [] }
  chord c :=
    { c with
      attachments := ∅
      notes := c.notes.map fun n => { n with attachments := ∅, lyrics := [] } }
  tuplets := id
  stanzas _ := []
  slurDepth _ := 0
  slurOpening _ := none

/-- A part without lyrics and marks. -/
def Part.bare (p : Part) : Part := p.guise .bare fun divisions => divisions

/-- A finding about syllables or marks. -/
def Diagnostic.isSpared (d : Diagnostic) : Bool :=
  d.kind = "unknown_syllabic" || d.kind = "attachments_on_rest" || d.kind = "attachments_dropped"

/-- A transcript without lyrics and marks, and without the findings about them. -/
def Transcript.bare (t : Transcript) : Transcript where
  score := t.score.mapParts Part.bare
  diagnostics := ⟨t.diagnostics.marks.filter fun d => !d.isSpared⟩

/-- Reading goes together with the guise without lyrics and marks. -/
theorem Guise.bare_lawful : Guise.bare.Lawful where
  isRest _ := rfl
  line _ := rfl
  length _ := rfl
  measure _ := rfl
  chordMeasure _ := rfl
  ofPair _ _ := rfl
  absorb c n := by simp [bare, Chord.absorb]
  skip _ _ _ _ _ _ := rfl
  stanzas := rfl
  slurDepth := rfl
  slurOpening := rfl

/-! ## Lyrics -/

/-- A lyric is read in any case, if it does not count that its syllable is in no list. -/
theorem Lyric.aside {S : Standard} {r : Reading}
    (hspared : ∀ line word, S.heeds ((Finding.unknownWord .syllabic word).onLine line) = false)
    (e : Element) :
    S.Aside (liftM (Lyric.ofElement e)) r fun l t => l = Lyric.said e ∧ t = r := by
  intro j
  unfold Lyric.ofElement Lyric.said wordOr
  rcases e.childText? "syllabic" with _ | word
  · exact ⟨_, r, [], rfl, rfl, rfl, rfl⟩
  · dsimp only
    rcases (Vocabulary.ofWord? word : Option LyricKind) with _ | kind
    · refine ⟨_, r, [.found e.line (.unknownWord .syllabic word)], rfl, ?_, rfl, rfl⟩
      simp [Standard.heard, Journal.diagnostics, Entry.diagnostic?, hspared]
    · exact ⟨_, r, [], rfl, rfl, rfl, rfl⟩

/-! ## Readings under two settings -/

/-- Both readings are looked at without lyrics and marks. Nothing is asked where the first one
fails. -/
def Pairing.bare : Pairing where
  heeds d := !d.isSpared
  fails f g := f = g
  lenient := True
  first := .bare
  second := .bare
  divisions _ := id
  divisions' _ := id
  marks _ _ := True
  among _ := True

namespace Leeway

/-- Readings are alike that are the same without lyrics and marks. -/
def likeness : Likeness := Pairing.bare.likeness

/-- The pairing without lyrics and marks is plain: nothing in it hangs on divisions, tuplets or
parts. -/
theorem plain : Pairing.bare.Plain where
  failure _ := rfl
  first := Guise.bare_lawful
  second := Guise.bare_lawful
  note _ _ := rfl
  queue _ := trivial
  divisions := rfl
  divisions' := rfl
  tuplets := rfl
  among _ := trivial
  unknown _ := id
  noMarks := trivial

/-- That readings are the same without lyrics and marks goes together with whole documents. -/
theorem uniform : likeness.Uniform := plain.uniform

/-- That readings are the same without lyrics and marks goes together with all that reading does. -/
theorem lawful : likeness.Lawful := uniform.toLawful

variable {r s : Reading} {p q : Part} {settings settings' : Settings}

/-- The first settings accept no voice that the second ones refuse. -/
theorem place (hmax : settings.maxVoiceNumber ≤ settings'.maxVoiceNumber)
    (h : likeness.Alike r s) (e : Element) (current : VoiceKey) :
    Concur likeness.toStandard Eq ((r.surroundings settings).place e current)
      ((s.surroundings settings').place e current) := by
  have hrefuse : (r.surroundings settings).greatestVoice ≤
      (s.surroundings settings').greatestVoice := hmax
  unfold Surroundings.place
  rw [lawful.firstVoiceOn h]
  refine (Concur.refl (Steady.ask _).blind lawful.failure).bind ?_
  rintro staff? _ rfl
  extract_lets named named'
  have hnamed : ∀ staff, Concur likeness.toStandard Eq (named staff) (named' staff) := by
    intro staff
    refine (Concur.refl (Steady.ask _).blind lawful.failure).bind ?_
    rintro voice? _ rfl
    dsimp only
    split
    · exact .pure rfl
    · next n =>
      split
      · exact fun _ _ _ => .spared trivial
      · rw [if_neg (by omega)]
        exact .pure rfl
  split
  · exact (Concur.pure rfl).bind fun staff _ heq => heq ▸ hnamed staff
  · have hsteady : ∀ n, Steady (staffCount e.line .staffNotPositive .staffTooLarge n) :=
      Surroundings.steady_staffCount _ (fun _ => trivial) fun _ => trivial
    exact (Concur.refl (hsteady _).blind lawful.failure).bind fun staff _ heq => heq ▸ hnamed staff

/-- Some other marks wait. -/
def MarksChange (r t : Reading) : Prop :=
  ∃ pending, t = { r with passage := { r.passage with pending } }

/-- A note takes the marks that wait, or leaves them. -/
theorem takes (settings : Settings) (r : Reading) (n : Note) :
    likeness.Aside (Partwise.takePending settings n) r fun n' t =>
      Guise.bare.note n' = Guise.bare.note n ∧ MarksChange r t := by
  have hsame : MarksChange r r := ⟨_, rfl⟩
  have htake : likeness.Aside
      (do
        changePassage fun p => { p with pending := ∅ }
        pure { n with attachments := n.attachments ++ r.passage.pending }) r fun n' t =>
      Guise.bare.note n' = Guise.bare.note n ∧ MarksChange r t := by
    refine .bind (P := fun _ t => MarksChange r t) (.modify ⟨_, rfl⟩) fun _ t ht => ?_
    exact .pure ⟨rfl, ht⟩
  refine .get ?_
  dsimp only
  split
  · exact .pure ⟨rfl, hsame⟩
  · split
    · exact .pure ⟨rfl, hsame⟩
    · split
      · refine .bind (P := fun _ t => t = r) (.find rfl rfl) ?_
        rintro _ _ rfl
        exact htake
      · exact htake

/-- Notes take marks alike, whatever the settings let them take. -/
theorem takePending {n n' : Note} (hn : likeness.note n n') :
    likeness.Parallel likeness.note (Partwise.takePending settings n)
      (Partwise.takePending settings' n') := by
  intro r s h
  refine .aside (takes settings r n) (takes settings' s n') ?_
  rintro m _ m' _ ⟨hm, pending, rfl⟩ ⟨hm', pending', rfl⟩
  exact ⟨hm.trans (hn.trans hm'.symm), { h with passage := { h.passage with pending := trivial } }⟩

/-- Marks that wait are dropped. -/
theorem drops (line : Nat) (r : Reading) :
    likeness.Aside (dropPending line) r fun _ t => MarksChange r t := by
  refine .get ?_
  dsimp only
  split
  · exact .pure ⟨_, rfl⟩
  · refine .bind (P := fun _ t => MarksChange r t) (.modify ⟨_, rfl⟩) fun _ t ht => ?_
    exact .find rfl ht

/-- The part that is being read has sung, and is the same without lyrics. -/
def Sings (r t : Reading) : Prop :=
  ∃ p p', r.part? = some p ∧ t = r.setPart p' ∧ p'.id = p.id ∧
    (p.Keyed → p'.Keyed ∧ p'.bare = p.bare)

/-- A part that has not sung is the same. -/
theorem Sings.refl (hr : (r.parts.map Part.id).Nodup) (hp : r.part? = some p) : Sings r r := by
  have hmem : p ∈ r.parts := List.mem_of_find?_eq_some (Becomes.refl hp).here
  exact ⟨p, p, hp, (Reading.setPart_self hr hmem).symm, rfl, fun hkeyed => ⟨hkeyed, rfl⟩⟩

/-- A voice changes and is the same without lyrics. -/
theorem Sings.modifyVoice (hp : r.part? = some p) {key : VoiceKey} {f : Voice → Voice}
    (hkey : ∀ v, v.key = key → (f v).key = key)
    (hsame : p.Keyed → ∀ v ∈ p.voices, v.key = key →
      (f v).guise .bare (fun d => d) = v.guise .bare fun d => d) :
    Sings r (r.setPart (p.modifyVoice key f)) := by
  refine ⟨p, _, hp, rfl, rfl, fun hkeyed => ⟨Pairing.Resemble.keyed_modifyVoice hkey hkeyed, ?_⟩⟩
  have hvoices : (p.modifyVoice key f).voices.map (Voice.guise .bare fun d => d) =
      p.voices.map (Voice.guise .bare fun d => d) := by
    rw [Part.modifyVoice, Part.mapVoices, List.map_map]
    refine List.map_congr_left fun v hv => ?_
    rw [Function.comp_apply]
    split
    · next hvkey => exact hsame hkeyed v hv hvkey
    · rfl
  simp only [Part.bare, Part.guise, Part.mapVoices] at hvoices ⊢
  rw [hvoices]
  rfl

/-- A voice becomes one that is the same without lyrics. -/
theorem Sings.setVoice (hp : r.part? = some p) {key : VoiceKey} {v v' : Voice}
    (hv : p.voice? key = some v)
    (hsame : v'.guise .bare (fun d => d) = v.guise .bare fun d => d) :
    Sings r (r.setPart (p.modifyVoice key fun _ => v')) := by
  refine .modifyVoice hp (fun _ _ => ?_) fun hkeyed w hw hwkey => ?_
  · rw [← v'.key_guise, hsame, v.key_guise, Part.key_of_voice? hv]
  · have hfound := hkeyed.voice?_of_mem hw
    rw [hwkey, hv] at hfound
    rw [hsame, Option.some.inj hfound]

/-- The slurs of a note are no part of what a voice is without lyrics. -/
theorem bare_markSlurs (v : Voice) (slurs : List Slur) (kind : LyricKind)
    (divisions : Nat → Nat) :
    (v.markSlurs slurs kind).guise .bare divisions = v.guise .bare divisions := by
  obtain ⟨_, _, hmarked⟩ := v.markSlurs_eq slurs kind
  rw [hmarked]
  rfl

/-- What a voice remembers of a note is no part of what it is without lyrics. -/
theorem bare_sing (v : Voice) (n : Note) (lyrics : List Lyric) (divisions : Nat → Nat) :
    (v.sing n lyrics).1.guise .bare divisions = v.guise .bare divisions := by
  obtain ⟨_, _, _, hsung⟩ := v.sing_eq n lyrics
  rw [hsung]
  rfl

/-- That a voice sings a note leaves the music as it is, and the note but for its lyrics. -/
theorem sings (settings : Settings) {key : VoiceKey} (hr : (r.parts.map Part.id).Nodup)
    (hvoice : r.HasVoice key) (n : Note) (lyrics : List Element) :
    likeness.Aside (singNote settings key n lyrics) r fun n' t =>
      Guise.bare.note n' = Guise.bare.note n ∧ Sings r t := by
  obtain ⟨p, hp, hsome⟩ := hvoice
  obtain ⟨v, hv⟩ := Option.isSome_iff_exists.mp hsome
  unfold singNote
  split
  · exact .pure ⟨rfl, .refl hr hp⟩
  · refine (Standard.Aside.mapM (Lyric.aside fun _ _ => rfl) _).bind ?_
    rintro lyrics t ⟨-, rfl⟩
    refine (Standard.Aside.voiceAt hp hv).bind ?_
    rintro _ _ ⟨rfl, rfl⟩
    refine .bind (.forM (fun _ => .tell rfl) _) ?_
    rintro _ _ rfl
    refine .bind (P := fun _ t => Sings _ t)
      (.changePart hp (.setVoice hp hv (bare_sing _ n lyrics _))) fun _ t ht => ?_
    exact .pure ⟨rfl, ht⟩

/-- The slurs of a member of a chord are followed. -/
theorem marks (settings : Settings) (line : Nat) {key : VoiceKey} (n : Note)
    (hr : (r.parts.map Part.id).Nodup) (hvoice : r.HasVoice key) :
    likeness.Aside (markMember settings line key n) r fun _ t => Sings r t := by
  obtain ⟨p, hp, hsome⟩ := hvoice
  obtain ⟨v, hv⟩ := Option.isSome_iff_exists.mp hsome
  unfold markMember
  split
  · have hensure : likeness.Aside (Functor.discard (voiceAt line key)) r fun _ t => t = r :=
      (Standard.Aside.voiceAt hp hv).bind fun _ _ h => .pure h.2
    refine hensure.bind ?_
    rintro _ _ rfl
    exact .changePart hp (.modifyVoice hp (fun v hkey => (v.still_markSlurs ..).key.trans hkey)
      fun _ v _ _ => bare_markSlurs v ..)
  · exact .pure (.refl hr hp)

/-- A note cannot join a voice without music. -/
theorem not_joins {v : Voice} (hv : v.music = []) {n : Note} {chordOpen : Bool} {v' : Voice} :
    v.joinChord n chordOpen ≠ .ok v' := by
  intro hjoin
  have hjoins := (Voice.of_joinChord hjoin).1
  rw [hv] at hjoins
  obtain ⟨position, himprints⟩ := hjoins.imprints_eq
  have hnone : v'.music = [] := List.map_eq_nil_iff.mp hjoins.spans_eq
  rw [hnone] at himprints
  exact nomatch himprints

/-- A voice of the part that is being read has no music, or has not begun. -/
def Mute (key : VoiceKey) (r : Reading) : Prop :=
  ∀ p, r.part? = some p → p.music key = []

/-- A voice that has not begun has no music. -/
theorem mute_of_not_hasVoice {key : VoiceKey} (h : ¬ r.HasVoice key) : Mute key r := by
  intro p hp
  have hnone : p.voice? key = none := by
    rw [← Option.not_isSome_iff_eq_none]
    exact fun hsome => h ⟨p, hp, hsome⟩
  rw [Part.music, hnone]
  rfl

/-- Slurs are no music. -/
theorem Mute.markMember {line : Nat} {key : VoiceKey} {n : Note} {u : Unit} (h : Mute key r)
    (hrun : Ends (markMember settings line key n) r u s) :
    Mute key s ∧ s.passage = r.passage := by
  unfold Partwise.markMember at hrun
  split at hrun
  · obtain ⟨_, _, hensure, _⟩ := hrun.bind
    obtain ⟨_, hat⟩ := hensure.discard
    obtain ⟨p, _, hcurrent, _⟩ := hat.bind
    have hp := hcurrent.currentPart.1
    have hbecomes := (Becomes.refl hp).changeVoice hrun
    refine ⟨fun q hq => ?_, hbecomes.passage⟩
    rw [hbecomes.part?] at hq
    cases hq
    rw [Part.music_modifyVoice fun v _ => v.still_markSlurs .., (Part.Like.ensureVoice p key).music,
      h p hp]
  · obtain ⟨_, rfl⟩ := hrun.pure
    exact ⟨h, rfl⟩

/-- A note joins no voice without music. -/
theorem Mute.not_ends_joinInVoice {key : VoiceKey} {n : Note} {chordOpen : Bool} {u : Unit}
    (h : Mute key r) : ¬ Ends (joinChord.joinInVoice key n chordOpen) r u s := by
  intro hrun
  obtain ⟨v, _, hat, hjoin⟩ := hrun.bind
  obtain ⟨p, _, hcurrent, _⟩ := hat.bind
  have hp := hcurrent.currentPart.1
  have hv := ((Becomes.refl hp).voiceAt hat).1
  split at hjoin
  · next v' hv' => exact not_joins (by rw [hv, ← Part.music_eq, h p hp]) hv'
  · exact not_ends_throw hjoin

/-- A member of a chord ends the reading in a voice that has not begun. -/
theorem not_ends_member {line : Nat} {key : VoiceKey} {stops : Nat} {n : Note}
    (hbegun : r.Begun) (hvoice : ¬ r.HasVoice key) {u : Unit} {t : Reading} :
    ¬ Ends (markMember settings line key n >>= fun _ => joinMember line key stops n) r u t := by
  intro h
  obtain ⟨_, s, hmark, hjoin⟩ := h.bind
  obtain ⟨hmute, hpassage⟩ := (mute_of_not_hasVoice hvoice).markMember hmark
  have hkey : s.passage.tupletKey? ≠ some key := by
    rw [hpassage]
    exact fun hkey => hvoice (hbegun key hkey)
  obtain ⟨_, s₁, htell, hrest⟩ := hjoin.bind
  cases htell.tell
  obtain ⟨_, _, hget, hrest⟩ := hrest.bind
  obtain ⟨rfl, rfl⟩ := hget.get
  dsimp only at hrest
  split at hrest
  · rw [if_neg hkey] at hrest
    obtain ⟨_, _, hin, _⟩ := hrest.bind
    exact hmute.not_ends_joinInVoice hin
  · obtain ⟨_, _, hin, _⟩ := hrest.bind
    exact hmute.not_ends_joinInVoice hin

/-- Readings that have sung are alike if they were. -/
theorem Sings.alike {t u : Reading} (h : likeness.Alike r s) (hr : Sings r t) (hs : Sings s u) :
    likeness.Alike t u := by
  obtain ⟨p, p', hp, rfl, hid, hsame⟩ := hr
  obtain ⟨q, q', hq, rfl, -, hsame'⟩ := hs
  have hpart := h.part
  rw [hp, hq] at hpart
  cases hpart with
  | some hpq =>
    obtain ⟨hkeyed, hbare⟩ := hsame hpq.1.keyed
    have hqkeyed : q.Keyed := by
      rw [Part.Keyed, ← hpq.1.keys]
      exact hpq.1.keyed
    have hguise : p'.bare = q'.bare := hbare.trans (hpq.1.guise_eq.trans (hsame' hqkeyed).2.symm)
    exact h.setPart lawful hp hq hid hpq ⟨⟨hguise, hkeyed⟩, trivial⟩

/-- **The policy**: what depends on the settings is alike, if the second ones accept all voices that
the first ones accept. -/
theorem policy (hmax : settings.maxVoiceNumber ≤ settings'.maxVoiceNumber) :
    Policy likeness settings settings' where
  place h e current := place hmax h e current
  takePending := takePending
  singNote {key n n' lyrics lyrics'} hn _ r s h := by
    have hr := sings settings h.1.distinct h.2 n lyrics
    have hs := sings settings' (h.1.distinct' lawful) (h.1.hasVoice lawful h.2) n' lyrics'
    refine .aside hr hs ?_
    rintro m t m' u ⟨hm, ht⟩ ⟨hm', hu⟩
    exact ⟨hm.trans (hn.trans hm'.symm), ht.alike h.1 hu⟩
  joinChord {i i'} hi := by
    refine lawful.joinChord hi (takePending hi.note) fun n n' hn r s h => ?_
    by_cases hvoice : r.HasVoice i.key
    · have hr := marks settings i.note.line n h.1.distinct hvoice
      have hs := marks settings' i.note.line n' (h.1.distinct' lawful)
        (h.1.hasVoice lawful hvoice)
      refine ParallelAt.bind (R := likeness.Alike) (A := Eq) (.aside hr hs ?_)
        fun _ _ r' s' _ h' => lawful.joinMember hn r' s' h'
      exact fun _ _ _ _ ht hu => ⟨rfl, ht.alike h.1 hu⟩
    · exact .spared trivial fun _ _ => not_ends_member h.2 hvoice
  dropPending line r s h := by
    refine .aside (drops line r) (drops line s) ?_
    rintro _ _ _ _ ⟨pending, rfl⟩ ⟨pending', rfl⟩
    exact ⟨rfl, { h with passage := { h.passage with pending := trivial } }⟩

end Leeway

/-! ## Documents -/

/-- **What the settings do not decide.** A document that is read under some settings is read under
all others that accept the same voices. Without lyrics and marks, and without the findings about
these, the two transcripts are the same. -/
theorem Document.read_bare {settings settings' : Settings} {root : Element} {t : Transcript}
    (hmax : settings.maxVoiceNumber ≤ settings'.maxVoiceNumber)
    (h : (Document.read settings root).transcript = .ok t) :
    ∃ t', (Document.read settings' root).transcript = .ok t' ∧ t'.bare = t.bare := by
  have hagree := Leeway.uniform.read trivial (Leeway.policy hmax)
    (fun _ _ drafts h => Pairing.groups h.parts drafts) root
  obtain ⟨t', hread, ⟨hidentification, hgroups⟩, hdiagnostics⟩ := hagree.transcript h
  refine ⟨t', hread, ?_⟩
  have hscore : t'.score.mapParts Part.bare = t.score.mapParts Part.bare := by
    simp only [Score.mapParts, hidentification]
    exact congrArg (Score.mk t'.score.identification) hgroups.symm
  exact congrArg₂ Transcript.mk hscore (congrArg Diagnostics.mk hdiagnostics.symm)

/-- A mark before a rest, and a note with a syllable. -/
def markBeforeRest : Element :=
  singleMeasure [directionElement { name := "dynamics", children := [{ name := "f" }] },
    { name := "note"
      children := [{ name := "rest" }, textElement "duration" "1", textElement "voice" "1"] },
    noteElement 2 "E" "1" "1" [{ name := "lyric", children := [textElement "text" "la"] }]]

/-- Settings that leave out lyrics and let marks wait for a note that sounds. -/
def waitingUnsung : Settings := { ignoreLyrics := true, delayRestsAttachments := true }

/-- The mark is on the rest or on the note, with a finding or without one, and the note sings or
not. -/
theorem Document.read_bare_markBeforeRest : ∃ t t',
    (Document.read {} markBeforeRest).transcript = .ok t ∧
      (Document.read waitingUnsung markBeforeRest).transcript = .ok t' ∧
      t'.bare = t.bare ∧ t.diagnostics.marks.length = 1 ∧ t'.diagnostics.marks = [] := by
  have hthere : hasScore markBeforeRest (fun _ => true) = true := by decide +kernel
  obtain ⟨score, hread, _⟩ := exists_score hthere
  have htranscript : (Document.read {} markBeforeRest).transcript =
      .ok ⟨score, (Document.read {} markBeforeRest).diagnostics⟩ := by
    rw [Outcome.transcript, hread]
    rfl
  have hfound : (Document.read {} markBeforeRest).diagnostics.marks.length = 1 := by decide +kernel
  have hmax : ({} : Settings).maxVoiceNumber ≤ waitingUnsung.maxVoiceNumber := Nat.le_refl 4
  obtain ⟨t', hread', hbare⟩ := Document.read_bare hmax htranscript
  refine ⟨_, t', htranscript, hread', hbare, hfound, ?_⟩
  have hnone : (Document.read waitingUnsung markBeforeRest).diagnostics.marks = [] := by
    decide +kernel
  unfold Outcome.transcript at hread'
  generalize (Document.read waitingUnsung markBeforeRest).score = x at hread'
  cases x with
  | error => exact nomatch hread'
  | ok _ =>
    cases hread'
    exact hnone

end Partwise
