import Partwise.Proofs.Music.Content
import Partwise.Proofs.Music.Guises
import Partwise.Proofs.Music.Singing
import Partwise.Proofs.Reading.Invariants
import Partwise.Proofs.Reading.Orders

/-!
# Music · Stanzas: some of the stanzas that a voice sings

A voice keeps its stanzas in the order of their names (`stanzasAscend_invariant`). In the guise
`Guise.sung keep` a score shows the chunks and stanzas that are kept, and nothing of the slurs that
lyrics go on under: where there is no syllable under a slur, it is not seen whether the slur began
on the end of a word.

A voice that sings only the kept lyrics shows as much as a voice that sings all of them and is
looked at in this guise (`Voice.sing_sung`). More cannot be shown of a voice at one time: which
syllable a slur began on is remembered of the first stanza alone, and that one may be left out. What
was sung before it is needed to tell what becomes of the slurs
(`Music/Openings`). -/

namespace Partwise

/-! ## The order of texts -/

/-- Texts are in order. -/
def textBefore (a b : String) : Bool := charsBefore a.toList b.toList

/-- No text comes before itself. -/
theorem charsBefore_irrefl (cs : List Char) : charsBefore cs cs = false := by
  induction cs with
  | nil => rfl
  | cons c cs ih => rw [charsBefore, if_pos rfl, ih]

/-- A text that comes before a second one comes before all that this one comes before. -/
theorem charsBefore_trans {as bs cs : List Char} (h : charsBefore as bs = true)
    (h' : charsBefore bs cs = true) : charsBefore as cs = true := by
  induction as generalizing bs cs with
  | nil =>
    cases bs with
    | nil => exact nomatch h
    | cons => cases cs with
      | nil => exact nomatch h'
      | cons => rfl
  | cons a as ih =>
    cases bs with
    | nil => exact nomatch h
    | cons b bs =>
      cases cs with
      | nil => exact nomatch h'
      | cons c cs =>
        simp only [charsBefore] at h h' ⊢
        split at h
        · next hab =>
          subst hab
          split
          · next hac =>
            rw [if_pos hac] at h'
            exact ih h h'
          · next hac => rwa [if_neg hac] at h'
        · next hab =>
          have hlt : a.toNat < b.toNat := Nat.blt_eq.mp h
          split at h'
          · next hbc =>
            subst hbc
            rw [if_neg hab]
            exact h
          · have hlt' : b.toNat < c.toNat := Nat.blt_eq.mp h'
            have hne : a ≠ c := by
              rintro rfl
              omega
            rw [if_neg hne]
            exact Nat.blt_eq.mpr (hlt.trans hlt')

/-- Of two texts one comes before the other. -/
theorem charsBefore_total {as bs : List Char} (hne : as ≠ bs) (h : ¬ charsBefore as bs = true) :
    charsBefore bs as = true := by
  induction as generalizing bs with
  | nil =>
    cases bs with
    | nil => exact absurd rfl hne
    | cons => exact absurd rfl h
  | cons a as ih =>
    cases bs with
    | nil => rfl
    | cons b bs =>
      simp only [charsBefore] at h ⊢
      by_cases hab : a = b
      · subst hab
        rw [if_pos rfl] at h ⊢
        exact ih (fun heq => hne (heq ▸ rfl)) h
      · rw [if_neg hab, Nat.blt_eq] at h
        have hcode : a.toNat ≠ b.toNat := fun heq => hab (Char.toNat_inj.mp heq)
        rw [if_neg (Ne.symm hab), Nat.blt_eq]
        omega

/-- Texts are ordered by their characters. -/
theorem textOrders : Orders textBefore where
  irrefl a := by rw [textBefore, charsBefore_irrefl]; exact Bool.false_ne_true
  trans := charsBefore_trans
  total hne h := charsBefore_total (fun heq => hne (String.toList_inj.mp heq)) h

/-! ## Stanzas in order -/

/-- Stanzas are in order, each once. -/
def StanzasAscend (stanzas : List String) : Prop :=
  stanzas.Pairwise fun a b => textBefore a b

/-- Stanzas that ascend do so with one more that is put in its place. -/
theorem StanzasAscend.insert {stanza : String} {stanzas : List String} (h : StanzasAscend stanzas) :
    StanzasAscend (insertText stanza stanzas) :=
  textOrders.ascending_upsert h

/-- Of one stanza more, those are kept that were kept, and the new one if it is. -/
theorem StanzasAscend.filter_insert {stanza : String} {stanzas : List String}
    (h : StanzasAscend stanzas) (keep : String → Bool) :
    (insertText stanza stanzas).filter keep =
      if keep stanza then insertText stanza (stanzas.filter keep) else stanzas.filter keep :=
  textOrders.filter_upsert keep h

namespace Voice

/-- Slurs are followed whatever stanzas there are. -/
theorem stanzas_markSlurs (v : Voice) (slurs : List Slur) (kind : LyricKind) :
    (v.markSlurs slurs kind).stanzas = v.stanzas := by
  obtain ⟨_, _, hmarked⟩ := v.markSlurs_eq slurs kind
  rw [hmarked]

/-- The stanzas of a voice stay in order when lyrics are learnt. -/
theorem stanzasAscend_learn (lyrics : List Lyric) {v : Voice} (h : StanzasAscend v.stanzas) :
    StanzasAscend (v.learnStanzas lyrics).stanzas := by
  unfold learnStanzas
  dsimp only
  generalize v.stanzas = known at h
  induction lyrics generalizing known with
  | nil => exact h
  | cons l lyrics ih => exact ih _ h.insert

/-- Of the stanzas that were learnt, those are kept that would be learnt from the kept lyrics. -/
theorem filter_learn (keep : String → Bool) (lyrics : List Lyric) {known : List String}
    (h : StanzasAscend known) :
    (lyrics.foldl (fun known l => insertText l.stanza known) known).filter keep =
      (lyrics.filter fun l => keep l.stanza).foldl (fun known l => insertText l.stanza known)
        (known.filter keep) := by
  induction lyrics generalizing known with
  | nil => rfl
  | cons l lyrics ih =>
    rw [List.foldl_cons, ih h.insert, h.filter_insert keep, List.filter_cons]
    split <;> rfl

end Voice

/-- **Stanzas stay in order** while music is read. -/
theorem stanzasAscend_invariant : VoiceInvariant fun v => StanzasAscend v.stanzas where
  newVoice _ _ := .nil
  append _ h := h
  edit {v w} hedited h := by
    have hsame : w.singing = v.singing → StanzasAscend w.stanzas := by
      intro hsinging
      rwa [show w.stanzas = v.stanzas from congrArg Singing.stanzas hsinging]
    cases hedited with
    | place => exact h
    | append => exact h
    | joinChord joined => exact hsame (Voice.singing_joinChord joined)
    | takeBarline => exact hsame (v.like_takeBarline ..).singing
    | endRepeats => exact hsame (v.like_endRepeats ..).singing
    | flush => exact h
    | sing n lyrics =>
      show StanzasAscend ((v.learnStanzas lyrics).markSlurs n.slurs _).stanzas
      rw [Voice.stanzas_markSlurs]
      exact Voice.stanzasAscend_learn lyrics h
    | markSlurs slurs kind => rwa [Voice.stanzas_markSlurs]
  divisions _ h := h

/-! ## Scores of which some stanzas are shown -/

/-- The kind of a chunk, where it is not asked on which syllable a slur began. -/
def LyricKind.underSlur : LyricKind → LyricKind
  | .slurBeyondEnd => .slur
  | kind => kind

/-- The chunks that are kept, in their order. -/
def keptChunks (keep : String → Bool) (chunks : List LyricChunk) : List LyricChunk :=
  (chunks.filter fun c => keep c.stanza).map fun c => { c with kind := c.kind.underSlur }

/-- Scores of which only some stanzas are shown. -/
def Guise.sung (keep : String → Bool) : Guise where
  note n := { n with lyrics := keptChunks keep n.lyrics }
  chord c :=
    { c with notes := c.notes.map fun n => { n with lyrics := keptChunks keep n.lyrics } }
  tuplets := id
  stanzas := List.filter keep
  slurDepth := id
  slurOpening _ := none

/-- Reading goes together with the guise of the kept stanzas. -/
theorem Guise.sung_lawful (keep : String → Bool) : (Guise.sung keep).Lawful where
  isRest _ := rfl
  line _ := rfl
  length _ := rfl
  measure _ := rfl
  chordMeasure _ := rfl
  ofPair _ _ := rfl
  absorb c n := by simp [sung, Chord.absorb]
  skip _ _ _ _ _ _ := rfl
  stanzas := rfl
  slurDepth := rfl
  slurOpening := rfl

/-! ## Voices that sing -/

namespace Voice

variable {keep : String → Bool} {divisions divisions' : Nat → Nat} {v w : Voice} {n n' : Note}

/-- A voice is the same in a guise of which only other stanzas are known. -/
theorem stanzas_of_sung
    (h : v.guise (.sung keep) divisions = w.guise (.sung fun _ => true) divisions') :
    w.stanzas = v.stanzas.filter keep := by
  have hstanzas : v.stanzas.filter keep = w.stanzas.filter fun _ => true :=
    congrArg Voice.stanzas h
  rw [hstanzas, List.filter_true]

/-- A voice learns among the kept stanzas what it learns from the kept lyrics. -/
theorem learnStanzas_sung (lyrics : List Lyric) (hv : StanzasAscend v.stanzas)
    (h : v.guise (.sung keep) divisions = w.guise (.sung fun _ => true) divisions') :
    (v.learnStanzas lyrics).guise (.sung keep) divisions =
      (w.learnStanzas (lyrics.filter fun l => keep l.stanza)).guise (.sung fun _ => true)
        divisions' := by
  have hlearnt : (v.learnStanzas lyrics).stanzas.filter keep =
      (w.learnStanzas (lyrics.filter fun l => keep l.stanza)).stanzas.filter fun _ => true := by
    rw [List.filter_true]
    exact (filter_learn keep lyrics hv).trans (by rw [← stanzas_of_sung h]; rfl)
  have hguise : ∀ (v : Voice) (lyrics : List Lyric) (keep : String → Bool)
      (divisions : Nat → Nat), (v.learnStanzas lyrics).guise (.sung keep) divisions =
        { v.guise (.sung keep) divisions with
          stanzas := (v.learnStanzas lyrics).stanzas.filter keep } := fun _ _ _ _ => rfl
  rw [hguise, hguise, h, hlearnt]

/-- The voice with as many slurs open as after those of a note. -/
def followSlurs (v : Voice) (slurs : List Slur) : Voice :=
  { v with
    slurDepth := v.slurDepth - (slurs.filter fun s => s.kind = .stop).length +
      (slurs.filter fun s => s.kind = .start).length }

/-- Slurs are followed, and it is not seen which syllable they begin on. -/
theorem markSlurs_sung (v : Voice) (keep : String → Bool) (divisions : Nat → Nat)
    (slurs : List Slur) (kind : LyricKind) :
    (v.markSlurs slurs kind).guise (.sung keep) divisions =
      (v.guise (.sung keep) divisions).followSlurs slurs := by
  have hdepth := v.slurDepth_markSlurs slurs kind
  obtain ⟨_, _, hmarked⟩ := v.markSlurs_eq slurs kind
  rw [hmarked] at hdepth ⊢
  simp only [guise, Guise.sung, followSlurs, id] at hdepth ⊢
  rw [hdepth]

/-- What stands in for a syllable does so in the kept lyrics, too. -/
theorem silentKind_sung
    (h : v.guise (.sung keep) divisions = w.guise (.sung fun _ => true) divisions')
    (hn : (Guise.sung keep).note n = (Guise.sung fun _ => true).note n') :
    (v.silentKind n).underSlur = (w.silentKind n').underSlur := by
  have hdepth : v.slurDepth = w.slurDepth := (congrArg Voice.slurDepth h :)
  have htie : n.tie? = n'.tie? := (congrArg Note.tie? hn :)
  have hrest : n.isRest = n'.isRest := (congrArg Note.isRest hn :)
  unfold silentKind
  rw [hdepth, htie, hrest]
  split
  · rfl
  · split
    · rfl
    · split
      · rfl
      · split <;> split <;> rfl

/-- For a kept stanza the kept lyrics say as much as all of them. -/
theorem lyricChunk_filter {stanza : String} (hkeep : keep stanza = true) (n : Note)
    (lyrics : List Lyric) (silent : LyricKind) :
    lyricChunk n (lyrics.filter fun l => keep l.stanza) silent stanza =
      lyricChunk n lyrics silent stanza := by
  have hfind : (lyrics.filter fun l => keep l.stanza).find? (fun l => l.stanza = stanza) =
      lyrics.find? fun l => l.stanza = stanza := by
    rw [List.find?_filter]
    refine congrArg (lyrics.find? ·) (funext fun l => ?_)
    by_cases heq : l.stanza = stanza <;> simp [heq, hkeep]
  unfold lyricChunk
  rw [hfind]

/-- The chunk of a kept stanza is made from the kept lyrics. -/
theorem lyricChunk_sung {stanza : String} (hkeep : keep stanza = true) (lyrics : List Lyric)
    {silent silent' : LyricKind} (hsilent : silent.underSlur = silent'.underSlur)
    (hn : (Guise.sung keep).note n = (Guise.sung fun _ => true).note n') :
    { lyricChunk n lyrics silent stanza with
        kind := (lyricChunk n lyrics silent stanza).kind.underSlur } =
      { lyricChunk n' (lyrics.filter fun l => keep l.stanza) silent' stanza with
        kind := (lyricChunk n' (lyrics.filter fun l => keep l.stanza) silent'
          stanza).kind.underSlur } := by
  have hline : n.line = n'.line := (congrArg Note.line hn :)
  have hlength : n.soundingWholeNotes = n'.soundingWholeNotes :=
    (congrArg Note.soundingWholeNotes hn :)
  rw [lyricChunk_filter hkeep]
  unfold lyricChunk
  rw [hline, hlength]
  split
  · next l _ =>
    cases l.kind? with
    | none => simp [hsilent]
    | some => rfl
  · simp [hsilent]

/-- Of the chunks of a note those are kept that it has for the kept lyrics. -/
theorem lyricChunks_sung (lyrics : List Lyric)
    (h : v.guise (.sung keep) divisions = w.guise (.sung fun _ => true) divisions')
    (hn : (Guise.sung keep).note n = (Guise.sung fun _ => true).note n') :
    keptChunks keep (v.lyricChunks n lyrics) =
      keptChunks (fun _ => true)
        (w.lyricChunks n' (lyrics.filter fun l => keep l.stanza)) := by
  have hchunks : ∀ (keep : String → Bool) (v : Voice) (n : Note) (lyrics : List Lyric),
      keptChunks keep (v.lyricChunks n lyrics) = (v.stanzas.filter keep).map fun stanza =>
        { lyricChunk n lyrics (v.silentKind n) stanza with
          kind := (lyricChunk n lyrics (v.silentKind n) stanza).kind.underSlur } := by
    intro keep v n lyrics
    unfold keptChunks lyricChunks
    rw [List.filter_map, List.map_map]
    simp only [Function.comp_def, stanza_lyricChunk]
  rw [hchunks, hchunks, stanzas_of_sung h, List.filter_true]
  refine List.map_congr_left fun stanza hstanza => ?_
  exact lyricChunk_sung (List.mem_filter.mp hstanza).2 lyrics (silentKind_sung h hn) hn

/-- **A voice that sings the kept lyrics** shows what a voice that sings all lyrics shows of the
kept stanzas, and so do their notes. -/
theorem sing_sung (lyrics : List Lyric) (hv : StanzasAscend v.stanzas)
    (h : v.guise (.sung keep) divisions = w.guise (.sung fun _ => true) divisions')
    (hn : (Guise.sung keep).note n = (Guise.sung fun _ => true).note n') :
    (v.sing n lyrics).1.guise (.sung keep) divisions =
        (w.sing n' (lyrics.filter fun l => keep l.stanza)).1.guise (.sung fun _ => true)
          divisions' ∧
      (Guise.sung keep).note (v.sing n lyrics).2 =
        (Guise.sung fun _ => true).note
          (w.sing n' (lyrics.filter fun l => keep l.stanza)).2 := by
  have hlearnt := learnStanzas_sung lyrics hv h
  have hslurs : n.slurs = n'.slurs := (congrArg Note.slurs hn :)
  have hchunks := lyricChunks_sung lyrics hlearnt hn
  have happend : ∀ (keep : String → Bool) (n : Note) (chunks : List LyricChunk),
      (Guise.sung keep).note { n with lyrics := n.lyrics ++ chunks } =
        { (Guise.sung keep).note n with
          lyrics := ((Guise.sung keep).note n).lyrics ++ keptChunks keep chunks } := by
    intro keep n chunks
    simp only [Guise.sung, keptChunks, List.filter_append, List.map_append]
  refine ⟨?_, ?_⟩
  · unfold sing
    rw [markSlurs_sung, markSlurs_sung, hlearnt, hslurs]
  · unfold sing
    dsimp only
    rw [happend, happend, hn, hchunks]

end Voice

end Partwise
