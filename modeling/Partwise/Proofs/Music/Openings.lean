import Partwise.Proofs.Music.Melismas
import Partwise.Proofs.Music.Stanzas

/-!
# Music · Openings: the notes that the slurs of a voice are opened by

While slurs are open, a voice remembers of the note that opened them whether its first chunk is the
end of a word. `OpenSlurs` keeps this note's chunks, and so it says what a voice goes on by
(`OpenSlurs.RememberedBy`).

A voice that sings only some stanzas sings of them what it would sing if it sang all of them, where
the note that opened the slurs shows as much in its chunks of these stanzas. Otherwise it goes on
under the slurs in the other of the two ways (`OpenSlurs.select`). This is proved note by note for
two voices side by side (`SingAlike.step`) and then of all notes
(`SungBy.selectAll`). -/

namespace Partwise

open Markup

variable {settings : Settings} {kept : List String}

/-! ## Slurs and what they were opened on -/

/-- The slurs that are open in a voice, and the chunks of the note that opened them. -/
structure OpenSlurs where
  depth : Nat := 0
  opener? : Option (List LyricChunk) := none

/-- The first of the chunks is the end of a word. -/
def endsWord (chunks : List LyricChunk) : Bool := chunks.head?.any fun c => c.kind = .end

/-- The chunks of the stanzas that are kept. -/
def pickChunks (keep : String → Bool) (chunks : List LyricChunk) : List LyricChunk :=
  chunks.filter fun c => keep c.stanza

/-- Of the two kinds by which a note goes on under slurs, the other one. -/
def LyricKind.otherwise : LyricKind → LyricKind
  | .slur => .slurBeyondEnd
  | .slurBeyondEnd => .slur
  | kind => kind

/-- A chunk that goes on under slurs in the other way. -/
def LyricChunk.otherwise (c : LyricChunk) : LyricChunk := { c with kind := c.kind.otherwise }

namespace OpenSlurs

/-- A note comes to its voice with some chunks. The slurs that stop on it stop, as far as any are
open, and then those start that start on it. If no other slur is open then, it has opened them. -/
def follow (slurs : OpenSlurs) (input : NoteInput) (chunks : List LyricChunk) : OpenSlurs :=
  if input.marksSlurs then
    { depth := slurs.depth - input.note.slurStops + input.note.slurStarts
      opener? := if input.note.slurStops < slurs.depth then slurs.opener? else some chunks }
  else slurs

/-- Slurs are open, and in its kept chunks the note that opened them does not show whether it is the
end of a word. -/
def misseen (keep : String → Bool) (slurs : OpenSlurs) : Bool :=
  0 < slurs.depth && slurs.opener?.any fun chunks =>
    endsWord (pickChunks keep chunks) != endsWord chunks

/-- What is left of the chunks of a note before which slurs are open: those of the kept stanzas. -/
def select (keep : String → Bool) (slurs : OpenSlurs) (chunks : List LyricChunk) :
    List LyricChunk :=
  if slurs.misseen keep then (pickChunks keep chunks).map LyricChunk.otherwise
  else pickChunks keep chunks

/-- What is left of the chunks of all notes of a voice, one note after the other. -/
def selectAll (keep : String → Bool) : OpenSlurs → List (NoteInput × List LyricChunk) →
    List (List LyricChunk)
  | _, [] => []
  | slurs, (input, chunks) :: later =>
    slurs.select keep chunks :: selectAll keep (slurs.follow input chunks) later

/-- Nothing is left of no chunks. -/
theorem select_nil (keep : String → Bool) (slurs : OpenSlurs) : slurs.select keep [] = [] := by
  unfold select
  split <;> rfl

end OpenSlurs

/-- Nothing is left where no note has chunks. -/
theorem OpenSlurs.selectAll_nil (keep : String → Bool) (slurs : OpenSlurs)
    (inputs : List NoteInput) :
    slurs.selectAll keep (inputs.zip (inputs.map fun _ => [])) = inputs.map fun _ => [] := by
  induction inputs generalizing slurs with
  | nil => rfl
  | cons input inputs ih =>
    exact congrArg₂ List.cons (slurs.select_nil keep) (ih (slurs.follow input []))

/-- In the chunks of some stanzas a note is seen as it is if its first chunk is of one of them. -/
theorem endsWord_pickChunks {keep : String → Bool} {chunks : List LyricChunk}
    (h : ∀ c ∈ chunks.head?, keep c.stanza = true) :
    endsWord (pickChunks keep chunks) = endsWord chunks := by
  cases chunks with
  | nil => rfl
  | cons c chunks =>
    rw [pickChunks, List.filter_cons, if_pos (h c rfl)]
    rfl

/-- **The same kinds** are left where no slur is open, or where the first chunk of the note that
opened the slurs is of a kept stanza. -/
theorem OpenSlurs.select_eq {keep : String → Bool} {slurs : OpenSlurs} (chunks : List LyricChunk)
    (h : 0 < slurs.depth → ∀ opener ∈ slurs.opener?, ∀ c ∈ opener.head?, keep c.stanza = true) :
    slurs.select keep chunks = pickChunks keep chunks := by
  refine if_neg ?_
  simp only [misseen, Bool.and_eq_true, decide_eq_true_eq, Option.any_eq_true, bne_iff_ne, not_and,
    not_exists]
  exact fun hopen opener hopener hne => hne (endsWord_pickChunks (h hopen opener hopener))

/-- How a note goes on does not tell whether its chunks are ends of words. -/
theorem endsWord_otherwise (chunks : List LyricChunk) :
    endsWord (chunks.map LyricChunk.otherwise) = endsWord chunks := by
  rcases chunks with _ | ⟨c, _⟩
  · rfl
  · obtain ⟨_, kind, _⟩ := c
    cases kind <;> rfl

/-- What is left of chunks ends a word if the chunks of kept stanzas do. -/
theorem OpenSlurs.endsWord_select (keep : String → Bool) (slurs : OpenSlurs)
    (chunks : List LyricChunk) :
    endsWord (slurs.select keep chunks) = endsWord (pickChunks keep chunks) := by
  unfold select
  split
  · exact endsWord_otherwise _
  · rfl

/-- A voice remembers how many slurs are open, and what is to be seen in the chunks of the note that
opened them. -/
structure OpenSlurs.RememberedBy (slurs : OpenSlurs) (sees : List LyricChunk → Bool)
    (s : Singing) : Prop where
  depth : s.slurDepth = slurs.depth
  opener : 0 < slurs.depth →
    ∃ chunks, slurs.opener? = some chunks ∧ (s.slurOpening? = some .end ↔ sees chunks = true)

/-- The slurs of a note are remembered if its kind is that to be seen in its chunks. -/
theorem OpenSlurs.RememberedBy.mark {slurs : OpenSlurs} {sees : List LyricChunk → Bool}
    {s : Singing} {input : NoteInput} {chunks : List LyricChunk} {kind : LyricKind}
    (h : slurs.RememberedBy sees s) (hmarks : input.marksSlurs = true)
    (hkind : kind = .end ↔ sees chunks = true) :
    (slurs.follow input chunks).RememberedBy sees (s.mark input.note kind) := by
  rw [follow, if_pos hmarks, ← h.depth]
  refine ⟨rfl, fun hopen => ?_⟩
  rw [Singing.slurOpening?_mark s input.note kind hopen]
  dsimp only
  split
  · next hstays =>
    rw [if_neg (Nat.not_le_of_lt hstays)]
    exact h.opener (h.depth ▸ Nat.zero_lt_of_lt hstays)
  · next hcloses =>
    rw [if_pos (Nat.le_of_not_lt hcloses)]
    exact ⟨chunks, rfl, by rw [Option.some_inj, hkind]⟩

/-! ## Chunks of two voices -/

/-- A word for a syllable is no word for how a note goes on under slurs. -/
theorem LyricKind.otherwise_of_word {word : String} {kind : LyricKind}
    (h : Vocabulary.ofWord? word = some kind) : kind.otherwise = kind := by
  obtain ⟨before, after, hwords, -⟩ := List.lookup_eq_some_iff.mp h
  have hmem : (word, kind) ∈ Vocabulary.words (α := LyricKind) := by
    rw [hwords]
    exact List.mem_append_right _ List.mem_cons_self
  simp only [Vocabulary.words, List.mem_cons, Prod.mk.injEq, List.not_mem_nil, or_false] at hmem
  rcases hmem with ⟨-, rfl⟩ | ⟨-, rfl⟩ | ⟨-, rfl⟩ | ⟨-, rfl⟩ <;> rfl

/-- The syllable of a lyric does not go on under slurs. -/
theorem Lyric.otherwise_of_said {e : Element} {kind : LyricKind} (h : (said e).kind? = some kind) :
    kind.otherwise = kind := by
  unfold said at h
  dsimp only at h
  split at h
  · next word _ =>
    rcases hword : (Vocabulary.ofWord? word : Option LyricKind) with _ | known
    · rw [hword] at h
      cases h
      rfl
    · rw [hword] at h
      cases h
      exact LyricKind.otherwise_of_word hword
  · split at h
    · cases h
      rfl
    · exact nomatch h

namespace Voice

variable {keep : String → Bool} {lyrics : List Lyric} {stanza : String}

/-- What stands in for a syllable is all that goes on under slurs. -/
theorem lyricChunk_otherwise (n : Note) (silent : LyricKind)
    (hsyllables : ∀ l ∈ lyrics, ∀ kind, l.kind? = some kind → kind.otherwise = kind) :
    lyricChunk n lyrics silent.otherwise stanza =
      (lyricChunk n lyrics silent stanza).otherwise := by
  unfold lyricChunk
  split
  · next l hl =>
    have hsyllable := hsyllables l (List.mem_of_find?_eq_some hl)
    generalize l.kind? = kind? at hsyllable
    cases kind? with
    | none => rfl
    | some kind => simp [LyricChunk.otherwise, hsyllable kind rfl]
  · rfl

/-- There is one chunk for each kept stanza. -/
theorem pickChunks_lyricChunks (v : Voice) (n : Note) (lyrics : List Lyric) :
    pickChunks keep (v.lyricChunks n lyrics) =
      (v.stanzas.filter keep).map (lyricChunk n lyrics (v.silentKind n)) := by
  have hstanza : (fun stanza => keep (lyricChunk n lyrics (v.silentKind n) stanza).stanza) = keep :=
    funext fun stanza => by rw [stanza_lyricChunk]
  rw [pickChunks, lyricChunks, List.filter_map]
  exact congrArg (fun keep => (v.stanzas.filter keep).map _) hstanza

end Voice

/-! ## Two voices -/

/-- Of two voices the second one remembers of the kept stanzas what the first one remembers. -/
structure SingAlike (keep : String → Bool) (slurs : OpenSlurs) (s s' : Singing) : Prop where
  ascending : StanzasAscend s.stanzas
  stanzas : s'.stanzas = s.stanzas.filter keep
  all : slurs.RememberedBy endsWord s
  picked : slurs.RememberedBy (fun chunks => endsWord (pickChunks keep chunks)) s'

namespace SingAlike

variable {keep : String → Bool} {slurs : OpenSlurs} {s s' t t' : Singing} {v w : Voice}
  {input : NoteInput} {lyrics : List Lyric}

/-- Voices that have sung nothing sing alike. -/
theorem nil : SingAlike keep {} {} {} :=
  ⟨.nil, rfl, ⟨rfl, fun h => absurd h (Nat.lt_irrefl 0)⟩,
    ⟨rfl, fun h => absurd h (Nat.lt_irrefl 0)⟩⟩

/-- The second voice goes on under the slurs in the other way if these were opened on something that
it does not see. -/
theorem silentKind (h : SingAlike keep slurs v.singing w.singing) (n : Note) :
    w.silentKind n =
      if slurs.misseen keep then (v.silentKind n).otherwise else v.silentKind n := by
  have hdepth : v.slurDepth = slurs.depth := h.all.depth
  have hdepth' : w.slurDepth = slurs.depth := h.picked.depth
  unfold Voice.silentKind OpenSlurs.misseen
  rw [hdepth, hdepth']
  rcases Nat.eq_zero_or_pos slurs.depth with hclosed | hopen
  · simp [hclosed]
  · obtain ⟨opener, hopener, hend⟩ := h.all.opener hopen
    obtain ⟨_, hopener', hend'⟩ := h.picked.opener hopen
    obtain rfl := Option.some.inj (hopener.symm.trans hopener')
    have hend : v.slurOpening? = some .end ↔ endsWord opener = true := hend
    have hend' : w.slurOpening? = some .end ↔ endsWord (pickChunks keep opener) = true := hend'
    simp only [hend, hend', hopener, hopen, Option.any_some, decide_true, Bool.true_and,
      if_neg (Nat.ne_of_gt hopen)]
    -- it matters to notes that sound and are not tied
    cases n.tie? <;> cases n.isRest <;> cases endsWord opener <;>
      cases endsWord (pickChunks keep opener) <;> rfl

/-- The stanzas of the kept lyrics are learnt, too. -/
theorem learn (h : SingAlike keep slurs v.singing w.singing) (lyrics : List Lyric) :
    SingAlike keep slurs (v.learnStanzas lyrics).singing
      (w.learnStanzas (lyrics.filter fun l => keep l.stanza)).singing where
  ascending := v.stanzasAscend_learn lyrics h.ascending
  stanzas := by
    have hstanzas : w.stanzas = v.stanzas.filter keep := h.stanzas
    have hlearnt := Voice.filter_learn keep lyrics h.ascending
    rw [show v.singing.stanzas = v.stanzas from rfl, ← hstanzas] at hlearnt
    exact hlearnt.symm
  all := ⟨h.all.depth, h.all.opener⟩
  picked := ⟨h.picked.depth, h.picked.opener⟩

/-- The chunks of the kept lyrics are what is left of the chunks of all lyrics. -/
theorem lyricChunks (h : SingAlike keep slurs v.singing w.singing) (n : Note)
    (hsyllables : ∀ l ∈ lyrics, ∀ kind, l.kind? = some kind → kind.otherwise = kind) :
    w.lyricChunks n (lyrics.filter fun l => keep l.stanza) =
      slurs.select keep (v.lyricChunks n lyrics) := by
  have hstanzas : w.stanzas = v.stanzas.filter keep := h.stanzas
  have hchunk : ∀ silent, w.stanzas.map (Voice.lyricChunk n (lyrics.filter fun l => keep l.stanza)
      silent) = (v.stanzas.filter keep).map (Voice.lyricChunk n lyrics silent) := by
    intro silent
    rw [hstanzas]
    exact List.map_congr_left fun stanza hstanza =>
      Voice.lyricChunk_filter (List.mem_filter.mp hstanza).2 n lyrics silent
  rw [Voice.lyricChunks, hchunk, h.silentKind, OpenSlurs.select, Voice.pickChunks_lyricChunks]
  split
  · rw [List.map_map]
    exact List.map_congr_left fun stanza _ => Voice.lyricChunk_otherwise n _ hsyllables
  · rfl

/-- **Two voices sing**, the second one the kept lyrics. -/
theorem sing (h : SingAlike keep slurs v.singing w.singing) (hmarks : input.marksSlurs = true)
    (hsyllables : ∀ l ∈ lyrics, ∀ kind, l.kind? = some kind → kind.otherwise = kind)
    {kept : List Lyric} (hkept : kept = lyrics.filter fun l => keep l.stanza)
    {chunks chunks' : List LyricChunk}
    (hchunks : chunks = (v.learnStanzas lyrics).lyricChunks input.note lyrics)
    (hchunks' : chunks' = (w.learnStanzas kept).lyricChunks input.note kept) :
    chunks' = slurs.select keep chunks ∧
      SingAlike keep (slurs.follow input chunks) (v.sing input.note lyrics).1.singing
        (w.sing input.note kept).1.singing := by
  have hlearnt := h.learn lyrics
  rw [← hkept] at hlearnt
  have hselect : chunks' = slurs.select keep chunks := by
    rw [hchunks, hchunks', hkept]
    exact (hkept ▸ hlearnt).lyricChunks input.note hsyllables
  -- a slur begins on the first chunk, and where there is none, on the end of no word
  have hfirst : ∀ (v : Voice) (chunks : List LyricChunk),
      chunks.head?.elim (v.silentKind input.note) LyricChunk.kind = .end ↔
        endsWord chunks = true := by
    intro v chunks
    cases chunks with
    | nil => simp [endsWord, v.silentKind_ne_end]
    | cons => simp [endsWord]
  refine ⟨hselect, ?_⟩
  rw [Voice.sing, Voice.sing, Voice.singing_markSlurs, Voice.singing_markSlurs, ← hchunks,
    ← hchunks']
  refine ⟨hlearnt.ascending, hlearnt.stanzas, hlearnt.all.mark hmarks (hfirst _ chunks),
    hlearnt.picked.mark hmarks ?_⟩
  rw [hfirst, hselect, OpenSlurs.endsWord_select]

/-- **One note** comes to two voices, and the second one leaves out some stanzas. -/
theorem step (h : SingAlike kept.contains slurs s s') (hheard : settings.ignoreLyrics = false)
    (hall : settings.stanzaFilter? = none) {chunks chunks' : List LyricChunk}
    (hsung : Sung settings s input t chunks)
    (hsung' : Sung { settings with stanzaFilter? := some kept } s' input t' chunks') :
    chunks' = slurs.select kept.contains chunks ∧
      SingAlike kept.contains (slurs.follow input chunks) t t' := by
  cases hsung with
  | member member =>
    cases hsung' with
    | member =>
      have hmarks : input.marksSlurs = true := by simp [NoteInput.marksSlurs, member]
      rw [Singing.follow, Singing.follow, if_neg (by simp [hheard]), if_neg (by simp [hheard])]
      exact ⟨(slurs.select_nil _).symm, h.ascending, h.stanzas,
        h.all.mark hmarks (by simp [endsWord]),
        h.picked.mark hmarks (by simp [endsWord, pickChunks])⟩
    | grace alone => exact absurd member (by simp [alone])
    | sings alone => exact absurd member (by simp [alone])
  | grace alone grace =>
    cases hsung' with
    | member member => exact absurd member (by simp [alone])
    | grace =>
      have hunmarked : slurs.follow input [] = slurs :=
        if_neg (by simp [NoteInput.marksSlurs, alone, grace])
      exact ⟨(slurs.select_nil _).symm, hunmarked.symm ▸ h⟩
    | sings _ grace' => exact absurd grace (by simp [grace'])
  | sings alone grace sings =>
    cases hsung' with
    | member member => exact absurd member (by simp [alone])
    | grace _ grace' => exact absurd grace' (by simp [grace])
    | sings _ _ sings' =>
      obtain ⟨v, rfl, rfl, hchunks⟩ := sings.voice hheard
      obtain ⟨w, rfl, rfl, hchunks'⟩ := sings'.voice hheard
      refine h.sing (by simp [NoteInput.marksSlurs, grace]) ?_ ?_ hchunks hchunks'
      · intro l hl kind hkind
        obtain ⟨e, -, rfl⟩ := List.mem_map.mp hl
        exact Lyric.otherwise_of_said hkind
      · have hevery : ∀ stanza, settings.keepsStanza stanza = true := fun stanza => by
          rw [Settings.keepsStanza, hall]
        simp only [keptLyrics, hevery, List.filter_true, List.filter_map]
        rfl

end SingAlike

/-! ## All notes of a voice -/

namespace SungBy

variable {keep : String → Bool} {slurs : OpenSlurs} {s s' t t' : Singing} {inputs : List NoteInput}
  {verses verses' : List Verse}

/-- Where lyrics are left out, no note gets chunks. -/
theorem unsung (h : SungBy settings s inputs t verses) (hunheard : settings.ignoreLyrics = true) :
    verses.map Prod.snd = inputs.map fun _ => [] := by
  induction h with
  | nil => rfl
  | @cons _ _ _ _ _ chunks _ first _ ih =>
    have hnone : chunks = [] := by
      cases first with
      | member | grace => rfl
      | sings _ _ sings =>
        have hstanzas := sings.stanzas
        rw [if_pos hunheard] at hstanzas
        exact List.map_eq_nil_iff.mp hstanzas
    rw [List.map_cons, List.map_cons, ih, hnone]

/-- Voices that sing alike do so note by note. -/
theorem select_of_alike (h : SungBy settings s inputs t verses)
    (h' : SungBy { settings with stanzaFilter? := some kept } s' inputs t' verses')
    (hheard : settings.ignoreLyrics = false) (hall : settings.stanzaFilter? = none)
    (halike : SingAlike kept.contains slurs s s') :
    verses'.map Prod.snd =
      slurs.selectAll kept.contains (inputs.zip (verses.map Prod.snd)) := by
  induction h generalizing s' verses' slurs with
  | nil =>
    cases h'
    rfl
  | cons first _ ih =>
    cases h' with
    | cons first' rest' =>
      obtain ⟨hchunks, hnext⟩ := halike.step hheard hall first first'
      exact congrArg₂ List.cons hchunks (ih rest' hnext)

/-- **A voice that sings the kept stanzas** gets what is left of the chunks that it would get if it
sang all of them. -/
theorem selectAll (h : SungBy settings {} inputs t verses)
    (h' : SungBy { settings with stanzaFilter? := some kept } {} inputs t' verses')
    (hall : settings.stanzaFilter? = none) :
    verses'.map Prod.snd =
      OpenSlurs.selectAll kept.contains {} (inputs.zip (verses.map Prod.snd)) := by
  rcases hheard : settings.ignoreLyrics with _ | _
  · exact h.select_of_alike h' hheard hall .nil
  · rw [h.unsung hheard, h'.unsung hheard]
    exact (OpenSlurs.selectAll_nil ..).symm

end SungBy

end Partwise
