import Partwise.Intake.Lyric
import Partwise.Intake.Note
import Partwise.Proofs.Music.Leaves
import Partwise.Proofs.Music.Unheard
import Partwise.Proofs.Reading.Orders

/-!
# Music · Singing: what a voice remembers when a note sings

Of the lyrics and slurs of its notes a voice remembers the stanzas it has sung and the number of its
open slurs (`Singing`). Both are told here without the voice: `Singing.sing` is what a voice
remembers after a note, and `Sings` what the note has to sing then. A syllable of its own comes
first; where it has none, the note stands in for it by its tie, by its silence, or by the slurs that
are open before it (`Note.StandsIn`).

Three ways lead a note into its voice, and each treats slurs in its own way: members of a chord only
mark them, grace notes do not, and all other notes sing (`Sung`).
-/

namespace Partwise

open Markup

variable {r s : Reading} {settings : Settings}

/-! ## Slurs and stanzas -/

/-- How many slurs start on a note. -/
def Note.slurStarts (n : Note) : Nat := (n.slurs.filter fun s => s.kind = .start).length

/-- How many slurs stop on a note. -/
def Note.slurStops (n : Note) : Nat := (n.slurs.filter fun s => s.kind = .stop).length

namespace Singing

/-- Stanzas are learnt. -/
def learn (s : Singing) (stanzas : List String) : Singing :=
  { s with stanzas := stanzas.foldl (fun known stanza => insertText stanza known) s.stanzas }

/-- The slurs of a note stop, as far as any are open, and then start. If none was left open, those
that start begin on a chunk of the given kind. -/
def mark (s : Singing) (n : Note) (kind : LyricKind) : Singing :=
  { s with
    slurDepth := s.slurDepth - n.slurStops + n.slurStarts
    slurOpening? :=
      if n.slurStops < s.slurDepth then s.slurOpening?
      else if 0 < n.slurStarts then some kind
      else if 0 < n.slurStops then none
      else s.slurOpening? }

/-- What is remembered of the slurs of a member of a chord, unless the settings leave out all
lyrics. -/
def follow (s : Singing) (settings : Settings) (n : Note) : Singing :=
  if settings.ignoreLyrics then s else s.mark n .none

/-- What is remembered of a note that sings, if its first chunk is of the given kind. -/
def sing (s : Singing) (settings : Settings) (n : Note) (lyrics : List Element) (kind : LyricKind) :
    Singing :=
  if settings.ignoreLyrics then s
  else (s.learn ((lyrics.map Lyric.stanzaOf).filter settings.keepsStanza)).mark n kind

/-- While slurs are open after a note, the kind is that of the note if all others stopped on it. -/
theorem slurOpening?_mark (s : Singing) (n : Note) (kind : LyricKind)
    (hopen : 0 < s.slurDepth - n.slurStops + n.slurStarts) :
    (s.mark n kind).slurOpening? =
      if s.slurDepth ≤ n.slurStops then some kind else s.slurOpening? := by
  unfold mark
  dsimp only
  split
  · next hstays => rw [if_neg (Nat.not_le_of_lt hstays)]
  · next hcloses =>
    have hcloses : s.slurDepth ≤ n.slurStops := Nat.le_of_not_lt hcloses
    rw [if_pos hcloses, if_pos (by omega)]

/-- A stanza is known after others were learnt if it is one of these or was known before. -/
theorem mem_learn {s : Singing} {stanzas : List String} {stanza : String} :
    stanza ∈ (s.learn stanzas).stanzas ↔ stanza ∈ s.stanzas ∨ stanza ∈ stanzas := by
  obtain ⟨known, depth⟩ := s
  induction stanzas generalizing known with
  | nil => simp [learn]
  | cons new stanzas ih =>
    have hnext := ih (insertText new known)
    simp only [learn, List.foldl_cons] at hnext ⊢
    refine hnext.trans ?_
    rw [insertText, mem_upsert_iff, List.mem_cons]
    tauto

end Singing

namespace Voice

/-- One slur stops if any is open. -/
theorem slurDepth_foldl_stopSlur (slurs : List Slur) (v : Voice) :
    (slurs.foldl (fun v _ => v.stopSlur) v).slurDepth = v.slurDepth - slurs.length := by
  induction slurs generalizing v with
  | nil => rfl
  | cons _ slurs ih =>
    rw [List.foldl_cons, ih, List.length_cons, stopSlur]
    dsimp only
    omega

/-- Every start opens one slur more. -/
theorem slurDepth_foldl_startSlur (kind : LyricKind) (slurs : List Slur) (v : Voice) :
    (slurs.foldl (fun v _ => v.startSlur kind) v).slurDepth = v.slurDepth + slurs.length := by
  induction slurs generalizing v with
  | nil => rfl
  | cons _ slurs ih =>
    rw [List.foldl_cons, ih, List.length_cons, startSlur]
    dsimp only
    omega

/-- Slurs stop, as far as any are open, and then start. -/
theorem slurDepth_markSlurs (v : Voice) (slurs : List Slur) (kind : LyricKind) :
    (v.markSlurs slurs kind).slurDepth =
      v.slurDepth - (slurs.filter fun s => s.kind = .stop).length +
        (slurs.filter fun s => s.kind = .start).length := by
  rw [markSlurs, slurDepth_foldl_startSlur, slurDepth_foldl_stopSlur]

/-- When no slur is open any more, the kind that they began on is forgotten. -/
theorem slurOpening?_foldl_stopSlur (slurs : List Slur) (v : Voice) :
    (slurs.foldl (fun v _ => v.stopSlur) v).slurOpening? =
      if v.slurDepth ≤ slurs.length ∧ 0 < slurs.length then none else v.slurOpening? := by
  induction slurs generalizing v with
  | nil => simp
  | cons _ slurs ih =>
    have hdepth : v.stopSlur.slurDepth = v.slurDepth - 1 := rfl
    have hopening :
        v.stopSlur.slurOpening? = if v.slurDepth - 1 = 0 then none else v.slurOpening? :=
      rfl
    rw [List.foldl_cons, ih, hdepth, hopening, List.length_cons]
    split_ifs <;> first | rfl | omega

/-- The first slur that starts is the one that the kind is kept of. -/
theorem slurOpening?_foldl_startSlur (kind : LyricKind) (slurs : List Slur) (v : Voice) :
    (slurs.foldl (fun v _ => v.startSlur kind) v).slurOpening? =
      if v.slurDepth = 0 ∧ 0 < slurs.length then some kind else v.slurOpening? := by
  induction slurs generalizing v with
  | nil => simp
  | cons _ slurs ih =>
    have hdepth : (v.startSlur kind).slurDepth = v.slurDepth + 1 := rfl
    rw [List.foldl_cons, ih, if_neg (by omega)]
    simp [startSlur]

/-- What a voice remembers of the slurs of a note. -/
theorem singing_markSlurs (v : Voice) (n : Note) (kind : LyricKind) :
    (v.markSlurs n.slurs kind).singing = v.singing.mark n kind := by
  have hdepth := v.slurDepth_markSlurs n.slurs kind
  have hopening : (v.markSlurs n.slurs kind).slurOpening? =
      (v.singing.mark n kind).slurOpening? := by
    have hstops : n.slurStops = (n.slurs.filter fun s => s.kind = .stop).length := rfl
    have hstarts : n.slurStarts = (n.slurs.filter fun s => s.kind = .start).length := rfl
    rw [markSlurs, slurOpening?_foldl_startSlur, slurDepth_foldl_stopSlur,
      slurOpening?_foldl_stopSlur, ← hstops, ← hstarts]
    unfold singing Singing.mark
    dsimp only
    split_ifs <;> first | rfl | omega
  obtain ⟨depth, opening?, hmarked⟩ := v.markSlurs_eq n.slurs kind
  rw [hmarked] at hdepth hopening ⊢
  exact congrArg₂ (Singing.mk v.stanzas) hdepth hopening

/-- A member of a chord that joins its voice changes nothing of what the voice remembers. -/
theorem singing_joinChord {v v' : Voice} {n : Note} {chordOpen : Bool}
    (h : v.joinChord n chordOpen = .ok v') : v'.singing = v.singing := by
  obtain ⟨chunk, _, rfl⟩ := of_map_eq_ok h
  rfl

/-- What a voice remembers of the stanzas of some lyrics. -/
theorem singing_learnStanzas (v : Voice) (lyrics : List Lyric) :
    (v.learnStanzas lyrics).singing = v.singing.learn (lyrics.map Lyric.stanza) := by
  simp [learnStanzas, singing, Singing.learn, List.foldl_map]

end Voice

/-! ## Chunks -/

/-- The element has a syllable: it says where in the word it stands, or has text. -/
def hasSyllable (e : Element) : Bool := (e.childText? "syllabic").isSome || (lyricText? e).isSome

/-- The kind of chunk that stands in for a syllable of a note before which some slurs are open. -/
def Note.StandsIn (n : Note) (slurDepth : Nat) (kind : LyricKind) : Prop :=
  if n.tie?.isSome then kind = .tied
  else if n.isRest then kind = .skip
  else if slurDepth = 0 then kind = .none
  else kind = .slur ∨ kind = .slurBeyondEnd

/-- Whether a note stands in a slur depends only on what was read of it. -/
theorem Note.StandsIn.congr {n n' : Note} {depth : Nat} {kind : LyricKind}
    (h : n.StandsIn depth kind) (hread : n.asRead = n'.asRead) : n'.StandsIn depth kind := by
  have htie : n.tie? = n'.tie? := (congrArg Note.tie? hread :)
  have hrest : n.isRest = n'.isRest := (congrArg Note.isRest hread :)
  unfold StandsIn at h ⊢
  rwa [← htie, ← hrest]

/-- What is remembered of the slurs of a note is up to what was read of it. -/
theorem Singing.mark_congr (s : Singing) {n n' : Note} (kind : LyricKind)
    (hread : n.asRead = n'.asRead) : s.mark n kind = s.mark n' kind := by
  have hslurs : n.slurs = n'.slurs := (congrArg Note.slurs hread :)
  have hstops : n.slurStops = n'.slurStops := by rw [Note.slurStops, hslurs, Note.slurStops]
  have hstarts : n.slurStarts = n'.slurStarts := by rw [Note.slurStarts, hslurs, Note.slurStarts]
  rw [mark, mark, hstops, hstarts]

/-- What is remembered of a member of a chord is up to what was read of it. -/
theorem Singing.follow_congr (s : Singing) {n n' : Note} (hread : n.asRead = n'.asRead) :
    s.follow settings n = s.follow settings n' := by
  rw [follow, follow, s.mark_congr .none hread]

/-- What a lyric says. A syllable that is in no list is a word of its own. -/
def Lyric.said (e : Element) : Lyric where
  stanza := Lyric.stanzaOf e
  kind? :=
    match e.childText? "syllabic" with
    | some word => some ((Vocabulary.ofWord? word : Option LyricKind).getD .single)
    | none => if (lyricText? e).isSome then some .single else none
  text? := lyricText? e
  extend := e.has "extend"
  elision := e.has "elision"
  line := e.line

/-- A lyric that is decoded says what its element does. -/
theorem Lyric.eq_said {e : Element} {l : Lyric} (h : Gives (ofElement e) l) : l = said e := by
  obtain ⟨j, j', hrun⟩ := h
  unfold ofElement wordOr at hrun
  unfold said
  generalize e.childText? "syllabic" = word? at hrun ⊢
  cases word? with
  | none =>
    cases hrun
    rfl
  | some word =>
    dsimp only at hrun ⊢
    generalize (Vocabulary.ofWord? word : Option LyricKind) = kind? at hrun ⊢
    cases kind? <;>
      · cases hrun
        rfl

/-- A lyric has no syllable where its element has none. -/
theorem Lyric.kind?_said {e : Element} (h : hasSyllable e = false) : (said e).kind? = none := by
  rw [hasSyllable, Bool.or_eq_false_iff] at h
  have hword : e.childText? "syllabic" = none := by simpa using h.1
  simp [said, hword, h.2]

/-- Lyrics that are each decoded say what their elements do. -/
theorem Ends.said {es : List Element} {found : List Lyric}
    (h : Ends (es.mapM fun e => (Lyric.ofElement e : Step Lyric)) r found s) :
    found = es.map Lyric.said := by
  induction es generalizing r s found with
  | nil =>
    have hnil : Ends (Pure.pure []) r found s := h
    rw [hnil.pure.1, List.map_nil]
  | cons e es ih =>
    rw [List.mapM_cons] at h
    obtain ⟨_, _, hone, hrest⟩ := h.bind
    obtain ⟨_, _, hmore, hpure⟩ := hrest.bind
    rw [hpure.pure.1, List.map_cons, Lyric.eq_said hone.lift.1, ih hmore]

/-- The lyrics of a note that are kept, decoded. -/
def keptLyrics (settings : Settings) (lyrics : List Element) : List Lyric :=
  (lyrics.filter fun e => settings.keepsStanza (Lyric.stanzaOf e)).map Lyric.said

/-- What a note of its voice sings, given what the voice remembers before and after it: one chunk
for each stanza that is known then. A chunk stands in for a syllable where the note has none. -/
structure Sings (settings : Settings) (before : Singing) (n : Note) (lyrics : List Element)
    (after : Singing) (chunks : List LyricChunk) : Prop where
  singing : ∃ kind, after = before.sing settings n lyrics kind
  stanzas : chunks.map LyricChunk.stanza = if settings.ignoreLyrics then [] else after.stanzas
  standIns : ∀ c ∈ chunks, (∀ e ∈ lyrics, Lyric.stanzaOf e = c.stanza → hasSyllable e = false) →
    n.StandsIn before.slurDepth c.kind
  /-- All of it is as in any voice that remembers as much. -/
  voice : settings.ignoreLyrics = false → ∃ v : Voice, v.singing = before ∧
    after = (v.sing n (keptLyrics settings lyrics)).1.singing ∧
    chunks = (v.learnStanzas (keptLyrics settings lyrics)).lyricChunks n (keptLyrics settings lyrics)

namespace Sings

variable {before after : Singing} {n n' : Note} {lyrics : List Element} {chunks : List LyricChunk}

/-- Where lyrics are left out, nothing is sung and nothing remembered. -/
theorem left_out (h : settings.ignoreLyrics = true) : Sings settings before n lyrics before [] :=
  ⟨⟨.none, by rw [Singing.sing, if_pos h]⟩, by rw [if_pos h]; rfl, (fun _ hc => nomatch hc),
    fun hheard => Bool.noConfusion (h.symm.trans hheard)⟩

/-- How a note sings depends only on what was read of it. -/
theorem congr (h : Sings settings before n lyrics after chunks) (hread : n.asRead = n'.asRead) :
    Sings settings before n' lyrics after chunks := by
  have hmark : ∀ (s : Singing) (kind : LyricKind), s.mark n kind = s.mark n' kind :=
    fun s kind => s.mark_congr kind hread
  obtain ⟨kind, hsinging⟩ := h.singing
  refine ⟨⟨kind, hsinging.trans ?_⟩, h.stanzas, fun c hc hnone => (h.standIns c hc hnone).congr hread,
    fun hheard => ?_⟩
  · simp only [Singing.sing, hmark]
  · obtain ⟨v, hbefore, hafter, hchunks⟩ := h.voice hheard
    -- of a note its voice asks only for what was read of it
    have hvoice : ∀ (n : Note) (found : List Lyric),
        (v.sing n.asRead found).1 = (v.sing n found).1 := fun _ _ => rfl
    have hchunk : ∀ (n : Note) (found : List Lyric),
        (v.learnStanzas found).lyricChunks n.asRead found =
          (v.learnStanzas found).lyricChunks n found := fun _ _ => rfl
    refine ⟨v, hbefore, ?_, ?_⟩
    · rw [hafter, ← hvoice n, hread, hvoice n']
    · rw [hchunks, ← hchunk n, hread, hchunk n']

end Sings

/-- The kind of a chunk without a syllable stands in for it. -/
theorem Voice.standsIn_silentKind (v : Voice) (n : Note) :
    n.StandsIn v.singing.slurDepth (v.silentKind n) := by
  unfold Note.StandsIn silentKind singing
  dsimp only
  split
  · rfl
  · split
    · rfl
    · split
      · rfl
      · split
        · exact .inr rfl
        · exact .inl rfl

/-- A note without a syllable never stands in for the end of a word. -/
theorem Voice.silentKind_ne_end (v : Voice) (n : Note) : v.silentKind n ≠ .end := by
  unfold silentKind
  split_ifs <;> nofun

/-- A chunk is of the stanza that it is made for. -/
theorem Voice.stanza_lyricChunk (n : Note) (lyrics : List Lyric) (silent : LyricKind)
    (stanza : String) : (lyricChunk n lyrics silent stanza).stanza = stanza := by
  unfold lyricChunk
  split <;> rfl

/-- **A note that sings** has a chunk for each stanza that its voice knows then. -/
theorem Voice.sings (v : Voice) (n : Note) {lyrics : List Element} {found : List Lyric}
    (hheard : settings.ignoreLyrics = false) (hfound : found = keptLyrics settings lyrics) :
    ∃ chunks, (v.sing n found).2.lyrics = n.lyrics ++ chunks ∧
      Sings settings v.singing n lyrics (v.sing n found).1.singing chunks := by
  have hkept : found.map Lyric.stanza =
      (lyrics.map Lyric.stanzaOf).filter settings.keepsStanza := by
    rw [hfound, keptLyrics, List.map_map, List.filter_map]
    rfl
  have hsing : ∀ kind, v.singing.sing settings n lyrics kind =
      (v.singing.learn ((lyrics.map Lyric.stanzaOf).filter settings.keepsStanza)).mark n kind :=
    fun kind => by rw [Singing.sing, if_neg (by simp [hheard])]
  refine ⟨(v.learnStanzas found).lyricChunks n found, rfl, ?_, ?_, ?_, fun _ => ?_⟩
  · rw [sing, singing_markSlurs, singing_learnStanzas, hkept]
    exact ⟨_, (hsing _).symm⟩
  · rw [if_neg (by simp [hheard]), sing, singing_markSlurs, lyricChunks, List.map_map]
    exact (List.map_congr_left fun stanza _ => stanza_lyricChunk ..).trans (List.map_id _)
  · intro c hc hnone
    obtain ⟨stanza, _, rfl⟩ := List.mem_map.mp hc
    have hsilent := (v.learnStanzas found).standsIn_silentKind n
    unfold lyricChunk at hnone ⊢
    split at hnone
    · next l hl =>
      have hmem := List.mem_of_find?_eq_some hl
      rw [hfound] at hmem
      obtain ⟨e, he, rfl⟩ := List.mem_map.mp hmem
      have hstanza : (Lyric.said e).stanza = stanza := by simpa using List.find?_some hl
      rw [Lyric.kind?_said (hnone e (List.mem_filter.mp he).1 hstanza)]
      exact hsilent
    · exact hsilent
  · rw [← hfound]
    exact ⟨v, rfl, rfl, rfl⟩

/-! ## Verses -/

/-- A note as it was read, with what it has to sing. -/
abbrev Verse := Note × List LyricChunk

/-- A note as it was read, with what it has to sing. -/
def Note.verse (n : Note) : Verse := (n.asRead, n.lyrics)

/-- What the notes of some leaves sing, those apart that are not even written. -/
def versesOf (ls : List Leaf) : List Verse :=
  ((ls.flatMap Leaf.notes).filter fun n => !n.isInvisibleRest).map Note.verse

theorem versesOf_append (ls ls' : List Leaf) :
    versesOf (ls ++ ls') = versesOf ls ++ versesOf ls' := by
  simp [versesOf]

theorem versesOf_note {n : Note} (h : n.isInvisibleRest = false) :
    versesOf [.note n] = [n.verse] := by
  simp [versesOf, Leaf.notes, h]

/-- Rests that are not written sing nothing. -/
theorem versesOf_rests {rests : List Note} (h : ∀ n ∈ rests, n.isInvisibleRest = true) :
    versesOf (rests.map .note) = [] := by
  rw [versesOf, List.flatMap_map, List.map_eq_nil_iff, List.filter_eq_nil_iff]
  intro n hn
  obtain ⟨rest, hrest, hn⟩ := List.mem_flatMap.mp hn
  rw [List.mem_singleton.mp hn]
  simp [h rest hrest]

/-- A note that joins others sings what it has brought. -/
theorem versesOf_joinsLeaf {n : Note} {ls ls' : List Leaf} (h : JoinsLeaf n ls ls')
    (hvisible : n.isInvisibleRest = false) : versesOf ls' = versesOf ls ++ [n.verse] := by
  obtain ⟨joined⟩ := h
  rw [versesOf_append, versesOf_append, List.append_assoc]
  congr 1
  have hcontent : n.content.isInvisible = false := hvisible
  cases joined with
  | @pair first _ =>
    by_cases hfirst : first.content.isInvisible = true <;>
      simp [versesOf, Leaf.notes, Chord.ofPair, Chord.ofFirst, Chord.absorb, Note.isInvisibleRest,
        Note.verse, Note.asRead, hfirst, hcontent]
  | more =>
    simp [versesOf, Leaf.notes, Chord.absorb, Note.isInvisibleRest, Note.verse, Note.asRead, hcontent]

/-- A voice of a part is given one verse more and remembers something else afterwards. -/
structure Intones (r s : Reading) (id : String) (key : VoiceKey) (verse : Verse)
    (after : Singing) : Prop where
  verses : versesOf (leavesOf (s.music id key)) = versesOf (leavesOf (r.music id key)) ++ [verse]
  here : s.singing id key = after
  others : ∀ id' k, (id', k) ≠ (id, key) → s.singing id' k = r.singing id' k

namespace Intones

variable {t : Reading} {id : String} {key : VoiceKey} {verse : Verse} {after : Singing}

/-- What is not heard afterwards changes nothing about it. -/
theorem before_quiet (h : Intones r s id key verse after) (hquiet : Quiet s t) :
    Intones r t id key verse after := by
  refine ⟨by rw [hquiet.music, h.verses], by rw [hquiet.singing, h.here], fun id' k hne => ?_⟩
  rw [hquiet.singing, h.others id' k hne]

/-- What does not change music and songs before changes nothing about it. -/
theorem after_same (hmusic : s.music = r.music) (hsinging : s.singing = r.singing)
    (h : Intones s t id key verse after) : Intones r t id key verse after :=
  ⟨by rw [h.verses, hmusic], h.here, fun id' k hne => by rw [h.others id' k hne, hsinging]⟩

end Intones

/-! ## Notes -/

/-- What a note brings to a voice: its slurs, and what it has to sing. -/
inductive Sung (settings : Settings) (before : Singing) (input : NoteInput) :
    Singing → List LyricChunk → Prop
  | member (member : input.inChord = true) :
      Sung settings before input (before.follow settings input.note) []
  | grace (alone : input.inChord = false) (grace : input.isGrace = true) :
      Sung settings before input before []
  | sings {after : Singing} {chunks : List LyricChunk} (alone : input.inChord = false)
      (grace : input.isGrace = false)
      (sings : Sings settings before input.note input.lyrics after chunks) :
      Sung settings before input after chunks

end Partwise
