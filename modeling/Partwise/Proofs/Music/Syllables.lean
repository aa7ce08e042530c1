import Partwise.Proofs.Music.Stanzas
import Partwise.Proofs.Reading.Leeway

/-!
# Music · Syllables: the chunks that the notes of a voice get

Notes come to a voice one after the other (`Entrance`): a note sings its lyrics, and a member of a
chord brings nothing but its slurs. Here it is said which chunks each of them gets, in terms of the
notes before it and of the chunks that those got (`Gets`), without the voice and what it remembers.

* A note that sings has one chunk for each stanza of a kept lyric so far, in the order of the bytes
  of their names (`textBytes_lt`).
* A chunk says what the first kept lyric of its stanza says. Where there is no syllable, the note
  stands in for it (`StandsInFor`): by its tie, its silence, or the slurs that are open before it,
  which have been opened by one of the notes before (`Opens`).

`Entrance.lyrics_aligned` is about every sequence of notes that comes to a voice that has sung
nothing yet. Notes come without chunks when they are read, so what they have at the end is what they
get here. What `Sings` says of single chunks is less: it leaves open which of two kinds a slur
gives, and what else a chunk says.
-/

namespace Partwise

open Markup

variable {r s : Reading} {settings : Settings} {key : VoiceKey}

/-! ## The order of bytes -/

/-- The bytes that a text is written in. -/
def textBytes (s : String) : List UInt8 := s.toUTF8.data.toList

/-- The bytes of a text are those of its characters. -/
theorem textBytes_eq (s : String) : textBytes s = s.toList.flatMap String.utf8EncodeChar := by
  rw [textBytes, String.toUTF8_eq_toByteArray, ← String.utf8Encode_toList]
  simp [List.utf8Encode]

/-- Of two sequences of bytes the first ones decide, and if they are the same, the others do. -/
theorem bytes_lt_iff {m n : Nat} (hm : m < 256) (hn : n < 256) (xs ys : List UInt8) :
    UInt8.ofNat m :: xs < UInt8.ofNat n :: ys ↔ m < n ∨ m = n ∧ xs < ys := by
  have hlt : UInt8.ofNat m < UInt8.ofNat n ↔ m < n := by
    rw [UInt8.lt_iff_toNat_lt, UInt8.toNat_ofNat_of_lt' hm, UInt8.toNat_ofNat_of_lt' hn]
  have heq : UInt8.ofNat m = UInt8.ofNat n ↔ m = n := by
    rw [← UInt8.toNat_inj, UInt8.toNat_ofNat_of_lt' hm, UInt8.toNat_ofNat_of_lt' hn]
  rw [List.cons_lt_cons_iff, hlt, heq]

/-- The bytes of a character come before those of every later one, whatever follows them. -/
theorem utf8EncodeChar_lt {c d : Char} (h : c.toNat < d.toNat) (xs ys : List UInt8) :
    String.utf8EncodeChar c ++ xs < String.utf8EncodeChar d ++ ys := by
  have hd : d.toNat < 0x110000 := by
    rcases d.valid with h | h
    · exact lt_trans h (by decide)
    · exact h.2
  unfold String.utf8EncodeChar
  rw [Char.toNat] at h hd
  rw [Char.toNat] at h
  dsimp only
  generalize c.val.toNat = m at *
  generalize d.val.toNat = n at *
  -- the lowest six bits decide where all higher ones are the same
  have hdigit : ∀ m n : Nat, m < n → m / 64 < n / 64 ∨ m / 64 = n / 64 ∧ m % 64 < n % 64 := by
    omega
  have h₀ := hdigit m n h
  have h₁ := hdigit (m / 64) (n / 64)
  have h₂ := hdigit (m / 4096) (n / 4096)
  simp only [Nat.div_div_eq_div_mul, Nat.reduceMul] at h₁ h₂
  have hm : m / 262144 % 8 = m / 262144 := Nat.mod_eq_of_lt (by omega)
  have hn : n / 262144 % 8 = n / 262144 := Nat.mod_eq_of_lt (by omega)
  split_ifs
  all_goals
    simp only [List.cons_append, List.nil_append]
    repeat rw [bytes_lt_iff (by omega) (by omega)]
    omega

/-- **Texts that are in order** are so in the order of their bytes. -/
theorem textBytes_lt {a b : String} (h : textBefore a b = true) : textBytes a < textBytes b := by
  rw [textBytes_eq, textBytes_eq]
  unfold textBefore at h
  generalize a.toList = as at h
  generalize b.toList = bs at h
  induction as generalizing bs with
  | nil =>
    cases bs with
    | nil => exact nomatch h
    | cons b bs =>
      rw [List.flatMap_cons]
      obtain ⟨byte, bytes, hbytes⟩ :=
        List.exists_cons_of_ne_nil (String.utf8EncodeChar_ne_nil (c := b))
      rw [hbytes]
      exact List.nil_lt_cons _ _
  | cons a as ih =>
    cases bs with
    | nil => exact nomatch h
    | cons b bs =>
      rw [charsBefore] at h
      rw [List.flatMap_cons, List.flatMap_cons]
      split at h
      · next hab =>
        rw [hab]
        exact List.append_left_lt (ih bs h)
      · exact utf8EncodeChar_lt (Nat.blt_eq.mp h) _ _

/-! ## Notes that come to a voice -/

/-- A note comes to its voice. -/
inductive Entrance where
  /-- It sings its lyrics. -/
  | sings (n : Note) (lyrics : List Element)
  /-- It is a member of a chord. -/
  | joins (n : Note)

namespace Entrance

/-- The note as it comes. -/
def note : Entrance → Note
  | sings n _ | joins n => n

/-- The lyrics that are kept of it. -/
def kept (settings : Settings) : Entrance → List Element
  | sings _ lyrics => lyrics.filter fun e => settings.keepsStanza (Lyric.stanzaOf e)
  | joins _ => []

/-- The step that is made for it in its voice. -/
def perform (settings : Settings) (key : VoiceKey) : Entrance → Step Note
  | sings n lyrics => singNote settings key n lyrics
  | joins n => do
    markMember settings n.line key n
    pure n

end Entrance

/-- A note that has come to its voice, with the chunks that it got. -/
structure Rendition where
  entrance : Entrance
  chunks : List LyricChunk

namespace Rendition

/-- The note as it goes into its voice. -/
def note (x : Rendition) : Note :=
  { x.entrance.note with lyrics := x.entrance.note.lyrics ++ x.chunks }

/-- The kind of the first chunk, if there is one. -/
def firstKind? (x : Rendition) : Option LyricKind := x.chunks.head?.map LyricChunk.kind

/-- How many slurs stop on the note. -/
def stops (x : Rendition) : Nat := x.entrance.note.slurStops

/-- How many slurs start on the note. -/
def starts (x : Rendition) : Nat := x.entrance.note.slurStarts

end Rendition

/-- How many slurs are open after some notes. On each of them slurs stop, as far as any are open,
and then start. -/
def openSlurs (done : List Rendition) : Nat :=
  done.foldl (fun depth x => depth - x.stops + x.starts) 0

/-- The note opened the slurs that are open after some notes: it started one when none was open, and
after it there was always one that did not stop. -/
def Opens (done : List Rendition) (opener : Rendition) : Prop :=
  ∃ (i : Nat) (hi : i < done.length), done[i] = opener ∧
    openSlurs (done.take i) ≤ opener.stops ∧ 0 < opener.starts ∧
      ∀ k (hk : k < done.length), i < k → done[k].stops < openSlurs (done.take k)

/-- The kind of chunk by which a note stands in for a syllable. A slur goes on beyond the end of a
word if the first chunk of the note that opened it is such an end. -/
def StandsInFor (done : List Rendition) (n : Note) (kind : LyricKind) : Prop :=
  if n.tie?.isSome then kind = .tied
  else if n.isRest then kind = .skip
  else if openSlurs done = 0 then kind = .none
  else ∃ opener, Opens done opener ∧
    kind = if opener.firstKind? = some .end then .slurBeyondEnd else .slur

/-- The chunk of a note for a stanza: what its lyric says, if there is one. -/
def chunkOf (n : Note) (lyric? : Option Lyric) (standIn : LyricKind) (stanza : String) :
    LyricChunk where
  stanza
  kind := (lyric?.bind Lyric.kind?).getD standIn
  text? := lyric?.bind Lyric.text?
  wholeNotes := n.soundingWholeNotes
  extend := lyric?.any Lyric.extend
  elision := lyric?.any Lyric.elision
  line := lyric?.elim n.line Lyric.line

/-- The chunks that a note gets when it comes to its voice after others. -/
inductive Gets (settings : Settings) (done : List Rendition) : Entrance → List LyricChunk → Prop
  | joins (n : Note) : Gets settings done (.joins n) []
  | sings {n : Note} {lyrics : List Element} {chunks : List LyricChunk}
      (ascending : chunks.Pairwise fun c d => textBytes c.stanza < textBytes d.stanza)
      (stanzas : ∀ stanza, stanza ∈ chunks.map LyricChunk.stanza ↔
        ∃ e ∈ done.flatMap (fun x => x.entrance.kept settings) ++
          (Entrance.sings n lyrics).kept settings, Lyric.stanzaOf e = stanza)
      (contents : ∀ c ∈ chunks, ∃ standIn, StandsInFor done n standIn ∧
        c = chunkOf n ((((Entrance.sings n lyrics).kept settings).find? fun e =>
          Lyric.stanzaOf e = c.stanza).map Lyric.said) standIn c.stanza) :
      Gets settings done (.sings n lyrics) chunks

/-- Every note has got its chunks, given those before it. -/
def Aligned (settings : Settings) (done : List Rendition) : Prop :=
  ∀ i (hi : i < done.length), Gets settings (done.take i) done[i].entrance done[i].chunks

/-- Where nothing was rendered, all is aligned. -/
theorem Aligned.nil : Aligned settings [] := fun _ h => nomatch h

/-- Renditions stay aligned when one more note gets the chunks that it should. -/
theorem Aligned.snoc {done : List Rendition} {x : Rendition} (h : Aligned settings done)
    (hx : Gets settings done x.entrance x.chunks) : Aligned settings (done ++ [x]) := by
  intro i hi
  rcases Nat.lt_or_ge i done.length with hlt | hge
  · rw [List.getElem_append_left hlt, List.take_append_of_le_length hlt.le]
    exact h i hlt
  · obtain rfl : i = done.length := by simp at hi; omega
    rw [List.take_left']
    · simpa using hx
    · rfl

/-! ## Slurs -/

/-- One more rendition closes the slurs that stop on it and opens those that start on it. -/
theorem openSlurs_snoc (done : List Rendition) (x : Rendition) :
    openSlurs (done ++ [x]) = openSlurs done - x.stops + x.starts := by
  rw [openSlurs, List.foldl_append]
  rfl

namespace Opens

variable {done : List Rendition} {x opener : Rendition}

/-- A note opens slurs if all others stop on it. -/
theorem here (hclosed : openSlurs done ≤ x.stops) (hstarts : 0 < x.starts) :
    Opens (done ++ [x]) x := by
  refine ⟨done.length, by simp, by simp, ?_, hstarts, fun k hk hlate => ?_⟩
  · rwa [List.take_left' rfl]
  · simp at hk
    omega

/-- The slurs stay open if one does not stop. -/
theorem snoc (h : Opens done opener) (hopen : x.stops < openSlurs done) :
    Opens (done ++ [x]) opener := by
  obtain ⟨i, hi, rfl, hclosed, hstarts, hlater⟩ := h
  refine ⟨i, by simp; omega, List.getElem_append_left hi, ?_, hstarts, fun k hk hlate => ?_⟩
  · rwa [List.take_append_of_le_length hi.le]
  · rcases Nat.lt_or_ge k done.length with hlt | hge
    · rw [List.getElem_append_left hlt, List.take_append_of_le_length hlt.le]
      exact hlater k hlt hlate
    · obtain rfl : k = done.length := by simp at hk; omega
      rw [List.take_left' rfl]
      simpa using hopen

end Opens

namespace Voice

/-- A chunk says what the first lyric of its stanza says. -/
theorem lyricChunk_eq (n : Note) (lyrics : List Lyric) (silent : LyricKind) (stanza : String) :
    lyricChunk n lyrics silent stanza =
      chunkOf n (lyrics.find? fun l => l.stanza = stanza) silent stanza := by
  unfold lyricChunk chunkOf
  split <;> next h => rw [h]; rfl

/-- There is one chunk for each stanza. -/
theorem stanzas_lyricChunks (v : Voice) (n : Note) (lyrics : List Lyric) :
    (v.lyricChunks n lyrics).map LyricChunk.stanza = v.stanzas := by
  rw [lyricChunks, List.map_map]
  refine (List.map_congr_left fun stanza _ => ?_).trans (List.map_id _)
  rw [Function.comp_apply, lyricChunk_eq]
  rfl

/-- After a voice learnt some lyrics, its stanzas are those that it knew and those of the lyrics. -/
theorem mem_stanzas_learnStanzas (v : Voice) (lyrics : List Lyric) (stanza : String) :
    stanza ∈ (v.learnStanzas lyrics).stanzas ↔
      stanza ∈ v.stanzas ∨ stanza ∈ lyrics.map Lyric.stanza := by
  have hlearned := congrArg Singing.stanzas (v.singing_learnStanzas lyrics)
  change (v.learnStanzas lyrics).stanzas = _ at hlearned
  rw [hlearned, Singing.mem_learn]
  rfl

end Voice

/-! ## What a voice remembers -/

/-- A voice remembers of the notes so far which stanzas their lyrics are of, how many slurs are
open, and whether these began on the end of a word. -/
structure Remembers (settings : Settings) (done : List Rendition) (s : Singing) : Prop where
  ascending : StanzasAscend s.stanzas
  stanzas : ∀ stanza, stanza ∈ s.stanzas ↔
    ∃ e ∈ done.flatMap (fun x => x.entrance.kept settings), Lyric.stanzaOf e = stanza
  depth : s.slurDepth = openSlurs done
  opening : 0 < openSlurs done → ∃ opener, Opens done opener ∧
    (s.slurOpening? = some .end ↔ opener.firstKind? = some .end)

namespace Remembers

variable {done : List Rendition} {s : Singing} {v : Voice}

/-- A voice that has sung nothing remembers nothing. -/
theorem nil (hstanzas : s.stanzas = []) (hdepth : s.slurDepth = 0) : Remembers settings [] s :=
  ⟨hstanzas ▸ .nil, by simp [hstanzas], hdepth, fun h => nomatch h⟩

/-- A note stands in for a syllable as the notes before it let it. -/
theorem standsInFor (h : Remembers settings done v.singing) (n : Note) :
    StandsInFor done n (v.silentKind n) := by
  have hdepth : v.slurDepth = openSlurs done := h.depth
  unfold StandsInFor Voice.silentKind
  rw [hdepth]
  split
  · rfl
  · split
    · rfl
    · split
      · rfl
      · next hopen =>
        obtain ⟨opener, hopener, hend⟩ := h.opening (Nat.pos_of_ne_zero hopen)
        exact ⟨opener, hopener, if_congr hend rfl rfl⟩

/-- The slurs of one note more are followed, if the kind is that of its first chunk. -/
theorem mark (h : Remembers settings done s) {x : Rendition} {kind : LyricKind}
    {learned : List String} (hascending : StanzasAscend learned)
    (hstanzas : ∀ stanza, stanza ∈ learned ↔ stanza ∈ s.stanzas ∨
      ∃ e ∈ x.entrance.kept settings, Lyric.stanzaOf e = stanza)
    (hkind : kind = .end ↔ x.firstKind? = some .end) :
    Remembers settings (done ++ [x])
      (Singing.mark { s with stanzas := learned } x.entrance.note kind) := by
  refine ⟨hascending, fun stanza => ?_, ?_, fun hopen => ?_⟩
  · refine (hstanzas stanza).trans ?_
    rw [h.stanzas]
    simp [or_and_right, exists_or]
  · rw [openSlurs_snoc, ← h.depth]
    rfl
  · rw [openSlurs_snoc, ← h.depth] at hopen
    have hopening :=
      Singing.slurOpening?_mark { s with stanzas := learned } x.entrance.note kind hopen
    rw [hopening]
    dsimp only
    split
    · next hclosed =>
      have hstarts : 0 < x.starts := by
        rw [Rendition.stops, Note.slurStops] at hopen
        rw [Note.slurStops] at hclosed
        omega
      rw [h.depth] at hclosed
      exact ⟨x, .here hclosed hstarts, by rw [Option.some_inj, hkind]⟩
    · next hstays =>
      have hstays : x.stops < openSlurs done := h.depth ▸ Nat.lt_of_not_le hstays
      obtain ⟨opener, hopener, hend⟩ := h.opening (by omega)
      exact ⟨opener, hopener.snoc hstays, hend⟩

/-- **A note that sings** gets its chunks, and is remembered. -/
theorem sing (h : Remembers settings done v.singing) (n : Note) (lyrics : List Element)
    {found : List Lyric} {chunks : List LyricChunk} (hfound : found = keptLyrics settings lyrics)
    (hchunks : chunks = (v.learnStanzas found).lyricChunks n found) :
    Gets settings done (.sings n lyrics) chunks ∧
      Remembers settings (done ++ [⟨.sings n lyrics, chunks⟩]) (v.sing n found).1.singing := by
  have hascending := Voice.stanzasAscend_learn found h.ascending
  have hlearned : ∀ stanza, stanza ∈ (v.learnStanzas found).stanzas ↔ stanza ∈ v.stanzas ∨
      ∃ e ∈ (Entrance.sings n lyrics).kept settings, Lyric.stanzaOf e = stanza := by
    intro stanza
    rw [v.mem_stanzas_learnStanzas, hfound, keptLyrics, List.map_map, List.mem_map]
    rfl
  have hstanzas := (v.learnStanzas found).stanzas_lyricChunks n found
  rw [← hchunks] at hstanzas
  refine ⟨.sings ?_ (fun stanza => ?_) fun c hc => ?_, ?_⟩
  · rw [← hstanzas, StanzasAscend, List.pairwise_map] at hascending
    exact hascending.imp textBytes_lt
  · have hknown := h.stanzas stanza
    rw [hstanzas, hlearned, show v.stanzas = v.singing.stanzas from rfl, hknown]
    simp [or_and_right, exists_or]
  · rw [hchunks] at hc
    obtain ⟨stanza, -, rfl⟩ := List.mem_map.mp hc
    refine ⟨v.silentKind n, h.standsInFor n, ?_⟩
    rw [Voice.lyricChunk_eq, hfound, keptLyrics, List.find?_map]
    rfl
  · rw [Voice.sing, Voice.singing_markSlurs, ← hchunks]
    refine h.mark (x := ⟨.sings n lyrics, chunks⟩) hascending hlearned ?_
    -- where there is no chunk, the note stands in for the end of no word
    rw [Rendition.firstKind?]
    rcases chunks with _ | ⟨first, _⟩
    · simp [Voice.silentKind_ne_end]
    · simp

/-- A member of a chord gets no chunks, and is remembered. -/
theorem join (h : Remembers settings done s) (n : Note) :
    Remembers settings (done ++ [⟨.joins n, []⟩]) (s.mark n .none) :=
  h.mark (x := ⟨.joins n, []⟩) h.ascending (by simp [Entrance.kept])
    (by simp [Rendition.firstKind?])

end Remembers

/-! ## Sequences of notes -/

/-- Nothing that is found counts. -/
def unheeded : Standard where
  heeds _ := false
  fails _ _ := True
  lenient := True

/-- A voice is looked for, and begins if it is not there. -/
theorem aside_voiceAt {p : Part} {line : Nat} (hp : r.part? = some p) :
    unheeded.Aside (voiceAt line key) r fun v t =>
      v = p.voiceOrNew key ∧ Becomes r t (p.ensureVoice key) r.passage := by
  unfold voiceAt
  refine (Standard.Aside.currentPart hp).bind ?_
  rintro _ _ ⟨rfl, rfl⟩
  have hrefl := Becomes.refl hp
  rcases hv : Part.voice? _ key with _ | v
  · refine (Standard.Aside.tell (P := fun _ t => t = _) rfl).bind ?_
    rintro _ _ rfl
    refine Standard.Aside.bind (P := fun _ t => Becomes _ t _ _)
      (.modify (hrefl.setPart Part.id_ensureVoice)) fun _ t ht => .pure ⟨?_, ht⟩
    simp [Part.voiceOrNew, hv]
  · refine .pure ⟨by simp [Part.voiceOrNew, hv], ?_⟩
    simpa [Part.ensureVoice, hv] using hrefl

/-- A change of a voice that has begun changes what is found under its key, and nothing counts of
what is said. -/
theorem aside_modifyVoice {p : Part} {line : Nat} {f : Voice → Voice}
    (h : Becomes r s (p.ensureVoice key) r.passage)
    (hf : ∀ v : Voice, v.key = key → (f v).key = key) :
    unheeded.Aside (changePart line fun part => part.modifyVoice key f) s fun _ t =>
      ∃ q, t.part? = some q ∧ q.voiceOrNew key = f (p.voiceOrNew key) := by
  have hid : ((p.ensureVoice key).modifyVoice key f).id = (p.ensureVoice key).id := rfl
  have hturned := (Part.Turns.ensureVoice p key).modifyVoice hf
  exact .changePart h.part? ⟨_, (h.setPart hid).part?, hturned.voiceOrNew_self⟩

/-- A voice is changed. If it was not there, it begins before. -/
theorem aside_changeVoice {p : Part} {line : Nat} {f : Voice → Voice} (hp : r.part? = some p)
    (hf : ∀ v : Voice, v.key = key → (f v).key = key) :
    unheeded.Aside (changeVoice line key f) r fun _ t =>
      ∃ q, t.part? = some q ∧ q.voiceOrNew key = f (p.voiceOrNew key) := by
  have hbegun : unheeded.Aside (Functor.discard (voiceAt line key)) r fun _ t =>
      Becomes r t (p.ensureVoice key) r.passage :=
    (aside_voiceAt hp).bind fun _ _ hv => .pure hv.2
  exact hbegun.bind fun _ _ ht => aside_modifyVoice ht hf

namespace Entrance

variable {p : Part} {done : List Rendition}

/-- **One note** comes to its voice without fail. It gets its chunks and is remembered. -/
theorem aside_perform (hheard : settings.ignoreLyrics = false) (hp : r.part? = some p)
    (h : Remembers settings done (p.voiceOrNew key).singing) (x : Entrance) :
    unheeded.Aside (x.perform settings key) r fun n t => ∃ chunks q,
      Gets settings done x chunks ∧ n = (Rendition.mk x chunks).note ∧ t.part? = some q ∧
        Remembers settings (done ++ [⟨x, chunks⟩]) (q.voiceOrNew key).singing := by
  cases x with
  | sings n lyrics =>
    rw [perform, singNote, if_neg (by simp [hheard])]
    refine (Standard.Aside.mapM (Lyric.aside fun _ _ => rfl) _).bind ?_
    rintro found t ⟨hfound, rfl⟩
    refine (aside_voiceAt hp).bind ?_
    rintro _ t ⟨rfl, ht⟩
    obtain ⟨hgets, hremembers⟩ := h.sing n lyrics hfound rfl
    refine Standard.Aside.bind (.forM (fun _ => .tell rfl) _) ?_
    rintro _ _ rfl
    refine (aside_modifyVoice ht fun _ _ =>
      ((p.voiceOrNew key).still_sing n found).1.key.trans Part.key_voiceOrNew).bind ?_
    rintro _ t ⟨q, hq, hvoice⟩
    exact .pure ⟨_, q, hgets, rfl, hq, hvoice ▸ hremembers⟩
  | joins n =>
    have hremembers := h.join n
    rw [← Voice.singing_markSlurs] at hremembers
    have hgets : Gets settings done (.joins n) [] := .joins n
    have hnote : n = (Rendition.mk (.joins n) []).note := by
      simp [Rendition.note, note]
    rw [perform, markMember]
    split
    · refine (aside_changeVoice hp fun v hkey =>
        (v.still_markSlurs n.slurs .none).key.trans hkey).bind ?_
      rintro _ t ⟨q, hq, hvoice⟩
      exact .pure ⟨[], q, hgets, hnote, hq, hvoice ▸ hremembers⟩
    · next hslurs =>
      have hnone : n.slurs = [] := by simpa [hheard] using hslurs
      rw [hnone] at hremembers
      exact .pure ⟨[], p, hgets, hnote, hp, hremembers⟩

/-- Notes that come after others, one after the other. -/
theorem aside_mapM (hheard : settings.ignoreLyrics = false) (xs : List Entrance)
    (hp : r.part? = some p) (h : Remembers settings done (p.voiceOrNew key).singing)
    (haligned : Aligned settings done) :
    unheeded.Aside (xs.mapM (perform settings key)) r fun notes _ => ∃ more : List Rendition,
      more.map Rendition.entrance = xs ∧ notes = more.map Rendition.note ∧
        Aligned settings (done ++ more) := by
  induction xs generalizing r p done with
  | nil => exact .pure ⟨[], rfl, rfl, by rwa [List.append_nil]⟩
  | cons x xs ih =>
    rw [List.mapM_cons]
    refine (aside_perform hheard hp h x).bind ?_
    rintro n t ⟨chunks, q, hgets, rfl, hq, hremembers⟩
    refine (ih hq hremembers (haligned.snoc (x := ⟨x, chunks⟩) hgets)).bind ?_
    rintro notes t ⟨more, rfl, rfl, hmore⟩
    refine .pure ⟨⟨x, chunks⟩ :: more, rfl, rfl, ?_⟩
    rwa [List.append_assoc] at hmore

/-- **Every sequence of notes** that comes to a voice that has sung nothing does so without fail,
and every note gets the chunks that the notes before it and its own lyrics ask for. -/
theorem lyrics_aligned (hheard : settings.ignoreLyrics = false) (hp : r.part? = some p)
    (hnew : (p.voiceOrNew key).stanzas = [] ∧ (p.voiceOrNew key).slurDepth = 0)
    (xs : List Entrance) (j : Journal) :
    ∃ (done : List Rendition) (s : Reading) (j' : Journal),
      Runs (xs.mapM (perform settings key)) r j (done.map Rendition.note) s j' ∧
        done.map Rendition.entrance = xs ∧ Aligned settings done := by
  have hnone : Remembers settings [] (p.voiceOrNew key).singing := .nil hnew.1 hnew.2
  obtain ⟨notes, s, said, hrun, -, done, hentrances, rfl, haligned⟩ :=
    aside_mapM hheard xs hp hnone .nil j
  exact ⟨done, s, said ++ j, hrun, hentrances, haligned⟩

/-- A sounding quarter with some slurs. -/
def quarter (slurs : List SlurKind) : Note :=
  { Note.skip (mkRat 1 4) 1 1 "1" 1 with
    content := .unpitched none none
    slurs := slurs.map fun kind => ⟨kind, 1⟩ }

/-- The last syllable of a word, under a slur. A member of its chord starts a second slur, and each
of the next two notes stops one. -/
def wordUnderSlurs : List Entrance :=
  [.sings (quarter [.start])
      [{ name := "lyric", children := [textElement "syllabic" "end", textElement "text" "men"] }],
    .joins (quarter [.start]), .sings (quarter [.stop]) [], .sings (quarter [.stop]) [],
    .sings (quarter []) []]

/-- A part without voices is being read. -/
def silentPart : Reading where
  parts := [{ id := "P", line := 1 }]
  partId? := some "P"

/-- Both slurs of `wordUnderSlurs` go on beyond the end of the word. -/
theorem lyrics_aligned_wordUnderSlurs : ∃ (done : List Rendition) (s : Reading) (j : Journal),
    Runs (wordUnderSlurs.mapM (perform {} ⟨1, 1⟩)) silentPart [] (done.map Rendition.note) s j ∧
      done.map Rendition.entrance = wordUnderSlurs ∧ Aligned {} done ∧
        done.map (fun x => x.note.lyrics.map LyricChunk.kind) =
          [[.end], [], [.slurBeyondEnd], [.slurBeyondEnd], [.none]] := by
  obtain ⟨done, s, j, hrun, hentrances, haligned⟩ :=
    lyrics_aligned (rfl : ({} : Settings).ignoreLyrics = false)
      (rfl : silentPart.part? = some { id := "P", line := 1 })
      (⟨rfl, rfl⟩ : (Part.voiceOrNew { id := "P", line := 1 } ⟨1, 1⟩).stanzas = [] ∧
        (Part.voiceOrNew { id := "P", line := 1 } ⟨1, 1⟩).slurDepth = 0) wordUnderSlurs []
  refine ⟨done, s, j, hrun, hentrances, haligned, ?_⟩
  have hkinds :
      (match (((wordUnderSlurs.mapM (perform {} ⟨1, 1⟩)).run silentPart).run.run []).1 with
      | .ok (notes, _) => notes.map fun n => n.lyrics.map LyricChunk.kind
      | .error _ => []) = [[.end], [], [.slurBeyondEnd], [.slurBeyondEnd], [.none]] := by
    decide +kernel
  rw [Runs] at hrun
  rw [hrun] at hkinds
  dsimp only at hkinds
  rwa [List.map_map] at hkinds

end Entrance

end Partwise
