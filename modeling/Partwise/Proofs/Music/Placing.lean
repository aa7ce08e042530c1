import Partwise.Proofs.Music.Boundaries
import Partwise.Proofs.Music.Giving
import Partwise.Proofs.Music.Singing
import Partwise.Proofs.Reading.Pending

/-!
# Music · Placing: notes and rests take their place

A note that is not a member of a chord, and a movement forward, do the same to the music: the voice
is padded up to where the document stands and then holds one note more, and document and voice move
on together. `Placed` states this in full, and `Alights` how the note stands among the tuplets that
are open; `Joined` is what a member of a chord does, `WentBack` what
a movement back in time does.
-/

namespace Partwise

open Markup

variable {r s t : Reading} {part : Part} {key : VoiceKey} {v : Voice} {position : WholeNotes}
  {tuplets : List Tuplet} {reached : List WholeNotes} {line : Nat} {u : Unit} {settings : Settings}

/-- What a document says of a tuplet that starts, with the line of its first note. -/
def TupletStart.opening (start : TupletStart) (line : Nat) : Opening :=
  ⟨start.number, start.actualNotes, start.normalNotes, line⟩

/-! ## Within one voice -/

namespace Giving

/-- Tuplets open for the voice, all at one position and without members. -/
theorem openTuplets {starts : List TupletStart} {at' : WholeNotes}
    (h : Giving r s part key v position tuplets reached)
    (hrun : Ends (starts.forM (openTuplet line key at')) s u t) :
    ∃ news, Giving r t part key v position (news ++ tuplets) reached ∧
      (∀ x ∈ news, x.key = key ∧ x.members = [] ∧ x.positionInMeasure = at') ∧
      news.map Tuplet.opening = (starts.map fun start => start.opening line).reverse ∧
      ∀ x ∈ news, x.measureNumber = r.passage.measureNumber := by
  induction starts generalizing s tuplets with
  | nil =>
    have hnil : Ends (Pure.pure ()) s u t := hrun
    rw [hnil.pure.2]
    exact ⟨[], h, by simp, rfl, by simp⟩
  | cons start starts ih =>
    obtain ⟨_, s₁, hone, hmore⟩ := Ends.bind hrun
    obtain ⟨_, s, hcurrent, hrest₁⟩ := hone.bind
    obtain ⟨_, rfl⟩ := hcurrent.currentPart
    obtain ⟨_, _, hget, hrest₂⟩ := hrest₁.bind
    obtain ⟨rfl, rfl⟩ := hget.get
    obtain ⟨_, s₂, htell, hopen⟩ := hrest₂.bind
    have hopened := (h.lift htell).2.changePassage hopen (fun _ => rfl) fun _ => rfl
    rw [htell.tell] at hopened
    dsimp only at hopened
    rw [h.position, h.tuplets] at hopened
    obtain ⟨news, hgiving, hnews, hopenings, hmeasures⟩ := ih hopened hmore
    refine ⟨news ++ [_], by rw [List.append_assoc]; exact hgiving, ?_, ?_, ?_⟩
    · intro x hx
      rcases List.mem_append.mp hx with hx | hx
      · exact hnews x hx
      · rw [List.mem_singleton.mp hx]
        exact ⟨rfl, rfl, rfl⟩
    · rw [List.map_append, hopenings, List.map_cons, List.map_nil, List.map_cons,
        List.reverse_cons]
      rfl
    · intro x hx
      rcases List.mem_append.mp hx with hx | hx
      · exact hmeasures x hx
      · rw [List.mem_singleton.mp hx]
        exact h.measureNumber

/-- The voice has the key it is known by. -/
theorem key_eq (h : Giving r s part key v position tuplets reached) : v.key = key := by
  obtain ⟨⟨_, _, _, hturns⟩, _, _, _⟩ := h
  exact Part.key_of_voice? hturns.here

/-- A note that sings stays the same but for its lyrics, and its voice stays where it is. -/
theorem singNote {n sung : Note} {lyrics : List Element}
    (h : Giving r s part key v position tuplets reached)
    (hrun : Ends (Partwise.singNote settings key n lyrics) s sung t) :
    n.Same sung ∧ Note.Dressed ∅ n sung ∧
      ∃ w chunks, Giving r t part key w position tuplets reached ∧ v.Still w ∧
        sung.lyrics = n.lyrics ++ chunks ∧
        Sings settings v.singing n lyrics w.singing chunks := by
  unfold Partwise.singNote at hrun
  split at hrun
  · next hleft =>
    obtain ⟨rfl, rfl⟩ := hrun.pure
    exact ⟨⟨rfl, rfl, rfl⟩, .refl _, v, [], h, Voice.Still.refl v, (List.append_nil _).symm,
      .left_out hleft⟩
  · next hheard =>
    obtain ⟨found, s₁, hlyrics, hrest₁⟩ := hrun.bind
    have hfound : found = keptLyrics settings lyrics := hlyrics.said
    have hsame := hlyrics.mapM fun _ _ _ _ hread => hread.lift.2
    subst hsame
    obtain ⟨w, s₂, hvoice, hrest₂⟩ := hrest₁.bind
    obtain ⟨rfl, hat⟩ := h.voiceAt hvoice
    obtain ⟨hstill, himprint, hlength⟩ := w.still_sing n found
    obtain ⟨_, s₃, htold, hrest₃⟩ := hrest₂.bind
    have hquiet : s₃ = s₂ := htold.forM (P := (· = s₂)) rfl fun _ _ _ _ heq htell =>
      htell.tell.trans heq
    subst hquiet
    obtain ⟨_, s₄, hpart, hpure⟩ := hrest₃.bind
    obtain ⟨rfl, rfl⟩ := hpure.pure
    have hkey : (w.sing n found).1.key = key := hstill.key.trans h.key_eq
    obtain ⟨chunks, hchunks, hsings⟩ := w.sings n (by simpa using hheard) hfound
    have hdressed : Note.Dressed ∅ n (w.sing n found).2 := ⟨rfl, rfl, (n.attachments.append_empty).symm⟩
    exact ⟨⟨himprint, hlength, rfl⟩, hdressed, _, chunks, hat.modify hpart fun _ _ => hkey, hstill,
      hchunks, hsings⟩

/-- A note takes what is pending and sings, unless it is a grace note. -/
theorem dress {n : Note} {isGrace takes : Bool} {lyrics : List Element} {next : Note → Step Unit}
    (h : Giving r s part key v position tuplets reached)
    (hrun : Ends (if isGrace = true then Pure.pure n >>= next
      else takePending settings n >>= fun m =>
        Partwise.singNote settings key m lyrics >>= next) s u t)
    (htakes : (!isGrace && n.takes settings) = takes) :
    ∃ dressed w s', n.Same dressed ∧ Giving r s' part key w position tuplets reached ∧ v.Still w ∧
      Note.Dressed (if takes then s.passage.pending else ∅) n dressed ∧
      (∃ chunks, dressed.lyrics = n.lyrics ++ chunks ∧
        if isGrace then w.singing = v.singing ∧ chunks = []
        else Sings settings v.singing n lyrics w.singing chunks) ∧
      s'.passage.pending = (if takes then ∅ else s.passage.pending) ∧
      Ends (next dressed) s' u t := by
  split at hrun
  · next hgrace =>
    obtain ⟨_, _, hpure, hnext⟩ := hrun.bind
    obtain ⟨rfl, rfl⟩ := hpure.pure
    rw [← htakes, hgrace]
    exact ⟨_, v, _, ⟨rfl, rfl, rfl⟩, h, Voice.Still.refl v, .refl _,
      ⟨[], (List.append_nil _).symm, by simp⟩, rfl, hnext⟩
  · next hgrace =>
    have hsame : n.takes settings = takes := by simpa [hgrace] using htakes
    subst hsame
    obtain ⟨m, s₁, htake, hrest⟩ := hrun.bind
    obtain ⟨hdressed, htaken⟩ := htake.takePending_eq
    have htook := h.of_passage htaken rfl h.headway
    dsimp only at htook
    rw [h.position, h.tuplets] at htook
    obtain ⟨sung, s₂, hsing, hnext⟩ := hrest.bind
    obtain ⟨hsung, hcarried, w, chunks, hgiving, hstill, hchunks, hsings⟩ := htook.singNote hsing
    have hpending := (Discreet.habit id).habit.singNote |>.ends hsing
    refine ⟨sung, w, s₂, ?_, hgiving, hstill, ?_, ⟨chunks, ?_, ?_⟩, ?_, hnext⟩
    · rw [hdressed] at hsung
      exact ⟨hsung.imprint, hsung.length, hsung.measure⟩
    · rw [hdressed] at hcarried
      exact ⟨hcarried.asRead, hcarried.articulations,
        hcarried.attachments.trans (Attachments.append_empty _)⟩
    · rw [hchunks, hdressed]
    · rw [if_neg hgrace]
      exact hsings.congr (by rw [hdressed]; rfl)
    · rw [htaken] at hpending
      exact hpending

end Giving

/-! ## Notes and rests -/

/-- A note or rest that takes its place in a voice. -/
structure Arrival where
  key : VoiceKey
  content : NoteContent
  line : Nat
  length : WholeNotes
  isGrace : Bool

/-- A note that is no member of a chord takes its place. -/
def NoteInput.arrival (input : NoteInput) : Arrival :=
  ⟨input.key, input.note.content, input.note.line, input.note.soundingWholeNotes, input.isGrace⟩

/-- The tuplets that start with a note, the outermost first. -/
def NoteInput.openings (input : NoteInput) : List Opening :=
  input.tupletStarts.map fun start => start.opening input.note.line

/-- An invisible rest takes its place. -/
def Arrival.skip (key : VoiceKey) (duration : WholeNotes) (line : Nat) : Arrival :=
  ⟨key, .rest false true, line, duration, false⟩

/-- Where a note or rest of a voice begins. -/
def Reading.onset (r : Reading) (key : VoiceKey) : WholeNotes :=
  max r.passage.position (r.cursor key)

/-- The imprint of the padding that a voice needs. -/
def Reading.padImprints (r : Reading) (key : VoiceKey) (line : Nat) : List Imprint :=
  if r.cursor key < r.passage.position then [⟨.rest false true, line, r.cursor key⟩] else []

/-- The span of the padding that a voice needs. -/
def Reading.padSpans (r : Reading) (key : VoiceKey) : List Span :=
  if r.cursor key < r.passage.position then
    [⟨r.cursor key, r.passage.position - r.cursor key⟩]
  else []

/-- How the padding that a voice needs is written. -/
def Reading.padWord (r : Reading) (key : VoiceKey) (line : Nat) : List Bracket :=
  if r.cursor key < r.passage.position then
    [.sounds ⟨.rest false true, line, r.passage.position - r.cursor key⟩] else []

/-- The positions that a note or rest brings its voice to, after its padding. -/
def Reading.stops (r : Reading) (a : Arrival) : List WholeNotes :=
  padStops (r.cursor a.key) r.passage.position ++
    if a.isGrace then [] else [r.onset a.key + a.length]

/-- How a note or rest is written. -/
def Arrival.sounding (a : Arrival) : Sounding := ⟨a.content, a.line, a.length⟩

/-- How many tuplets are open. -/
def Reading.depth (r : Reading) : Nat := r.passage.tuplets.length

/-- A note or rest is placed in a voice of a part: after the padding it is the last note, the voice
moves on, and so does the document. Grace notes move nothing. -/
structure Placed (r s : Reading) (id : String) (a : Arrival) (current : VoiceKey) : Prop where
  partId : r.partId? = some id
  samePart : s.partId? = some id
  imprints : imprints (s.music id a.key) =
    imprints (r.music id a.key) ++ r.padImprints a.key a.line ++
      [⟨a.content, a.line, r.onset a.key⟩]
  /-- The note covers a stretch of its own or prolongs the tuplet that stands last. -/
  spans : spans (s.music id a.key) =
      spans (r.music id a.key) ++ r.padSpans a.key ++ [⟨r.onset a.key, a.length⟩] ∨
    r.passage.tupletKey? = some a.key ∧ r.passage.position ≤ r.cursor a.key ∧
      ∃ before last, spans (r.music id a.key) = before ++ [last] ∧
        spans (s.music id a.key) = before ++ [⟨last.position, last.length + a.length⟩]
  others : ∀ id' k, (id', k) ≠ (id, a.key) → s.music id' k = r.music id' k
  cursor : s.cursor a.key = r.onset a.key + if a.isGrace then 0 else a.length
  cursors : ∀ k, k ≠ a.key → s.cursor k = r.cursor k
  position : s.passage.position =
    if a.isGrace then r.passage.position else r.onset a.key + a.length
  current : s.passage.current = current
  sound : s.Sound
  closed : r.Closed → s.Closed
  tuplets : ∀ k, s.passage.tupletKey? = some k → k = a.key

/-- A note or rest is written within a number of tuplets that are kept open, after its padding and
the tuplets that start with it. Then some of them stop. -/
structure Enters (r s : Reading) (kept : Nat) (id : String) (a : Arrival) (starts : List Opening)
    (stops : Nat) : Prop where
  word : ∃ w, wordOf (r.music id a.key) = w ++ closings kept ∧
    wordOf (s.music id a.key) = w ++ r.padWord a.key a.line ++ starts.map .opens ++
      .sounds a.sounding :: closings (kept + starts.length)
  depth : s.depth + stops = kept + starts.length

/-- A note stands as the last leaf of its voice, behind its padding. It is the note that was read,
and has taken some marks. -/
structure Seats (r s : Reading) (id : String) (key : VoiceKey) (line : Nat) (read : Note)
    (marks : Attachments) : Prop where
  leaves : ∃ rests n,
    List.Forall₂ (Note.Dressed ∅) (padRests key line (r.cursor key) r.passage.position) rests ∧
    Note.Dressed marks read n ∧
    leavesOf (s.music id key) = leavesOf (r.music id key) ++ rests.map .note ++ [.note n]

/-- How a note came into a voice behind the padding: alone where no tuplet is open, or into the
innermost tuplet. Some tuplets may just have started for it. -/
inductive CameIn (key : VoiceKey) (n : Note) (before : List VoiceElement) (old : List Tuplet) :
    List Opening → List VoiceElement → List Tuplet → Prop
  | alone (hold : old = []) : CameIn key n before old [] (before ++ [.note n]) []
  | within {news outer : List Tuplet} {tuplet : Tuplet} {starts : List Opening}
      (hold : tuplet :: outer = news ++ old)
      (hnews : ∀ x ∈ news, x.key = key ∧ x.members = [] ∧
        x.positionInMeasure = n.positionInMeasure)
      (hstarts : news.map Tuplet.opening = starts.reverse)
      (hmeasures : ∀ x ∈ news, x.measureNumber = n.measureNumber) :
      CameIn key n before old starts before (tuplet.append (.note n) :: outer)

namespace CameIn

variable {n : Note} {music pads after : List VoiceElement} {old new : List Tuplet}
  {starts : List Opening}

/-- A note goes to the innermost of the open tuplets, or to the voice where none is open. -/
theorem of_run {news : List Tuplet} {next : Unit → Step Unit}
    (h : Giving r s part key v position (news ++ old) reached)
    (hnews : ∀ x ∈ news, x.key = key ∧ x.members = [] ∧
      x.positionInMeasure = n.positionInMeasure)
    (hstarts : news.map Tuplet.opening = starts.reverse)
    (hmeasures : ∀ x ∈ news, x.measureNumber = n.measureNumber)
    (hrun : Ends (match s.passage.tuplets with
      | [] => appendTo line key (.note n) >>= next
      | tuplet :: outer => changePassage (fun p =>
          { p with tuplets := tuplet.append (.note n) :: outer }) >>= next) s u t) :
    ∃ w tuplets s', Giving r s' part key w position tuplets reached ∧
      w.positionInMeasure = v.positionInMeasure ∧ w.singing = v.singing ∧
      CameIn key n v.music old starts w.music tuplets ∧ Ends (next ()) s' u t := by
  have hopened := h.tuplets
  split at hrun
  · next hnone =>
    obtain ⟨_, s', happend, hnext⟩ := hrun.bind
    have happended := h.changeVoice happend fun _ hw => hw
    have hmusic : (v.append (.note n)).music = v.music ++ [.note n] := by
      rw [Voice.music_append]
      rfl
    rw [hnone] at hopened
    rw [← hopened] at happended
    obtain ⟨hnew, hold⟩ := List.append_eq_nil_iff.mp hopened.symm
    have hnone : starts = [] := by simpa [hnew] using hstarts.symm
    refine ⟨_, _, s', happended, rfl, rfl, ?_, hnext⟩
    rw [hmusic, hnone]
    exact .alone hold
  · next tuplet outer hsome =>
    obtain ⟨_, s', hpassage, hnext⟩ := hrun.bind
    have hwithin := h.changePassage hpassage (fun _ => rfl) fun _ => rfl
    rw [hsome] at hopened
    dsimp only at hwithin
    rw [h.position] at hwithin
    exact ⟨v, _, s', hwithin, rfl, rfl, .within hopened hnews hstarts hmeasures,
      hnext⟩

/-- A note that came in is written behind what was open, after the tuplets that started for it. -/
theorem word_eq (h : CameIn key n (music ++ pads) old starts after new)
    (hpads : old ≠ [] → pads = []) :
    wordOf (after ++ openMusic new) = wordOf music ++ openWord old ++ wordOf pads ++
      starts.map .opens ++ .sounds n.sounding :: closings (old.length + starts.length) ∧
      new.length = old.length + starts.length := by
  cases h with
  | alone hold =>
    subst hold
    simp [openMusic, openWord, wordOf, VoiceElement.word, closings]
  | @within news outer tuplet _ hold hnews hstarts =>
    have hlength : news.length = starts.length := by
      simpa using congrArg List.length hstarts
    have hempty : ∀ x ∈ news, x.members = [] := fun x hx => (hnews x hx).2.1
    have hpadded : wordOf pads ++ openWord old = openWord old ++ wordOf pads := by
      by_cases hnone : old = []
      · simp [hnone, openWord]
      · simp [hpads hnone, wordOf]
    have hcount : outer.length + 1 = old.length + starts.length := by
      have hboth := congrArg List.length hold
      simp only [List.length_cons, List.length_append] at hboth
      omega
    refine ⟨?_, hcount⟩
    have hsome : ∀ t, (tuplet.append (.note n) :: outer).head? = some t → t.members ≠ [] := by
      rintro _ ⟨⟩
      simp [Tuplet.append]
    rw [wordOf_append, wordOf_append, wordOf_openMusic hsome, openWord_append_note, hold,
      openWord_news hempty, hstarts, List.reverse_reverse, ← hcount]
    simp only [List.append_assoc, List.singleton_append]
    rw [← List.append_assoc (wordOf pads), hpadded]
    simp

/-- A note that came in is received by the music. -/
theorem receives (h : CameIn key n (music ++ pads) old starts after new)
    (hpads : old ≠ [] → pads = []) : Receives n (music ++ openMusic old ++ pads) (after ++ openMusic new) := by
  cases h with
  | alone hold =>
    subst hold
    simpa [openMusic] using (Receives.new_alone rfl rfl).prepend (music ++ pads)
  | within hold hnews _ =>
    have hreceives := receives_openMusic hold fun x hx => (hnews x hx).2
    by_cases hnone : old = []
    · subst hnone
      simpa [openMusic] using hreceives.prepend (music ++ pads)
    · rw [hpads hnone, List.append_nil, List.append_nil]
      exact hreceives.prepend music

/-- Where no tuplet was open, it covers a stretch of its own. -/
theorem spans_of_nil (h : CameIn key n (music ++ pads) [] starts after new) :
    spans (after ++ openMusic new) =
      spans music ++ spans pads ++ [⟨n.positionInMeasure, n.soundingWholeNotes⟩] := by
  generalize hnil : ([] : List Tuplet) = old at h
  cases h with
  | alone hold => simp [openMusic, spans, VoiceElement.span]
  | within hold hnews _ =>
    subst hnil
    have hreceives := receives_openMusic hold fun x hx => (hnews x hx).2
    rw [spans_append, spans_append, hreceives.spans_of_nil]

/-- A note that came in is the last leaf, behind the padding. -/
theorem leaves_eq (h : CameIn key n (music ++ pads) old starts after new)
    (hpads : old ≠ [] → pads = []) :
    leavesOf (after ++ openMusic new) =
      leavesOf (music ++ openMusic old) ++ leavesOf pads ++ [.note n] := by
  cases h with
  | alone hold =>
    subst hold
    simp [openMusic, leavesOf, VoiceElement.leaves]
  | @within news outer tuplet _ hold hnews _ =>
    rw [leavesOf_append, leavesOf_openMusic_append hold fun x hx => (hnews x hx).2.1]
    by_cases hnone : old = []
    · simp [hnone, openMusic, leavesOf]
    · simp [hpads hnone, leavesOf]

/-- The tuplets that are open afterwards belong to the voice, if those before did. -/
theorem key_of_mem (h : CameIn key n (music ++ pads) old starts after new)
    (hold : ∀ x ∈ old, x.key = key) : ∀ x ∈ new, x.key = key := by
  cases h with
  | alone => simp
  | @within news outer tuplet _ heq hnews _ =>
    have hall : ∀ x ∈ tuplet :: outer, x.key = key := by
      intro x hx
      rw [heq] at hx
      rcases List.mem_append.mp hx with hx | hx
      · exact (hnews x hx).1
      · exact hold x hx
    intro x hx
    rcases List.mem_cons.mp hx with rfl | hx
    · exact hall tuplet List.mem_cons_self
    · exact hall x (List.mem_cons_of_mem _ hx)

/-- The innermost tuplet holds the note. -/
theorem members (h : CameIn key n (music ++ pads) old starts after new) :
    ∀ x, new.head? = some x → x.members ≠ [] := by
  cases h with
  | alone => simp
  | within =>
    intro x hx
    cases hx
    simp [Tuplet.append]

end CameIn

/-- The music of a voice before and after a note came in behind some rests, with the tuplets that
were open for it and those that are. -/
structure Admits (r s : Reading) (id : String) (key : VoiceKey) (n : Note) (rests : List Note)
    (before after : List VoiceElement) (old new : List Tuplet) (starts : List Opening) : Prop where
  music : r.music id key = before ++ openMusic old
  music_after : s.music id key = after ++ openMusic new
  came : CameIn key n (before ++ rests.map .note) old starts after new
  padded : spans (rests.map VoiceElement.note) = r.padSpans key
  opened : old ≠ [] → r.passage.tupletKey? = some key ∧ r.passage.position ≤ r.cursor key
  members : ∀ t, old.head? = some t → t.members ≠ []
  kept : s.passage.tuplets = [] ∨ new ≠ []

/-- A note or rest comes into its voice where the voice stands after its padding, as one of the
measure that is read, and brings the voice to where it ends. -/
structure Alights (r s : Reading) (id : String) (a : Arrival) (n : Note) : Prop where
  key : (⟨n.staffNumber, n.voiceNumber⟩ : VoiceKey) = a.key
  length : n.soundingWholeNotes = a.length
  onset : n.positionInMeasure = r.onset a.key
  measure : n.measureNumber = r.passage.measureNumber
  stop : a.isGrace = false → (r.onset a.key).plus? a.length = some (r.onset a.key + a.length)
  headway : s.passage.headway = (r.passage.reachAll a.key (r.stops a)).headway
  admits : ∃ rests before after old new starts,
    Admits r s id a.key n rests before after old new starts

/-- The voice of open tuplets has come as far as the document. -/
theorem Reading.Sound.reached_of_open (hr : r.Sound) (hsome : r.passage.tuplets ≠ [])
    (hold : ∀ x ∈ r.passage.tuplets, x.key = key) :
    r.passage.tupletKey? = some key ∧ r.passage.position ≤ r.cursor key := by
  obtain ⟨x, outer, htuplets⟩ := List.exists_cons_of_ne_nil hsome
  have htuplet := Passage.tupletKey?_cons htuplets
  rw [hold x (by simp [htuplets])] at htuplet
  exact ⟨htuplet, (hr.tuplets key htuplet).reached⟩

/-- A voice that is not behind needs no padding. -/
theorem Pads.eq_nil {start stop : WholeNotes} {pads : List VoiceElement}
    (h : Pads line start stop pads) (hreached : stop ≤ start) : pads = [] := by
  have hspans := h.spans_eq
  rw [if_neg (not_lt.mpr hreached)] at hspans
  exact List.map_eq_nil_iff.mp hspans

/-- What was given to one voice was written there. -/
theorem Enters.of_giving (hr : r.Sound) (hpart : r.part? = some part)
    (hold : ∀ x ∈ r.passage.tuplets, x.key = key)
    (h : Giving r s part key v position tuplets reached) {n : Note} {pads : List VoiceElement}
    {isGrace : Bool} {starts : List Opening}
    (hpads : Pads n.line (part.cursor key) r.passage.position pads)
    (hcame : CameIn key n (part.music key ++ pads) r.passage.tuplets starts v.music tuplets) :
    Enters r s r.depth part.id ⟨key, n.content, n.line, n.soundingWholeNotes, isGrace⟩ starts 0 := by
  have hrefl := Becomes.refl hpart
  rw [← hrefl.cursor] at hpads
  have hnopads := fun hsome => hpads.eq_nil (hr.reached_of_open hsome hold).2
  have hdepth : s.depth = tuplets.length := congrArg List.length h.tuplets
  have hsome : ∀ t, r.passage.tuplets.head? = some t → t.members ≠ [] := by
    intro t ht
    exact (hr.tuplets t.key (by simp [Passage.tupletKey?, ht, Tuplet.key])).members t ht
  obtain ⟨hword, hlength⟩ := hcame.word_eq hnopads
  constructor
  · refine ⟨wordOf (part.music key) ++ openWord r.passage.tuplets, ?_, ?_⟩
    · change wordOf (r.music part.id key) = _
      rw [hrefl.music_here, Passage.held_of_key hold, wordOf_append, wordOf_openMusic hsome,
        List.append_assoc]
      rfl
    · change wordOf (s.music part.id key) = _
      rw [h.music_here (hcame.key_of_mem hold), hword, hpads.word_eq]
      rfl
  · rw [hdepth, hlength]
    rfl

/-- What was given to one voice stands there. -/
theorem Seats.of_giving (hr : r.Sound) (hpart : r.part? = some part)
    (hold : ∀ x ∈ r.passage.tuplets, x.key = key)
    (h : Giving r s part key v position tuplets reached) {n read : Note} {pads : List VoiceElement}
    {starts : List Opening} {marks : Attachments}
    (hpads : Pads n.line (part.cursor key) r.passage.position pads)
    (hrests : Rests (padRests key line (part.cursor key) r.passage.position) pads)
    (hdressed : Note.Dressed marks read n)
    (hcame : CameIn key n (part.music key ++ pads) r.passage.tuplets starts v.music tuplets) :
    Seats r s part.id key line read marks := by
  have hrefl := Becomes.refl hpart
  rw [← hrefl.cursor] at hpads hrests
  have hnopads := fun hsome => hpads.eq_nil (hr.reached_of_open hsome hold).2
  obtain ⟨rests, hall, hrests⟩ := hrests
  refine ⟨rests, n, hrests, hdressed, ?_⟩
  rw [h.music_here (hcame.key_of_mem hold), hcame.leaves_eq hnopads, hrefl.music_here,
    Passage.held_of_key hold, hall, leavesOf_notes]

/-- What was given to one voice has come in there. -/
theorem Alights.of_giving (hr : r.Sound) (hpart : r.part? = some part)
    (hold : ∀ x ∈ r.passage.tuplets, x.key = key)
    (h : Giving r s part key v position tuplets reached) {n read : Note}
    {pads : List VoiceElement} {isGrace : Bool} {starts : List Opening} {marks : Attachments}
    (hpads : Pads n.line (part.cursor key) r.passage.position pads)
    (hrests : Rests (padRests key line (part.cursor key) r.passage.position) pads)
    (hdressed : Note.Dressed marks read n)
    (hkey : (⟨read.staffNumber, read.voiceNumber⟩ : VoiceKey) = key)
    (honset : n.positionInMeasure = r.onset key)
    (hmeasure : n.measureNumber = r.passage.measureNumber)
    (hcame : CameIn key n (part.music key ++ pads) r.passage.tuplets starts v.music tuplets)
    (hstop : isGrace = false →
      (r.onset key).plus? n.soundingWholeNotes = some (r.onset key + n.soundingWholeNotes))
    (hreached : reached = padStops (part.cursor key) r.passage.position ++
      if isGrace then [] else [r.onset key + n.soundingWholeNotes]) :
    Alights r s part.id ⟨key, n.content, n.line, n.soundingWholeNotes, isGrace⟩ n := by
  have hrefl := Becomes.refl hpart
  rw [← hrefl.cursor] at hpads hreached
  obtain ⟨rests, rfl, -⟩ := hrests
  refine ⟨?_, rfl, honset, hmeasure, hstop, ?_, rests, part.music key, v.music,
    r.passage.tuplets, tuplets, starts, ?_, h.music_here (hcame.key_of_mem hold), hcame,
    hpads.spans_eq, fun hsome => hr.reached_of_open hsome hold, ?_, ?_⟩
  · rw [← hkey]
    exact congrArg₂ VoiceKey.mk (congrArg Note.staffNumber hdressed.asRead :)
      (congrArg Note.voiceNumber hdressed.asRead :)
  · rw [h.headway, hreached]
    rfl
  · rw [hrefl.music_here, Passage.held_of_key hold]
  · intro t ht
    exact (hr.tuplets t.key (by simp [Passage.tupletKey?, ht, Tuplet.key])).members t ht
  · rw [h.tuplets]
    exact eq_or_ne tuplets []

/-- What was given to one voice is sung there. -/
theorem Intones.of_giving (hr : r.Sound) (hpart : r.part? = some part)
    (hold : ∀ x ∈ r.passage.tuplets, x.key = key)
    (h : Giving r s part key v position tuplets reached) {n : Note} {pads : List VoiceElement}
    {starts : List Opening} (hvisible : n.isInvisibleRest = false)
    (hpads : Pads n.line (part.cursor key) r.passage.position pads)
    (hrests : Rests (padRests key line (part.cursor key) r.passage.position) pads)
    (hcame : CameIn key n (part.music key ++ pads) r.passage.tuplets starts v.music tuplets) :
    Intones r s part.id key n.verse v.singing := by
  have hrefl := Becomes.refl hpart
  rw [← hrefl.cursor] at hpads hrests
  have hnopads := fun hsome => hpads.eq_nil (hr.reached_of_open hsome hold).2
  obtain ⟨rests, hall, hrests⟩ := hrests
  refine ⟨?_, h.singing_here, fun id' k hne => h.singing_other hpart hne⟩
  rw [h.music_here (hcame.key_of_mem hold), hcame.leaves_eq hnopads, hrefl.music_here,
    Passage.held_of_key hold, hall, leavesOf_notes, versesOf_append, versesOf_append,
    versesOf_note hvisible, versesOf_rests (invisible_of_padRests hrests), List.append_nil]

/-- What is not heard afterwards changes nothing about it. -/
theorem Seats.before_quiet {id : String} {read : Note} {marks : Attachments} (hquiet : Quiet s t)
    (h : Seats r s id key line read marks) : Seats r t id key line read marks := by
  obtain ⟨rests, n, hrests, hdressed, hleaves⟩ := h
  exact ⟨rests, n, hrests, hdressed, by rw [hquiet.music, hleaves]⟩

/-- What is not heard afterwards and keeps the headway changes nothing about it. -/
theorem Alights.before_quiet {id : String} {a : Arrival} {n : Note} (hquiet : Quiet s t)
    (hheadway : t.passage.headway = s.passage.headway) (h : Alights r s id a n) :
    Alights r t id a n := by
  obtain ⟨rests, before, after, old, new, starts, hadmits⟩ := h.admits
  refine ⟨h.key, h.length, h.onset, h.measure, h.stop, hheadway.trans h.headway, rests, before, after,
    old, new, starts, hadmits.music, (hquiet.music id a.key).trans hadmits.music_after,
    hadmits.came, hadmits.padded, hadmits.opened, hadmits.members, ?_⟩
  exact hadmits.kept.imp_left hquiet.tuplets.none

/-- What is not heard before and keeps the headway changes nothing about it. -/
theorem Alights.after {id : String} {a : Arrival} {n : Note} {current : VoiceKey}
    (hview : s.view = { r.view with current }) (htuplets : TupletsGoOn r s)
    (hheadway : s.passage.headway = r.passage.headway) (h : Alights s t id a n) :
    Alights r t id a n := by
  have hmusic : s.music = r.music := congrArg View.music hview
  have hcursor : s.cursor = r.cursor := congrArg View.cursor hview
  have hposition : s.passage.position = r.passage.position := congrArg View.position hview
  have honset : s.onset a.key = r.onset a.key := by
    rw [Reading.onset, Reading.onset, hcursor, hposition]
  have hstops : s.stops a = r.stops a := by
    rw [Reading.stops, Reading.stops, honset, hcursor, hposition]
  obtain ⟨rests, before, after, old, new, starts, hadmits⟩ := h.admits
  refine ⟨h.key, h.length, h.onset.trans honset, h.measure.trans (congrArg Prod.fst hheadway),
    honset ▸ h.stop, ?_, rests, before, after, old, new, starts, hmusic ▸ hadmits.music,
    hadmits.music_after, hadmits.came, ?_, fun hsome => ?_, hadmits.members, hadmits.kept⟩
  · rw [h.headway, hstops]
    exact Passage.headway_reachAll hheadway a.key _
  · rw [hadmits.padded, Reading.padSpans, Reading.padSpans, hcursor, hposition]
  · obtain ⟨hkey, hreached⟩ := hadmits.opened hsome
    rw [hcursor, hposition] at hreached
    refine ⟨?_, hreached⟩
    rcases htuplets with hnone | hsame
    · simp [Passage.tupletKey?, hnone] at hkey
    · exact hsame ▸ hkey

/-- What is not heard before changes nothing about it. -/
theorem Seats.after {id : String} {read : Note} {marks : Attachments} {current : VoiceKey}
    (hview : s.view = { r.view with current }) (h : Seats s t id key line read marks) :
    Seats r t id key line read marks := by
  have hmusic : s.music = r.music := congrArg View.music hview
  have hcursor : s.cursor = r.cursor := congrArg View.cursor hview
  have hposition : s.passage.position = r.passage.position := congrArg View.position hview
  have hleaves := h.leaves
  rw [hmusic, hcursor, hposition] at hleaves
  exact ⟨hleaves⟩

/-- Tuplets that stop afterwards do not change what was written. -/
theorem Enters.before_stops {kept stops : Nat} {id : String} {a : Arrival} {starts : List Opening}
    (h : Enters r s kept id a starts 0) (hquiet : Quiet s t)
    (hdepth : t.depth + stops = s.depth) : Enters r t kept id a starts stops := by
  refine ⟨?_, hdepth.trans h.depth⟩
  rw [hquiet.music]
  exact h.word

/-- Tuplets that closed before count as not kept open. -/
theorem Enters.after {kept stops : Nat} {id : String} {a : Arrival} {starts : List Opening}
    {current : VoiceKey} (hview : s.view = { r.view with current })
    (h : Enters s t kept id a starts stops) : Enters r t kept id a starts stops := by
  have hmusic : s.music = r.music := congrArg View.music hview
  have hcursor : s.cursor = r.cursor := congrArg View.cursor hview
  have hposition : s.passage.position = r.passage.position := congrArg View.position hview
  have hword := h.word
  rw [hmusic, Reading.padWord, hcursor, hposition] at hword
  exact ⟨hword, h.depth⟩

namespace Placed

/-- What was given to one voice has taken its place. -/
theorem of_giving (hr : r.Sound) (hpart : r.part? = some part)
    (hold : ∀ x ∈ r.passage.tuplets, x.key = key)
    (h : Giving r s part key v position tuplets reached) {n : Note} {pads : List VoiceElement}
    {isGrace : Bool} {starts : List Opening}
    (hpads : Pads n.line (part.cursor key) r.passage.position pads)
    (honset : n.positionInMeasure = r.onset key)
    (hcame : CameIn key n (part.music key ++ pads) r.passage.tuplets starts v.music tuplets)
    (hcursor : v.positionInMeasure = r.onset key + if isGrace then 0 else n.soundingWholeNotes)
    (hposition : position =
      if isGrace then r.passage.position else r.onset key + n.soundingWholeNotes) :
    Placed r s part.id ⟨key, n.content, n.line, n.soundingWholeNotes, isGrace⟩
      r.passage.current := by
  have hrefl := Becomes.refl hpart
  have hmusic : r.music part.id key = part.music key ++ openMusic r.passage.tuplets := by
    rw [hrefl.music_here, Passage.held_of_key hold]
  have hkey := hcame.key_of_mem hold
  rw [← hrefl.cursor] at hpads
  have hreached := fun hsome => hr.reached_of_open hsome hold
  have hnopads := fun hsome => hpads.eq_nil (hreached hsome).2
  have hreceives := hcame.receives hnopads
  refine ⟨h.partId.1, h.partId.2, ?_, ?_, ?_, ?_, ?_, ?_, h.current, ?_, h.closed, ?_⟩
  · rw [h.music_here hkey, hreceives.imprints_eq, imprints_append, hpads.imprints_eq, hmusic,
      Note.imprint, honset]
    rfl
  · rw [h.music_here hkey, hmusic, ← honset]
    by_cases hnone : r.passage.tuplets = []
    · left
      rw [hnone] at hcame ⊢
      rw [hcame.spans_of_nil, hpads.spans_eq]
      simp [openMusic, Reading.padSpans]
    · obtain ⟨htuplet, hbehind⟩ := hreached hnone
      rw [hnopads hnone, List.append_nil] at hreceives
      rcases hreceives.spans_eq with hnew | hmore
      · left
        rw [hnew, Reading.padSpans, if_neg (not_lt.mpr hbehind), List.append_nil]
      · exact .inr ⟨htuplet, hbehind, hmore⟩
  · intro id' k hne
    by_cases hid : id' = part.id
    · have hk : k ≠ key := fun heq => hne (by rw [hid, heq])
      rw [hid, h.music_other hkey hk, hrefl.music_here, Passage.held_of_ne hold hk,
        List.append_nil]
    · exact h.music_elsewhere hid k
  · rw [h.cursor_here, hcursor]
  · intro k hk
    exact h.cursor_other hpart hk
  · rw [h.position, hposition]
  · apply h.sound hr hpart hkey hcame.members
    intro _
    rw [hposition, hcursor]
    cases isGrace with
    | true => simp [Reading.onset]
    | false => simp
  · intro k hk
    rw [Passage.tupletKey?, h.tuplets, Option.map_eq_some_iff] at hk
    obtain ⟨x, hx, rfl⟩ := hk
    exact hkey x (List.mem_of_mem_head? hx)

/-- What is not heard afterwards changes nothing about it. -/
theorem before_quiet {id : String} {a : Arrival} {current : VoiceKey}
    (h : Placed r s id a current) (hquiet : Quiet s t) : Placed r t id a current := by
  refine ⟨h.partId, hquiet.partId.trans h.samePart, ?_, ?_, ?_, ?_, ?_,
    hquiet.position.trans h.position, hquiet.current.trans h.current, hquiet.sound,
    fun hr => hquiet.closed (h.closed hr), ?_⟩
  · rw [hquiet.music, h.imprints]
  · rw [hquiet.music]
    exact h.spans
  · intro id' k hne
    rw [hquiet.music, h.others id' k hne]
  · rw [hquiet.cursor, h.cursor]
  · intro k hk
    rw [hquiet.cursor, h.cursors k hk]
  · intro k hk
    rcases hquiet.tuplets with hnone | hsame
    · simp [Passage.tupletKey?, hnone] at hk
    · exact h.tuplets k (hsame ▸ hk)

/-- What is not heard before changes nothing about it, and neither does which voice is current. -/
theorem after {id : String} {a : Arrival} {before current : VoiceKey}
    (hview : s.view = { r.view with current := before }) (hclosed : r.Closed → s.Closed)
    (htuplets : TupletsGoOn r s) (h : Placed s t id a current) : Placed r t id a current := by
  have hpartId : s.partId? = r.partId? := congrArg View.partId? hview
  have hmusic : s.music = r.music := congrArg View.music hview
  have hcursor : s.cursor = r.cursor := congrArg View.cursor hview
  have hposition : s.passage.position = r.passage.position := congrArg View.position hview
  obtain ⟨partId, samePart, himprints, hspans, hothers, hhere, hcursors, hstands, hcurrent, hsound,
    hclosed', hkeys⟩ := h
  rw [hmusic, Reading.padImprints, Reading.onset, hcursor, hposition] at himprints
  rw [hmusic, Reading.padSpans, Reading.onset, hcursor, hposition] at hspans
  rw [Reading.onset, hcursor, hposition] at hhere hstands
  refine ⟨hpartId ▸ partId, samePart, himprints, ?_, ?_, hhere, ?_, hstands, hcurrent,
    hsound, fun hr => hclosed' (hclosed hr), hkeys⟩
  · refine hspans.imp_right fun ⟨htuplet, hmore⟩ => ⟨?_, hmore⟩
    rcases htuplets with hnone | hsame
    · simp [Passage.tupletKey?, hnone] at htuplet
    · exact hsame ▸ htuplet
  · rwa [hmusic] at hothers
  · rwa [hcursor] at hcursors

/-- A note that came in takes its place: after a grace note the voice is only touched, after any
other it moves on with the document. -/
theorem moveOn (hr : r.Sound) (hpart : r.part? = some part)
    (hold : ∀ x ∈ r.passage.tuplets, x.key = key)
    (h : Giving r s part key v r.passage.position tuplets
      (padStops (part.cursor key) r.passage.position)) {n read : Note} {pads : List VoiceElement}
    {isGrace : Bool} {starts : List Opening} {marks : Attachments} {next : Unit → Step Unit}
    (hpads : Pads n.line (part.cursor key) r.passage.position pads)
    (hrests : Rests (padRests key line (part.cursor key) r.passage.position) pads)
    (hdressed : Note.Dressed marks read n)
    (hkey : (⟨read.staffNumber, read.voiceNumber⟩ : VoiceKey) = key)
    (honset : n.positionInMeasure = r.onset key)
    (hmeasure : n.measureNumber = r.passage.measureNumber) (hvisible : n.isInvisibleRest = false)
    (hcame : CameIn key n (part.music key ++ pads) r.passage.tuplets starts v.music tuplets)
    (hstart : v.positionInMeasure = r.onset key)
    (hrun : Ends (if isGrace = true then changePassage (fun p => p.touch key) >>= next
      else advance line key n.soundingWholeNotes >>= next) s u t) :
    ∃ s', Placed r s' part.id ⟨key, n.content, n.line, n.soundingWholeNotes, isGrace⟩
        r.passage.current ∧
      Enters r s' r.depth part.id ⟨key, n.content, n.line, n.soundingWholeNotes, isGrace⟩ starts 0 ∧
      Seats r s' part.id key line read marks ∧ Intones r s' part.id key n.verse v.singing ∧
      Alights r s' part.id ⟨key, n.content, n.line, n.soundingWholeNotes, isGrace⟩ n ∧
      Ends (next ()) s' u t := by
  split at hrun
  · next hgrace =>
    obtain ⟨_, s', htouch, hnext⟩ := hrun.bind
    have htouched : Giving r s' part key v r.passage.position tuplets
        (padStops (part.cursor key) r.passage.position) := by
      have hchanged := h.changePassage htouch (fun _ => rfl) fun _ => rfl
      dsimp only [Passage.touch] at hchanged
      rwa [h.position, h.tuplets] at hchanged
    refine ⟨s', of_giving hr hpart hold htouched hpads honset hcame ?_ ?_,
      .of_giving hr hpart hold htouched hpads hcame,
      .of_giving hr hpart hold htouched hpads hrests hdressed hcame,
      .of_giving hr hpart hold htouched hvisible hpads hrests hcame,
      .of_giving hr hpart hold htouched hpads hrests hdressed hkey honset hmeasure hcame ?_ ?_,
      hnext⟩
    · rw [hgrace, if_pos rfl, add_zero, hstart]
    · rw [hgrace, if_pos rfl]
    · exact fun hother => nomatch hgrace.symm.trans hother
    · rw [if_pos hgrace, List.append_nil]
  · next hgrace =>
    obtain ⟨_, s', hadvance, hnext⟩ := hrun.bind
    have hmoved := h.advance hadvance
    have hchecked := h.checked_advance hadvance
    rw [hstart] at hchecked
    refine ⟨s', of_giving hr hpart hold hmoved hpads honset hcame ?_ ?_,
      .of_giving hr hpart hold hmoved hpads hcame,
      .of_giving hr hpart hold hmoved hpads hrests hdressed hcame,
      .of_giving hr hpart hold hmoved hvisible hpads hrests hcame,
      .of_giving hr hpart hold hmoved hpads hrests hdressed hkey honset hmeasure hcame
        (fun _ => hchecked) ?_, hnext⟩
    · rw [if_neg hgrace]
      exact congrArg (· + n.soundingWholeNotes) hstart
    · rw [if_neg hgrace]
      exact congrArg (· + n.soundingWholeNotes) hstart
    · rw [if_neg hgrace, hstart]

/-- A note that is no chord member is placed and written, and then the tuplets close that stop on
it. It takes the marks that it is meant to take. -/
theorem placeNote (hr : r.Sound) {input : NoteInput} (hproper : input.Proper)
    (halone : input.inChord = false) (hold : ∀ x ∈ r.passage.tuplets, x.key = input.key)
    (h : Ends (Partwise.placeNote settings input) r u s) :
    ∃ id, Placed r s id input.arrival r.passage.current ∧
      Enters r s r.depth id input.arrival input.openings input.tupletStops ∧
      Seats r s id input.key input.note.line input.note (input.marks settings r) ∧
      (∃ chunks after, Intones r s id input.key (input.note.asRead, chunks) after ∧
        Sung settings (r.singing id input.key) input after chunks) ∧
      (∃ n, Alights r s id input.arrival n) ∧
      s.passage.pending = if input.takes settings then ∅ else r.passage.pending := by
  unfold Partwise.placeNote at h
  extract_lets key line written finish takeIn at h
  have hdiscreet := (Discreet.habit id).habit
  obtain ⟨_, r₁, hcatch, hrest₁⟩ := h.bind
  obtain ⟨part, v, pads, hpart, hgiving₁, hpads, hmusic, hcursor, hrests, hsinging⟩ :=
    Giving.catchUp hcatch
  obtain ⟨w, r₂, hvoice, hrest₂⟩ := hrest₁.bind
  obtain ⟨rfl, hgiving₂⟩ := hgiving₁.voiceAt hvoice
  obtain ⟨_, _, hget, hrest₃⟩ := hrest₂.bind
  obtain ⟨rfl, rfl⟩ := hget.get
  obtain ⟨_, r₃, hopen, hrest₄⟩ := hrest₃.bind
  obtain ⟨news, hgiving₃, hnews, hstarts, hmeasures⟩ := hgiving₂.openTuplets hopen
  obtain ⟨_, _, hget', hrest₅⟩ := hrest₄.bind
  obtain ⟨rfl, rfl⟩ := hget'.get
  obtain ⟨n, v', r₄, hsame, hgiving₄, hstill, hdressed, ⟨chunks, hchunks, hsung⟩, htook, htakeIn⟩ :=
    hgiving₃.dress hrest₅ (hproper.takes_placed halone rfl rfl)
  have hwaited : r₃.passage.pending = r.passage.pending :=
    ((hdiscreet.forM (fun _ => hdiscreet.openTuplet) _).ends hopen).trans
      ((hdiscreet.voiceAt.ends hvoice).trans (hdiscreet.catchUp.ends hcatch))
  have hseated : s.passage.pending = r₄.passage.pending := (hdiscreet.seat hdiscreet.closeTuplets).ends htakeIn
  rw [hwaited] at hdressed htook
  have hdressed : Note.Dressed (input.marks settings r) input.note n :=
    ⟨hdressed.asRead, hdressed.articulations, hdressed.attachments⟩
  obtain ⟨_, _, hget'', hrest₆⟩ := htakeIn.bind
  obtain ⟨rfl, rfl⟩ := hget''.get
  have honset : w.positionInMeasure = r.onset key := by
    rw [hcursor, Reading.onset, (Becomes.refl hpart).cursor]
  have hcontent : n.content = input.note.content := congrArg Imprint.content hsame.imprint
  have hline : n.line = input.note.line := congrArg Imprint.line hsame.imprint
  have hlength : n.soundingWholeNotes = input.note.soundingWholeNotes := hsame.length
  have hposition : n.positionInMeasure = w.positionInMeasure :=
    congrArg Imprint.position hsame.imprint
  have hmeasure : n.measureNumber = r.passage.measureNumber :=
    hsame.measure.trans hgiving₂.measureNumber
  rw [← hposition] at hnews
  rw [← hmeasure] at hmeasures
  obtain ⟨v'', tuplets, r₅, hgiving₅, hstands, hsings, hcame, hmoveOn⟩ :=
    CameIn.of_run hgiving₄ hnews hstarts hmeasures hrest₆
  rw [hstill.music, hmusic] at hcame
  have hpads' : Pads n.line (part.cursor key) r.passage.position pads := by rwa [hline]
  have hvisible : n.isInvisibleRest = false := hdressed.isInvisibleRest.trans hproper.visible
  obtain ⟨r₆, hplaced, henters, hseats, hintones, halights, hfinish⟩ := moveOn hr hpart hold
    hgiving₅ hpads' hrests hdressed rfl (hposition.trans honset) hmeasure hvisible hcame
    (by rw [hstands, hstill.position, honset]) hmoveOn
  rw [hcontent, hline, hlength] at hplaced henters halights
  obtain ⟨⟨hquiet, _⟩, hstops⟩ := Closes.closeEach hplaced.sound hfinish
  rw [List.length_range] at hstops
  have hverse : n.verse = (input.note.asRead, chunks) := by
    rw [Note.verse, hdressed.asRead, hchunks]
    exact congrArg (fun sung => (input.note.asRead, sung ++ chunks)) hproper.unsung
  have hbefore : w.singing = r.singing part.id key := by
    rw [hsinging, (Becomes.refl hpart).singing_here]
  rw [hverse, hsings] at hintones
  refine ⟨part.id, hplaced.before_quiet hquiet, henters.before_stops hquiet hstops,
    hseats.before_quiet hquiet, ⟨chunks, _, hintones.before_quiet hquiet, ?_⟩,
    ⟨n, halights.before_quiet hquiet (Keeps.headway_closeTuplets _ _ _ hfinish)⟩,
    hseated.trans htook⟩
  rw [hbefore] at hsung
  split at hsung
  · next hgrace =>
    rw [hsung.1, hsung.2]
    exact .grace halone hgrace
  · next hgrace => exact .sings halone (by simpa using hgrace) (hsung.congr rfl)

/-- A movement forward in time is placed and written as an invisible rest, which takes no marks. -/
theorem goForward (hr : r.Sound) {duration : WholeNotes} (hnone : r.passage.tuplets = [])
    (h : Ends (Partwise.goForward line key duration) r u s) :
    ∃ id, Placed r s id (.skip key duration line) r.passage.current ∧
      Enters r s 0 id (.skip key duration line) [] 0 ∧
      Seats r s id key line (Note.skip duration key.staff key.voice "" line) ∅ ∧
      (∃ n, Alights r s id (.skip key duration line) n) ∧ s.singing = r.singing := by
  obtain ⟨_, r₁, hcatch, hrest₁⟩ := h.bind
  obtain ⟨part, v, pads, hpart, hgiving₁, hpads, hmusic, hcursor, hrests, hsinging⟩ :=
    Giving.catchUp hcatch
  obtain ⟨_, r₂, hrest, hadvance⟩ := hrest₁.bind
  have hgiving₂ := hgiving₁.rest hrest
  have hmoved := hgiving₂.advance hadvance
  have hchecked := hgiving₂.checked_advance hadvance
  rw [hnone] at hmoved
  have honset : v.positionInMeasure = r.onset key := by
    rw [hcursor, Reading.onset, (Becomes.refl hpart).cursor]
  have hcame : CameIn key (skipRest v duration r.passage.measureNumber line)
      (part.music key ++ pads) r.passage.tuplets []
      (v.append (.note (skipRest v duration r.passage.measureNumber line))).music [] := by
    rw [Voice.music_append, hmusic]
    exact .alone hnone
  have hold : ∀ x ∈ r.passage.tuplets, x.key = key := by simp [hnone]
  have henters : Enters r s r.depth part.id (.skip key duration line) [] 0 :=
    .of_giving hr hpart hold hmoved hpads hcame
  rw [Reading.depth, hnone] at henters
  have hdressed := Note.dressed_skipRest hgiving₁.key_eq duration r.passage.measureNumber line
  refine ⟨part.id, of_giving hr hpart hold hmoved hpads honset hcame ?_ ?_, henters,
    .of_giving hr hpart hold hmoved hpads hrests hdressed hcame,
    ⟨_, .of_giving hr hpart hold hmoved hpads hrests hdressed rfl honset rfl hcame
      (fun _ => honset ▸ hchecked) ?_⟩, ?_⟩
  · simp [Voice.append, skipRest, Note.skip, honset]
  · simp [Voice.append, skipRest, Note.skip, honset]
  · simp [Voice.append, skipRest, Note.skip, honset]
  · funext id k
    by_cases hhere : (id, k) = (part.id, key)
    · cases hhere
      rw [hmoved.singing_here, (Becomes.refl hpart).singing_here, ← hsinging]
      rfl
    · exact hmoved.singing_other hpart hhere

end Placed

end Partwise
