import Partwise.Proofs.Music.Elsewhere
import Partwise.Proofs.Music.Overlap
import Partwise.Proofs.Music.Tuplets

/-!
# Music · Reckoning: where a voice stands is what it was given

A voice is moved by notes, by padding, by movements forward and back, and by measures that begin.
Meanwhile its notes are folded into chords or held in open tuplets. Still the account is exact:
wherever a document has come after a measure of a part has begun, every voice of the part stands at
the sum of what it was given to sound since then, less the movements back that took it along
(`Document.positions_reckoned`). What it was given to sound is what its music gained, with all that
is still held in open tuplets. Members of chords and grace notes count for nothing.

* `Deed.gives`, `Deed.takesBack`: what one deed does to the account of a voice.
* `Does.positionOf`, `Does.soundings`: one deed moves the voice and adds to its music by just that.
* `Follows.positionOf`, `Follows.soundings`: so do many, as long as no measure of the part begins.
-/

namespace Partwise

open Markup

variable {settings : Settings} {r s t : Reading} {m : Moment} {ms : List Moment} {d : Deed}
  {id : String} {key : VoiceKey}

/-! ## What sounds -/

/-- What a letter lets sound. -/
def Bracket.sounding? : Bracket → Option Sounding
  | sounds n => some n
  | opens _ | closes | hollow => none

/-- The notes and rests of music that are no members of chords, in tuplets or outside of them. -/
def soundings (es : List VoiceElement) : List Sounding := (wordOf es).filterMap Bracket.sounding?

/-- How long some notes and rests sound, one after the other. -/
def totalLength (ns : List Sounding) : WholeNotes := (ns.map Sounding.length).sum

@[simp] theorem totalLength_append (ns ns' : List Sounding) :
    totalLength (ns ++ ns') = totalLength ns + totalLength ns' := by
  simp [totalLength]

/-! ## The account of a voice -/

/-- The padding of a voice that is behind the document. -/
def Reading.padSoundings (r : Reading) (key : VoiceKey) (line : Nat) : List Sounding :=
  if r.cursor key < r.passage.position then
    [⟨.rest false true, line, r.passage.position - r.cursor key⟩] else []

/-- What a deed gives a voice to sound: a note or rest, and the padding before it. -/
def Deed.gives (r : Reading) (key : VoiceKey) (d : Deed) : List Sounding :=
  match d.arrival? with
  | some a => if a.key = key then r.padSoundings key a.line ++ [a.sounding] else []
  | none => []

/-- How far a deed takes a voice back. A movement back takes the current voice along, if that has
begun. -/
def Deed.takesBack (r : Reading) (key : VoiceKey) : Deed → WholeNotes
  | backup duration => if r.passage.current = key ∧ r.currentVoice?.isSome then duration else 0
  | _ => 0

/-- The moments in which a part is read. -/
def momentsIn (id : String) (ms : List Moment) : List Moment :=
  ms.filter fun m => m.before.partId? = some id

/-- What some moments give a voice of a part to sound. -/
def soundingsGiven (settings : Settings) (id : String) (key : VoiceKey) (ms : List Moment) :
    List Sounding :=
  (momentsIn id ms).flatMap fun m => (m.move.deed settings m.before).gives m.before key

/-- How far some moments take a voice of a part back, all in all. -/
def timeTakenBack (settings : Settings) (id : String) (key : VoiceKey) (ms : List Moment) :
    WholeNotes :=
  ((momentsIn id ms).map fun m => (m.move.deed settings m.before).takesBack m.before key).sum

/-- Where the document stands after some moments that follow another. -/
def Moment.reached (m : Moment) (ms : List Moment) : Reading := (m :: ms).getLast (by simp) |>.after

theorem momentsIn_cons_of_here (h : m.before.partId? = some id) (ms : List Moment) :
    momentsIn id (m :: ms) = m :: momentsIn id ms :=
  List.filter_cons_of_pos (by simpa using h)

theorem momentsIn_cons_of_elsewhere (h : m.before.partId? ≠ some id) (ms : List Moment) :
    momentsIn id (m :: ms) = momentsIn id ms :=
  List.filter_cons_of_neg (by simpa using h)

/-! ## One deed -/

/-- What a voice is given that gets a note or rest. -/
theorem Deed.gives_of_arrival (r : Reading) {a : Arrival} (h : d.arrival? = some a) :
    d.gives r a.key = r.padSoundings a.key a.line ++ [a.sounding] := by
  rw [gives, h]
  exact if_pos rfl

/-- A deed gives nothing to other voices. -/
theorem Deed.gives_other (r : Reading) (h : d.voice? ≠ some key) : d.gives r key = [] := by
  unfold gives
  split
  · next a ha =>
    refine if_neg fun hkey => h ?_
    rw [← hkey]
    exact Deed.voice?_of_arrival ha
  · rfl

/-- A voice that is padded comes up to where it begins. -/
theorem Reading.cursor_add_padSoundings (r : Reading) (key : VoiceKey) (line : Nat) :
    r.cursor key + totalLength (r.padSoundings key line) = r.onset key := by
  unfold padSoundings onset
  split
  · next hbehind => simp [totalLength, max_eq_left hbehind.le]
  · next hbehind => simp [totalLength, max_eq_right (not_lt.mp hbehind)]

/-- Padding is written as it sounds. -/
theorem Reading.filterMap_padWord (r : Reading) (key : VoiceKey) (line : Nat) :
    (r.padWord key line).filterMap Bracket.sounding? = r.padSoundings key line := by
  unfold padWord padSoundings
  split <;> rfl

namespace Placed

variable {a : Arrival} {current : VoiceKey}

/-- A note or rest that takes its place moves its voice by what that is given. -/
theorem positionOf (h : Placed r s id a current) (hgrace : a.isGrace = true → a.length = 0)
    (hd : d.arrival? = some a) (key : VoiceKey) :
    s.positionOf id key = r.positionOf id key + totalLength (d.gives r key) := by
  rw [Reading.positionOf_current h.samePart, Reading.positionOf_current h.partId]
  by_cases hkey : key = a.key
  · subst hkey
    rw [Deed.gives_of_arrival r hd, h.cursor, totalLength_append, ← add_assoc,
      r.cursor_add_padSoundings]
    by_cases hg : a.isGrace = true
    · simp [hg, totalLength, Arrival.sounding, hgrace hg]
    · simp [hg, totalLength, Arrival.sounding]
  · have hvoice : d.voice? ≠ some key := by
      rw [Deed.voice?_of_arrival hd]
      exact fun heq => hkey (Option.some.inj heq).symm
    rw [Deed.gives_other r hvoice, h.cursors key hkey]
    exact (add_zero _).symm

end Placed

/-- A note or rest that is written adds to its voice what that is given. -/
theorem Enters.soundings {kept stops : Nat} {a : Arrival} {starts : List Opening}
    (h : Enters r s kept id a starts stops) :
    soundings (s.music id a.key) =
      soundings (r.music id a.key) ++ (r.padSoundings a.key a.line ++ [a.sounding]) := by
  obtain ⟨w, hbefore, hafter⟩ := h.word
  have hclosings : ∀ count, (closings count).filterMap Bracket.sounding? = [] := fun count =>
    List.filterMap_eq_nil_iff.mpr fun x hx => by rw [List.eq_of_mem_replicate hx]; rfl
  have hopens : (starts.map Bracket.opens).filterMap Bracket.sounding? = [] := by
    rw [List.filterMap_map]
    exact List.filterMap_eq_nil_iff.mpr fun _ _ => rfl
  rw [Partwise.soundings, Partwise.soundings, hbefore, hafter]
  simp only [List.filterMap_append, hclosings, hopens, r.filterMap_padWord, List.append_nil,
    List.append_assoc]
  exact congrArg (fun tail => _ ++ (_ ++ _ :: tail)) (hclosings _)

/-- **A deed moves a voice** by what it gives it, less what it takes it back. -/
theorem Does.positionOf (h : Does r s d) (hid : r.partId? = some id)
    (halone : ∀ id, d = .enterPart id → r.partId? = none)
    (hproper : ∀ input, d = .note input → input.Proper) (hmeasure : d ≠ .enterMeasure)
    (key : VoiceKey) :
    s.positionOf id key =
      r.positionOf id key + totalLength (d.gives r key) - d.takesBack r key := by
  have hsame : s.partId? = r.partId? → s.cursor key = r.cursor key →
      s.positionOf id key = r.positionOf id key := fun hpartId hcursor => by
    rw [Reading.positionOf_current (hpartId.trans hid), Reading.positionOf_current hid, hcursor]
  have hstays : s.positionOf id key = r.positionOf id key →
      s.positionOf id key = r.positionOf id key + totalLength [] - 0 := fun heq => by
    simp [totalLength, heq]
  cases h with
  | @place input at' _ alone placed =>
    obtain rfl : at' = id := Option.some.inj (placed.partId.symm.trans hid)
    have harrival : (Deed.note input).arrival? = some input.arrival := by
      simp [Deed.arrival?, alone]
    rw [placed.positionOf (hproper input rfl).timeless harrival key]
    exact (sub_zero _).symm
  | @join input _ _ member joined =>
    have hnone : (Deed.note input).gives r key = [] := by simp [Deed.gives, Deed.arrival?, member]
    rw [hnone]
    exact hstays (hsame (joined.samePart.trans joined.partId.symm) (congrFun joined.cursor key))
  | @forward k duration line at' placed =>
    obtain rfl : at' = id := Option.some.inj (placed.partId.symm.trans hid)
    have harrival : (Deed.forward k duration line).arrival? = some (.skip k duration line) := rfl
    rw [placed.positionOf (fun hgrace => absurd hgrace Bool.false_ne_true) harrival key]
    exact (sub_zero _).symm
  | @backup duration back =>
    rw [Reading.positionOf_current (back.partId.trans hid), Reading.positionOf_current hid]
    change s.cursor key = r.cursor key + 0 - if _ then duration else 0
    rw [add_zero]
    by_cases hkey : r.passage.current = key
    · subst hkey
      rcases back.cursor with ⟨hbegun, hmoved⟩ | ⟨habsent, hmoved, hstart, _⟩
      · simp [hbegun, hmoved]
      · simp [habsent, hmoved, hstart]
    · simp [hkey, back.cursors key (Ne.symm hkey)]
  | enterMeasure => exact absurd rfl hmeasure
  | leaveMeasure quiet => exact hstays (hsame quiet.partId (quiet.cursor key))
  | enterPart => cases hid.symm.trans (halone _ rfl)
  | leavePart ends => exact hstays (ends.positions id hid key)
  | nothing quiet => exact hstays (hsame quiet.partId (quiet.cursor key))

/-- **A deed adds to the music** of a voice what it gives it to sound, and nothing else. -/
theorem Does.soundings (h : Does r s d) (halone : ∀ id, d = .enterPart id → r.partId? = none)
    (hfull : .hollow ∉ wordOf (r.music id key)) :
    soundings (s.music id key) =
      soundings (r.music id key) ++ if r.partId? = some id then d.gives r key else [] := by
  by_cases hhere : r.partId? = some id ∧ d.voice? = some key
  · obtain ⟨hid, hkey⟩ := hhere
    rw [if_pos hid]
    cases h with
    | @place input at' _ alone placed enters =>
      cases hkey
      obtain rfl : at' = id := Option.some.inj (placed.partId.symm.trans hid)
      have harrival : (Deed.note input).arrival? = some input.arrival := by
        simp [Deed.arrival?, alone]
      exact enters.soundings.trans (congrArg _ (Deed.gives_of_arrival r harrival).symm)
    | @join input at' _ member joined =>
      cases hkey
      obtain rfl : at' = id := Option.some.inj (joined.partId.symm.trans hid)
      have hnone : (Deed.note input).gives r input.key = [] := by
        simp [Deed.gives, Deed.arrival?, member]
      rw [Partwise.soundings, Partwise.soundings, joined.word hfull, hnone, List.append_nil]
    | @forward k duration line at' placed enters =>
      obtain rfl : k = key := Option.some.inj hkey
      obtain rfl : at' = id := Option.some.inj (placed.partId.symm.trans hid)
      have harrival : (Deed.forward k duration line).arrival? = some (.skip k duration line) := rfl
      exact enters.soundings.trans (congrArg _ (Deed.gives_of_arrival r harrival).symm)
    | backup | enterMeasure | leaveMeasure | enterPart | leavePart | nothing => cases hkey
  · have hother : r.partId? = some id → d.voice? ≠ some key := not_and.mp hhere
    have hnone : (if r.partId? = some id then d.gives r key else []) = [] := by
      split
      · next hid => exact Deed.gives_other r (hother hid)
      · rfl
    rw [h.music_other halone hother, hnone, List.append_nil]

/-! ## Many deeds -/

/-- **Moments move a voice** by what they give it, less what they take it back, as long as no
measure of its part begins. -/
theorem Follows.positionOf (h : Follows settings r ms t) (hunfolds : Unfolds settings r ms t)
    (hmeasure : ∀ m ∈ ms, m.move.entersMeasure = true → m.before.partId? ≠ some id)
    (key : VoiceKey) :
    t.positionOf id key = r.positionOf id key + totalLength (soundingsGiven settings id key ms) -
      timeTakenBack settings id key ms := by
  induction h with
  | nil r => simp [soundingsGiven, timeTakenBack, momentsIn, totalLength]
  | @cons m ms t hstep _ ih =>
    obtain ⟨_, hdoes, halone, hrest⟩ := hunfolds.of_cons
    rw [ih hrest fun m' hm' => hmeasure m' (List.mem_cons_of_mem _ hm')]
    by_cases hid : m.before.partId? = some id
    · have hdeed : m.move.deed settings m.before ≠ .enterMeasure := by
        intro heq
        obtain ⟨e, hmove⟩ := Move.enterMeasure_of_deed heq
        exact hmeasure m List.mem_cons_self (by rw [hmove]; rfl) hid
      rw [hdoes.positionOf hid halone (fun _ => Move.proper_of_deed) hdeed, soundingsGiven,
        soundingsGiven, timeTakenBack, timeTakenBack, momentsIn_cons_of_here hid]
      simp only [List.flatMap_cons, List.map_cons, List.sum_cons, totalLength_append]
      linarith
    · rw [Move.positionOf_elsewhere hstep hid, soundingsGiven, soundingsGiven, timeTakenBack,
        timeTakenBack, momentsIn_cons_of_elsewhere hid]

/-- **Moments add to the music** of a voice what they give it to sound. -/
theorem Follows.soundings {n : TupletStack} (h : Follows settings r ms t)
    (hunfolds : Unfolds settings r ms t) (hagrees : n.Agrees r id) (key : VoiceKey) :
    soundings (t.music id key) =
      soundings (r.music id key) ++ soundingsGiven settings id key ms := by
  induction h generalizing n with
  | nil r => simp [soundingsGiven, momentsIn]
  | @cons m ms t hstep _ ih =>
    obtain ⟨hsound, hdoes, halone, hrest⟩ := hunfolds.of_cons
    rw [ih hrest (hagrees.step hsound hdoes halone hstep),
      hdoes.soundings halone (hagrees.written key).full, List.append_assoc]
    congr 1
    split
    · next hid =>
      rw [soundingsGiven, soundingsGiven, momentsIn_cons_of_here hid, List.flatMap_cons]
    · next hid =>
      rw [soundingsGiven, soundingsGiven, momentsIn_cons_of_elsewhere hid, List.nil_append]

/-- A trail ends where its last moment does. -/
theorem Follows.reached (h : Follows settings r (m :: ms) t) : t = m.reached ms := by
  induction ms generalizing r m with
  | nil =>
    obtain ⟨_, _, hrest⟩ := h.of_cons
    exact hrest.of_nil
  | cons m' ms ih =>
    obtain ⟨_, _, hrest⟩ := h.of_cons
    exact ih hrest

/-- A voice of a part stands at the position of its key. -/
theorem Reading.Sound.positionOf_eq (h : r.Sound) {part : Part} (hpart : r.partOf id = some part)
    {voice : Voice} (hvoice : voice ∈ part.voices) :
    r.positionOf id voice.key = voice.positionInMeasure := by
  have hfound := (h.keyed id part hpart).voice?_of_mem hvoice
  rw [positionOf, hpart, Option.elim_some, Part.cursor, hfound]
  rfl

/-! ## Notes that count for nothing -/

/-- A member of a chord moves no voice. -/
theorem Does.cursor_member {input : NoteInput} (h : Does r s (.note input))
    (hmember : input.inChord = true) : s.cursor = r.cursor := by
  cases h with
  | place alone => exact nomatch alone.symm.trans hmember
  | join _ joined => exact joined.cursor

/-- A grace note leaves its voice where it begins itself. -/
theorem Does.cursor_grace {input : NoteInput} (h : Does r s (.note input))
    (hgrace : input.isGrace = true) (halone : input.inChord = false) :
    s.cursor input.key = r.onset input.key := by
  cases h with
  | place _ placed =>
    have hcursor := placed.cursor
    rw [show input.arrival.isGrace = true from hgrace, if_pos rfl, add_zero] at hcursor
    exact hcursor
  | join member => exact nomatch halone.symm.trans member

/-! ## Whole documents -/

/-- **Positions are reckoned exactly.** Take a document that is read, a measure of a part, and any
moment after it has begun and before the next measure of the part does. Then every voice of the part
stands at the sum of what it was given to sound in the meantime, less the movements back that were
made while it was the current voice and had begun. What it was given is what its music gained, in
open tuplets or outside of them. Members of chords move no voice, and grace notes leave theirs where
they begin. -/
theorem Document.positions_reckoned {root : Element} {score : Score}
    (h : (Document.read settings root).score = .ok score) {before since after : List Moment}
    {enter : Moment} (htrail : trail settings root = before ++ enter :: (since ++ after))
    (henter : enter.move.entersMeasure = true) (hid : enter.before.partId? = some id)
    (hlast : ∀ m ∈ since, m.move.entersMeasure = true → m.before.partId? ≠ some id) :
    (trail settings root).map Moment.move = movesOf root ∧
      (∀ part, (enter.reached since).partOf id = some part → ∀ voice ∈ part.voices,
        voice.positionInMeasure = totalLength (soundingsGiven settings id voice.key since) -
          timeTakenBack settings id voice.key since) ∧
      (∀ key, soundings ((enter.reached since).music id key) =
        soundings (enter.before.music id key) ++ soundingsGiven settings id key since) ∧
      ∀ m ∈ since, ∀ input, m.move.deed settings m.before = .note input →
        (input.inChord = true → m.after.cursor = m.before.cursor) ∧
          (input.isGrace = true → input.inChord = false → m.after.cursor input.key =
            max m.before.passage.position (m.before.cursor input.key)) := by
  obtain ⟨last, hfollows, hunfolds, -, hmoves⟩ := Document.follows_unfolds h
  refine ⟨hmoves, ?_⟩
  rw [htrail] at hfollows hunfolds
  obtain ⟨_, hbefore, hrest⟩ := hfollows.of_append
  have hagrees := (TupletStack.Agrees.begin id).follows hbefore (hunfolds.of_append hbefore)
  obtain ⟨rfl, hentered, hlater⟩ := hrest.of_cons
  obtain ⟨now, hsince, -⟩ := hlater.of_append
  obtain ⟨hsound, hdoes, halone, hunfolded⟩ := hunfolds.cut.2.of_cons
  have hunfolds' := hunfolded.of_append hsince
  have hnow : now = enter.reached since := Follows.reached (.cons hentered hsince)
  have begins := hdoes.measureBegins henter
  have hmusic : enter.after.music = enter.before.music := congrArg View.music begins.view
  have hcursor : enter.after.cursor = fun _ => 0 := congrArg View.cursor begins.view
  have hstart : ∀ key, enter.after.positionOf id key = 0 := by
    intro key
    rw [Reading.positionOf_current ((congrArg View.partId? begins.view).trans hid), hcursor]
  rw [← hnow]
  refine ⟨fun part hpart voice hvoice => ?_, fun key => ?_, fun m hm input hdeed => ?_⟩
  · rw [← (hsince.sound hdoes.sound).positionOf_eq hpart hvoice,
      hsince.positionOf hunfolds' hlast voice.key, hstart, zero_add]
  · rw [hsince.soundings hunfolds' (hagrees.step hsound hdoes halone hentered) key, hmusic]
  · obtain ⟨ms, ns, rfl⟩ := List.append_of_mem hm
    have hnote := hunfolds'.cut.2.of_cons.2.1
    rw [hdeed] at hnote
    exact ⟨hnote.cursor_member, hnote.cursor_grace⟩

/-- A chord, a movement back, and a note of a second voice that is padded first. -/
def chordAndBack : Element :=
  singleMeasure [noteElement 1 "C" "1" "2" [], noteElement 2 "E" "1" "2" [{ name := "chord" }],
    backupElement "1", noteElement 3 "G" "2" "1" []]

/-- What is known once all its notes are read. -/
def afterChordAndBack : Reading :=
  ((trail {} chordAndBack).get ⟨3, by decide +kernel⟩).reached
    (((trail {} chordAndBack).drop 4).take 4)

/-- The first voice was given its chord once and went back; the second was padded first. -/
theorem Document.positions_reckoned_chord : ∃ part, afterChordAndBack.partOf "P" = some part ∧
    (∃ voice ∈ part.voices, voice.key = ⟨1, 1⟩ ∧ voice.positionInMeasure = 1 / 2 - 1 / 4) ∧
      (soundings (afterChordAndBack.music "P" ⟨1, 2⟩)).map Sounding.length =
        [1 / 4, 1 / 4] := by
  have hread : hasVoice chordAndBack "P" ⟨1, 1⟩ (fun _ => true) = true := by decide +kernel
  obtain ⟨score, _, _, _, _, hread, _⟩ := exists_voice hread
  obtain ⟨_, hpositions, hsoundings, _⟩ := Document.positions_reckoned hread
    (eq_split (trail {} chordAndBack) (show 3 < _ by decide +kernel)
      (show 3 + 1 + 4 < _ by decide +kernel))
    (by decide +kernel) (show _ = some "P" by decide +kernel) (by decide +kernel)
  have hthere : ((afterChordAndBack.partOf "P").any fun part => part.voices.any fun voice =>
      voice.key = ⟨1, 1⟩) = true := by decide +kernel
  obtain ⟨part, hpart, hvoices⟩ := (Option.any_eq_true _ _).mp hthere
  obtain ⟨voice, hvoice, hkey⟩ := List.any_eq_true.mp hvoices
  have hkey : voice.key = ⟨1, 1⟩ := of_decide_eq_true hkey
  refine ⟨part, hpart, ⟨voice, hvoice, hkey, ?_⟩, ?_⟩
  · rw [hpositions part hpart voice hvoice, hkey]
    decide +kernel
  · change (soundings (Reading.music (Moment.reached _ _) "P" ⟨1, 2⟩)).map _ = _
    rw [hsoundings ⟨1, 2⟩]
    decide +kernel

end Partwise
