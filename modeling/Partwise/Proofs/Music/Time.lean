import Partwise.Proofs.Music.Conservation

/-!
# Music · Time: positions are document time

Document time starts at zero with every measure. Notes and movements forward take it forward, and
movements back take it back. `Clock` follows it from deed to deed, with the place where the last
note of every voice ended. As long as each voice is given its notes in order, the clock shows the
positions of the reading: the document stands at the time of the clock, and no voice has come
further than the end of its last note. So every note and every rest of a movement forward begins at
the time at which it is met.

* `Clock.tells_tick`: one deed keeps document and clock together.
* `Document.positions_eq_times`: the positions of the notes of a score are document times.
-/

namespace Partwise

open Markup

variable {settings : Settings} {r s t : Reading} {ms : List Moment} {c : Clock} {d : Deed}

/-! ## Clocks -/

/-- Document time in a measure. -/
structure Clock where
  time : WholeNotes
  /-- Where the last note or rest of a voice ended. -/
  ends : VoiceKey → WholeNotes
  /-- So far each voice was given its notes and rests in order, with durations that are not
  negative. -/
  orderly : Bool

/-- How long a note or rest takes. Grace notes take no time. -/
def Arrival.duration (a : Arrival) : WholeNotes :=
  if a.isGrace then 0 else a.length

namespace Clock

/-- The clock at the start of a measure. -/
def start : Clock := ⟨0, fun _ => 0, true⟩

/-- The clock outside of all measures, where nothing is said about time. -/
def stopped : Clock := ⟨0, fun _ => 0, false⟩

/-- The clock after a note or rest. -/
def arrive (c : Clock) (a : Arrival) : Clock where
  time := c.time + a.duration
  ends key := if key = a.key then c.time + a.duration else c.ends key
  orderly := c.orderly && decide (0 ≤ a.duration ∧ c.ends a.key ≤ c.time)

/-- The clock after a deed. -/
def tick (c : Clock) : Deed → Clock
  | .note input => if input.inChord then c else c.arrive input.arrival
  | .forward key duration line => c.arrive (.skip key duration line)
  | .backup duration =>
    { c with time := c.time - duration, orderly := c.orderly && decide (0 ≤ duration) }
  | .enterMeasure => start
  | .leaveMeasure | .enterPart _ | .leavePart => stopped
  | .nothing => c

/-- The clock after some moments. -/
def run (settings : Settings) (c : Clock) (ms : List Moment) : Clock :=
  ms.foldl (fun c m => c.tick (m.move.deed settings m.before)) c

theorem run_concat (settings : Settings) (c : Clock) (ms : List Moment) (m : Moment) :
    c.run settings (ms ++ [m]) = (c.run settings ms).tick (m.move.deed settings m.before) := by
  rw [run, run, List.foldl_append]
  rfl

/-- What takes a place in time makes the clock go forward. -/
theorem tick_of_arrival {a : Arrival} (h : d.arrival? = some a) : c.tick d = c.arrive a := by
  cases d with
  | note input =>
    dsimp only [Deed.arrival?] at h
    split at h
    · exact nomatch h
    · next halone =>
      cases h
      exact if_neg halone
  | forward =>
    cases h
    rfl
  | backup | enterMeasure | leaveMeasure | enterPart | leavePart | nothing => exact nomatch h

/-- A clock that is orderly after a note or rest. -/
theorem of_orderly_arrive {a : Arrival} (h : (c.arrive a).orderly = true) :
    c.orderly = true ∧ 0 ≤ a.duration ∧ c.ends a.key ≤ c.time := by
  simpa [arrive] using h

end Clock

/-! ## Clock and document -/

/-- The document stands at the time of the clock, and no voice has come further than the end of its
last note or rest. -/
structure Clock.Shows (c : Clock) (r : Reading) : Prop where
  position : r.passage.position = c.time
  cursor : ∀ key, r.cursor key ≤ c.ends key

/-- As long as it is orderly, the clock shows the positions of the reading. -/
def Clock.Tells (c : Clock) (r : Reading) : Prop := c.orderly = true → c.Shows r

namespace Clock

/-- A clock that is not orderly tells nothing. -/
theorem tells_stopped (r : Reading) : stopped.Tells r := fun h => nomatch h

/-- What is met in order begins at the time of the clock. -/
theorem Shows.onset (h : c.Shows r) {a : Arrival} (horder : c.ends a.key ≤ c.time) :
    r.onset a.key = c.time := by
  rw [Reading.onset, h.position, max_eq_left ((h.cursor a.key).trans horder)]

/-- A clock stays right when a note or rest takes its place. -/
theorem tells_arrive {id : String} {a : Arrival} {current : VoiceKey} (h : c.Tells r)
    (hplaced : Placed r s id a current) : (c.arrive a).Tells s := by
  intro horderly
  obtain ⟨hbefore, _, horder⟩ := of_orderly_arrive horderly
  have hshows := h hbefore
  have honset := hshows.onset horder
  constructor
  · rw [hplaced.position, honset, hshows.position]
    simp only [arrive, Arrival.duration]
    split <;> simp
  · intro key
    by_cases hkey : key = a.key
    · rw [hkey, hplaced.cursor, honset]
      simp [arrive, Arrival.duration]
    · rw [hplaced.cursors key hkey]
      simpa [arrive, hkey] using hshows.cursor key

/-- What is seen of the reading stays the same. -/
theorem Tells.of_same (h : c.Tells r) (hcursor : s.cursor = r.cursor)
    (hposition : s.passage.position = r.passage.position) : c.Tells s := fun horderly =>
  ⟨hposition.trans (h horderly).position, fun key => by
    rw [hcursor]
    exact (h horderly).cursor key⟩

/-- A clock stays right after a movement back. -/
theorem tells_back {duration : WholeNotes} (h : c.Tells r) (hback : WentBack r s duration) :
    (c.tick (.backup duration)).Tells s := by
  intro horderly
  obtain ⟨hbefore, hduration⟩ : c.orderly = true ∧ 0 ≤ duration := by simpa [tick] using horderly
  have hshows := h hbefore
  refine ⟨by rw [hback.position, hshows.position]; rfl, ?_⟩
  intro key
  have hended := hshows.cursor key
  change s.cursor key ≤ c.ends key
  by_cases hkey : key = r.passage.current
  · rw [hkey] at hended ⊢
    rcases hback.cursor with ⟨_, hmoved⟩ | ⟨_, hstart, hstarted, _⟩
    · linarith
    · linarith
  · rwa [hback.cursors key hkey]

/-- **Document and clock stay together.** -/
theorem tells_tick (h : c.Tells r) (hdoes : Does r s d) : (c.tick d).Tells s := by
  cases hdoes with
  | @place input id _ alone placed =>
    rw [tick_of_arrival (a := input.arrival) (by simp [Deed.arrival?, alone])]
    exact tells_arrive h placed
  | join member joined =>
    simp only [tick, member, if_true]
    exact h.of_same joined.cursor joined.position
  | forward placed => exact tells_arrive h placed
  | backup back => exact tells_back h back
  | enterMeasure begins =>
    exact fun _ => ⟨congrArg View.position begins.view, fun key =>
      (congrFun (congrArg View.cursor begins.view) key).le⟩
  | leaveMeasure => exact tells_stopped s
  | enterPart => exact tells_stopped s
  | leavePart => exact tells_stopped s
  | nothing quiet => exact h.of_same (funext quiet.cursor) quiet.position

/-- Document and clock are together after any moments. -/
theorem tells_run (h : c.Tells r) (hunfolds : Unfolds settings r ms t) :
    (c.run settings ms).Tells t := by
  induction hunfolds generalizing c with
  | nil => exact h
  | cons _ hdoes _ _ ih => exact ih (tells_tick h hdoes)

end Clock

/-! ## Times of arrival -/

/-- The time at which a note or rest is met, if the clock is orderly with it. -/
def Deed.onset? (c : Clock) (d : Deed) : Option WholeNotes :=
  if (c.tick d).orderly then d.arrival?.map fun _ => c.time else none

/-- What a deed brings to a voice, with the time at which it is met. Padding is not met. -/
def Deed.bringsAt (r : Reading) (key : VoiceKey) (c : Clock) (d : Deed) :
    List (Arrived × Option WholeNotes) :=
  (d.brings r key).map fun a => (a, if a.origin = .padding then none else d.onset? c)

/-- What some moments bring to a voice of a part, with the times at which it is met. -/
def arrivalsAt (settings : Settings) (id : String) (key : VoiceKey) :
    Option String → Clock → List Moment → List (Arrived × Option WholeNotes)
  | _, _, [] => []
  | part?, c, m :: ms =>
    let deed := m.move.deed settings m.before
    (if part? = some id then deed.bringsAt m.before key c else []) ++
      arrivalsAt settings id key (deed.partAfter part?) (c.tick deed) ms

/-- An imprint is that of what was brought, at the time at which it was met. -/
structure OnTime (i : Imprint) (a : Arrived × Option WholeNotes) : Prop where
  written : i.written = a.1.written
  position : ∀ onset, a.2 = some onset → i.position = onset

/-- What fits is there on time, as long as document and clock are together. -/
theorem onTime_of_fits (h : c.Tells r) {i : Imprint} {a : Arrived} (hfits : Fits r d i a) :
    OnTime i (a, if a.origin = .padding then none else d.onset? c) := by
  refine ⟨hfits.written, ?_⟩
  intro onset honset
  dsimp only at honset
  split at honset
  · exact nomatch honset
  · next horigin =>
    unfold Deed.onset? at honset
    split at honset
    · next horderly =>
      obtain ⟨x, hx, rfl⟩ := Option.map_eq_some_iff.mp honset
      rw [Clock.tick_of_arrival hx] at horderly
      obtain ⟨hbefore, _, horder⟩ := Clock.of_orderly_arrive horderly
      rw [hfits.position horigin x hx, (h hbefore).onset horder]
    · exact nomatch honset

/-- What a deed brings to a voice is there on time. -/
theorem onTime_bringsAt (h : c.Tells r) {key : VoiceKey} {is : List Imprint}
    (hfits : List.Forall₂ (Fits r d) is (d.brings r key)) :
    List.Forall₂ OnTime is (d.bringsAt r key c) := by
  rw [Deed.bringsAt, List.forall₂_map_right_iff]
  exact hfits.imp fun _ _ => onTime_of_fits h

/-- The music of a voice is what it was, and then what the moments bring, on time. -/
theorem Unfolds.onTime (h : Unfolds settings r ms t) (hc : c.Tells r) (id : String)
    (key : VoiceKey) : ∃ new, imprints (t.music id key) = imprints (r.music id key) ++ new ∧
      List.Forall₂ OnTime new (arrivalsAt settings id key r.partId? c ms) := by
  induction h generalizing c with
  | nil r => exact ⟨[], (List.append_nil _).symm, .nil⟩
  | @cons m ms t _ hdoes halone _ ih =>
    obtain ⟨new, hnew, hfits⟩ := hdoes.imprints_eq halone id key
    obtain ⟨later, hlater, hrest⟩ := ih (Clock.tells_tick hc hdoes)
    refine ⟨new ++ later, by rw [hlater, hnew, List.append_assoc], ?_⟩
    rw [hdoes.partId] at hrest
    refine List.rel_append ?_ hrest
    by_cases hid : m.before.partId? = some id
    · rw [if_pos hid] at hfits ⊢
      exact onTime_bringsAt hc hfits
    · rw [if_neg hid] at hfits ⊢
      cases hfits
      exact .nil

/-- A note of a score stands where it was met. -/
structure StandsAt (n : Note) (a : Arrived × Option WholeNotes) : Prop where
  written : n.written = a.1.written
  position : ∀ onset, a.2 = some onset → n.positionInMeasure = onset

/-- **Positions are document times.** The notes of every voice of a score are what was brought to
it, and each that was met in order stands at the time at which it was met. After each moment that is
in order the document stands at the time of the clock. -/
theorem Document.positions_eq_times {root : Element} {score : Score}
    (h : (Document.read settings root).score = .ok score) :
    (∀ part ∈ score.parts, ∀ voice ∈ part.voices, List.Forall₂ StandsAt voice.notes
      (arrivalsAt settings part.id voice.key none .stopped (trail settings root))) ∧
    ∀ before m after, trail settings root = before ++ m :: after →
      (Clock.run settings .stopped (before ++ [m])).orderly = true →
        m.after.passage.position = (Clock.run settings .stopped (before ++ [m])).time := by
  obtain ⟨last, hunfolds, hcomplete, _⟩ := Document.unfolds h
  have htells := Clock.tells_stopped {}
  constructor
  · intro part hpart voice hvoice
    obtain ⟨new, hnew, hontime⟩ := hunfolds.onTime htells part.id voice.key
    have hnotes : new = voice.notes.map Note.imprint := by
      rw [← hcomplete.imprints_eq hpart hvoice, hnew]
      rfl
    rw [hnotes, List.forall₂_map_left_iff] at hontime
    exact hontime.imp fun n a hna => ⟨hna.written, hna.position⟩
  · intro before m after htrail horderly
    rw [htrail] at hunfolds
    obtain ⟨hbefore, hrest⟩ := hunfolds.cut
    have hstopped := Clock.tells_run htells hbefore
    rw [Clock.run_concat] at horderly ⊢
    exact (Clock.tells_tick hstopped hrest.of_cons.2.1 horderly).position

/-- Two voices that take turns, after a movement back. -/
def twoVoicesInTurn : Element :=
  singleMeasure [noteElement 1 "C" "1" "2" [], backupElement "2", noteElement 2 "E" "2" "1" [],
    noteElement 3 "F" "2" "1" [], noteElement 4 "G" "1" "1" []]

/-- The second voice begins with the measure, and its notes follow one another. -/
theorem Document.positions_eq_times_twoVoices : ∃ score, ∃ part ∈ score.parts,
    ∃ voice ∈ part.voices, (Document.read {} twoVoicesInTurn).score = .ok score ∧
      voice.key = ⟨1, 2⟩ ∧ voice.notes.map Note.positionInMeasure = [0, 1 / 4] := by
  have hthere : hasVoice twoVoicesInTurn "P" ⟨1, 2⟩ (fun _ => true) = true := by
    decide +kernel
  obtain ⟨score, part, hpart, voice, hvoice, hread, hid, hkey, _⟩ := exists_voice hthere
  have hstand := (Document.positions_eq_times hread).1 part hpart voice hvoice
  have harrivals : arrivalsAt {} "P" ⟨1, 2⟩ none .stopped (trail {} twoVoicesInTurn) =
      [(⟨.note, .pitched (.of .e .natural 4), 2⟩, some 0),
        (⟨.note, .pitched (.of .f .natural 4), 3⟩, some (1 / 4))] := by
    decide +kernel
  rw [hid, hkey, harrivals] at hstand
  refine ⟨score, part, hpart, voice, hvoice, hread, hkey, ?_⟩
  obtain ⟨first, rest, hfirst, hrest, hnotes⟩ := List.forall₂_cons_right_iff.mp hstand
  obtain ⟨second, none, hsecond, hnone, hmore⟩ := List.forall₂_cons_right_iff.mp hrest
  rw [hnotes, hmore, List.forall₂_nil_right_iff.mp hnone, List.map_cons, List.map_cons,
    hfirst.position 0 rfl, hsecond.position (1 / 4) rfl, List.map_nil]

end Partwise
