import Partwise.Proofs.Music.Stretches

/-!
# Music · Overlap: when the elements of a voice overlap

A voice that is behind the document is padded before it is given anything. That keeps its elements
apart as long as the voice stands where its last element ended. But a movement back takes the
current voice back as well, into the time that it has filled already. If other voices are read then
and the voice is returned to at the time where it had ended, it is padded once more, over what it
holds.

`Course` follows a measure and marks the voices to which this happens, and `Document.apart_iff` says
that it is the only way in which elements of a voice come to overlap: in a measure in which every
voice is given its notes in order, the elements of a voice overlap if and only if the voice was
given something after a movement back that it made as the current voice, with something in the
measure already. `Document.overlap_returningVoice` is a measure in which it
happens. -/

namespace Partwise

open Markup

variable {settings : Settings} {r s t : Reading} {ms : List Moment} {d : Deed} {id : String}
  {key : VoiceKey} {base added : List Span}

/-! ## The course of a measure -/

/-- What happens to the voices in a measure. -/
structure Course where
  clock : Clock
  /-- The voice of the last note. -/
  current : VoiceKey
  /-- The voices that were given something. -/
  filled : VoiceKey → Bool
  /-- The voices that have gone back into what they were given. -/
  returned : VoiceKey → Bool
  /-- The voices that were given something after they had gone back. -/
  clash : VoiceKey → Bool

namespace Course

variable {c : Course}

/-- The course at the start of a measure. -/
def start (current : VoiceKey) : Course :=
  ⟨.start, current, fun _ => false, fun _ => false, fun _ => false⟩

/-- The course after a note or rest. -/
def arrive (c : Course) (a : Arrival) : Course where
  clock := c.clock.arrive a
  current := c.current
  filled key := key = a.key || c.filled key
  returned key := key ≠ a.key && c.returned key
  clash key := c.clash key || (key = a.key && c.returned key)

/-- The course after a movement back. -/
def goBack (c : Course) (duration : WholeNotes) : Course :=
  { c with
    clock := c.clock.tick (.backup duration)
    returned := fun key =>
      c.returned key || (decide (key = c.current ∧ 0 < duration) && c.filled key) }

/-- The course after a deed in a measure. -/
def tick (c : Course) : Deed → Course
  | .note input =>
    { (if input.inChord then c else c.arrive input.arrival) with current := input.key }
  | .forward key duration line => c.arrive (.skip key duration line)
  | .backup duration => c.goBack duration
  | .enterMeasure | .leaveMeasure | .enterPart _ | .leavePart | .nothing => c

/-- The course after some moments in a measure. -/
def run (settings : Settings) (c : Course) (ms : List Moment) : Course :=
  ms.foldl (fun c m => c.tick (m.move.deed settings m.before)) c

end Course

/-! ## Boundaries -/

/-- Measures and parts are entered and left by the move. -/
def Move.isBoundary : Move → Bool
  | enterPart _ | leavePart _ | enterMeasure _ | leaveMeasure _ => true
  | leavePartList _ | leaf _ => false

/-- Measures and parts are entered and left by the deed. -/
def Deed.isBoundary : Deed → Bool
  | enterMeasure | leaveMeasure | enterPart _ | leavePart => true
  | note _ | forward _ _ _ | backup _ | nothing => false

/-- A measure is entered by the move. -/
def Move.entersMeasure : Move → Bool
  | enterMeasure _ => true
  | _ => false

/-- A measure is left by the move. -/
def Move.leavesMeasure : Move → Bool
  | leaveMeasure _ => true
  | _ => false

theorem Move.of_entersMeasure {move : Move} (h : move.entersMeasure = true) :
    ∃ e, move = .enterMeasure e := by
  cases move <;> simp_all [entersMeasure]

theorem Move.of_leavesMeasure {move : Move} (h : move.leavesMeasure = true) :
    ∃ e, move = .leaveMeasure e := by
  cases move <;> simp_all [leavesMeasure]

/-- Only boundaries mean boundaries. -/
theorem Move.isBoundary_deed {move : Move} (h : move.isBoundary = false) :
    (move.deed settings r).isBoundary = false := by
  cases move with
  | leaf e =>
    exact Deed.ofLeaf_cases (P := fun d => d.isBoundary = false) settings r e (fun _ _ => rfl)
      (fun _ => rfl) (fun _ _ _ => rfl) rfl
  | leavePartList => rfl
  | enterPart | leavePart | enterMeasure | leaveMeasure => exact nomatch h

/-- Where a measure is entered, it begins. -/
theorem Does.measureBegins {move : Move} (h : Does r s (move.deed settings r))
    (henter : move.entersMeasure = true) : MeasureBegins r s := by
  obtain ⟨e, rfl⟩ := Move.of_entersMeasure henter
  cases h with
  | enterMeasure begins => exact begins

/-- The clock of a course is the clock of the measure. -/
theorem Course.clock_tick (c : Course) (h : d.isBoundary = false) :
    (c.tick d).clock = c.clock.tick d := by
  cases d with
  | note input =>
    dsimp only [tick, Clock.tick]
    split <;> rfl
  | forward | backup | nothing => rfl
  | enterMeasure | leaveMeasure | enterPart | leavePart => exact nomatch h

/-- The clock of a course is the clock of the measure. -/
theorem Course.clock_run (c : Course) (h : ∀ m ∈ ms, m.move.isBoundary = false) :
    (c.run settings ms).clock = c.clock.run settings ms := by
  induction ms generalizing c with
  | nil => rfl
  | cons m ms ih =>
    have hrest := ih (c.tick (m.move.deed settings m.before)) fun m' hm' =>
      h m' (List.mem_cons_of_mem _ hm')
    rw [c.clock_tick (Move.isBoundary_deed (h m List.mem_cons_self))] at hrest
    exact hrest

/-! ## What a course knows of a voice -/

/-- What the course knows of a voice to which the measure has added some stretches. -/
structure Course.Knows (c : Course) (key : VoiceKey) (r : Reading) (added : List Span) : Prop where
  /-- A voice that was given nothing holds nothing, and does not stand behind the start. -/
  unfilled : c.filled key = false →
    added = [] ∧ r.cursor key ≤ 0 ∧ c.clock.ends key = 0 ∧ c.returned key = false
  /-- A voice that was given something ends where the clock says. -/
  filled : c.filled key = true →
    ∃ before last, added = before ++ [last] ∧ last.stop = c.clock.ends key
  /-- It stands at its end, as long as it has not gone back. -/
  stands : c.filled key = true → c.returned key = false → r.cursor key = c.clock.ends key
  /-- It stands before its end once it has. -/
  behind : c.returned key = true → r.cursor key < c.clock.ends key
  /-- It overlaps if and only if it was given something after it had gone back. -/
  apart : Apart added ↔ c.clash key = false
  tuplet : r.passage.tupletKey? = some key → c.filled key = true

/-- What the course tells of one voice of the part that is being read. -/
structure Course.Tells (c : Course) (base : List Span) (id : String) (key : VoiceKey)
    (r : Reading) : Prop where
  partId : r.partId? = some id
  shows : c.clock.Shows r
  current : r.passage.current = c.current
  voice : ∃ added, spans (r.music id key) = base ++ added ∧ c.Knows key r added

namespace Course

variable {c : Course} {a : Arrival}

namespace Knows

/-- Nothing is known of where the voice stands but what is seen of the reading. -/
theorem of_same {c' : Course} (h : c.Knows key r added) (hcursor : s.cursor key = r.cursor key)
    (htuplets : s.passage.tupletKey? = some key → r.passage.tupletKey? = some key)
    (hends : c'.clock.ends key = c.clock.ends key) (hfilled : c'.filled key = c.filled key)
    (hreturned : c'.returned key = c.returned key) (hclash : c'.clash key = c.clash key) :
    c'.Knows key s added := by
  obtain ⟨hunfilled, hlast, hstands, hbehind, hapart, htuplet⟩ := h
  rw [← hcursor, ← hends, ← hfilled, ← hreturned] at hunfilled
  rw [← hends, ← hfilled] at hlast
  rw [← hcursor, ← hends, ← hfilled, ← hreturned] at hstands
  rw [← hcursor, ← hends, ← hreturned] at hbehind
  rw [← hclash] at hapart
  rw [← hfilled] at htuplet
  exact ⟨hunfilled, hlast, hstands, hbehind, hapart, fun hkey => htuplet (htuplets hkey)⟩

/-- What a voice is given behind what it holds overlaps if and only if it had gone back. -/
theorem apart_arrive (h : c.Knows a.key r added)
    (horder : c.clock.ends a.key ≤ r.passage.position) :
    Apart (added ++ r.newSpans a) ↔ (c.arrive a).clash a.key = false := by
  have hclash : (c.arrive a).clash a.key = false ↔
      c.clash a.key = false ∧ c.returned a.key = false := by simp [arrive]
  rw [hclash, ← h.apart]
  cases hfilled : c.filled a.key with
  | false =>
    obtain ⟨rfl, _, _, hreturned⟩ := h.unfilled hfilled
    simp [r.apart_newSpans a, hreturned]
  | true =>
    obtain ⟨before, last, rfl, hstop⟩ := h.filled hfilled
    rw [Reading.apart_append_newSpans (hstop ▸ horder), hstop]
    apply and_congr_right
    intro _
    constructor
    · intro hreached
      by_contra hreturned
      exact absurd (h.behind (by simpa using hreturned)) (not_lt.mpr hreached)
    · intro hreturned
      exact (h.stands hfilled hreturned).ge

/-- The voice is given a note or rest that covers a stretch of its own. -/
theorem arrive_new (h : c.Knows a.key r added) (hshows : c.clock.Shows r)
    (horder : c.clock.ends a.key ≤ c.clock.time) (htime : a.duration = a.length)
    (hcursor : s.cursor a.key = c.clock.time + a.duration) :
    (c.arrive a).Knows a.key s (added ++ r.newSpans a) := by
  have hends : (c.arrive a).clock.ends a.key = c.clock.time + a.duration := if_pos rfl
  have honset := hshows.onset horder
  refine ⟨?_, ?_, ?_, ?_, h.apart_arrive (hshows.position ▸ horder), ?_⟩
  · intro hunfilled
    simp [arrive] at hunfilled
  · intro _
    refine ⟨added ++ r.padSpans a.key, ⟨r.onset a.key, a.length⟩, ?_, ?_⟩
    · simp [Reading.newSpans]
    · rw [Span.stop, honset, hends, htime]
  · intro _ _
    rw [hcursor, hends]
  · intro hreturned
    simp [arrive] at hreturned
  · intro _
    simp [arrive]

/-- The voice is given a note that prolongs the tuplet that stands last. -/
theorem arrive_more (h : c.Knows a.key r added) (hshows : c.clock.Shows r)
    (horder : c.clock.ends a.key ≤ c.clock.time) (htime : a.duration = a.length)
    (hcursor : s.cursor a.key = c.clock.time + a.duration)
    (hkey : r.passage.tupletKey? = some a.key) (hreached : r.passage.position ≤ r.cursor a.key)
    {rest : List Span} {last : Span} (hadded : added = rest ++ [last]) :
    (c.arrive a).Knows a.key s (rest ++ [⟨last.position, last.length + a.length⟩]) := by
  have hends : (c.arrive a).clock.ends a.key = c.clock.time + a.duration := if_pos rfl
  have hfilled := h.tuplet hkey
  obtain ⟨before, x, hsame, hstop⟩ := h.filled hfilled
  obtain ⟨rfl, rfl⟩ := eq_of_concat_eq (hadded.symm.trans hsame)
  rw [hshows.position] at hreached
  -- a tuplet is open, so the voice has come as far as the document and has not gone back
  have hreturned : c.returned a.key = false := by
    by_contra hreturned
    exact absurd (h.behind (by simpa using hreturned)) (not_lt.mpr (horder.trans hreached))
  have hnow : c.clock.ends a.key = c.clock.time :=
    le_antisymm horder (hreached.trans (h.stands hfilled hreturned).le)
  refine ⟨?_, ?_, ?_, ?_, ?_, ?_⟩
  · intro hunfilled
    simp [arrive] at hunfilled
  · intro _
    refine ⟨rest, _, rfl, ?_⟩
    rw [hends, htime, ← hnow, ← hstop]
    exact (add_assoc ..).symm
  · intro _ _
    rw [hcursor, hends]
  · intro hreturned
    simp [arrive] at hreturned
  · have hsame' : Apart (rest ++ [⟨last.position, last.length + a.length⟩]) ↔
        Apart (rest ++ [last]) := apart_prolong rfl
    rw [hsame', ← hadded, h.apart]
    simp [arrive, hreturned]
  · intro _
    simp [arrive]

end Knows

/-- A course stays right about a voice when some voice is given a note or rest. -/
theorem tells_arrive (h : c.Tells base id key r) (horderly : (c.arrive a).clock.orderly = true)
    (htime : a.duration = a.length) {at' : String} {current : VoiceKey}
    (hplaced : Placed r s at' a current) :
    ({ c.arrive a with current } : Course).Tells base id key s := by
  obtain ⟨horderly', _, horder⟩ := Clock.of_orderly_arrive horderly
  have hshows : (c.clock.arrive a).Shows s := Clock.tells_arrive (fun _ => h.shows) hplaced horderly
  have hid : id = at' := Option.some.inj (h.partId.symm.trans hplaced.partId)
  subst hid
  obtain ⟨added, hspans, hknows⟩ := h.voice
  refine ⟨hplaced.samePart, hshows, hplaced.current, ?_⟩
  by_cases hkey : key = a.key
  · subst hkey
    have hcursor : s.cursor a.key = c.clock.time + a.duration := by
      rw [hplaced.cursor, h.shows.onset horder]
      rfl
    rcases hplaced.spans with hnew | ⟨htuplet, hreached, before, last, hbefore, hafter⟩
    · have hnext := hknows.arrive_new h.shows horder htime hcursor
      refine ⟨added ++ r.newSpans a, ?_, hnext.of_same rfl (fun h => h) rfl rfl rfl rfl⟩
      rw [hnew, hspans, Reading.newSpans]
      simp only [List.append_assoc]
    · rw [hspans] at hbefore
      have hmore : added ≠ [] := by
        obtain ⟨before', last', hadded, _⟩ := hknows.filled (hknows.tuplet htuplet)
        simp [hadded]
      obtain ⟨rest, hadded, rfl⟩ := prolong_append hmore hbefore
      have hnext := hknows.arrive_more h.shows horder htime hcursor htuplet hreached hadded
      refine ⟨rest ++ [⟨last.position, last.length + a.length⟩], ?_, ?_⟩
      · rw [hafter, List.append_assoc]
      · exact hnext.of_same rfl (fun h => h) rfl rfl rfl rfl
  · have hother : (id, key) ≠ (id, a.key) := fun heq => hkey (congrArg Prod.snd heq)
    refine ⟨added, by rw [hplaced.others id key hother, hspans], ?_⟩
    refine hknows.of_same (hplaced.cursors key hkey) ?_ (if_neg hkey) ?_ ?_ ?_
    · intro htuplet
      exact absurd (hplaced.tuplets key htuplet) hkey
    · simp [arrive, hkey]
    · simp [arrive, hkey]
    · simp [arrive, hkey]

/-- What a course knows of the current voice is right after that voice went back. -/
theorem Knows.goBack {duration : WholeNotes} (h : c.Knows c.current r added)
    (hduration : 0 ≤ duration) (hnone : s.passage.tuplets = [])
    (hcursor : s.cursor c.current = r.cursor c.current - duration ∨
      s.cursor c.current = 0 ∧ r.cursor c.current = 0 ∧ added = []) :
    (c.goBack duration).Knows c.current s added := by
  have hreturned : (c.goBack duration).returned c.current =
      (c.returned c.current || (decide (0 < duration) && c.filled c.current)) := by
    simp [Course.goBack]
  refine ⟨?_, h.filled, ?_, ?_, h.apart, ?_⟩
  · intro hunfilled
    have hempty : c.filled c.current = false := hunfilled
    obtain ⟨hadded, hstart, hends, hstays⟩ := h.unfilled hempty
    refine ⟨hadded, ?_, hends, by simp [hreturned, hstays, hempty]⟩
    rcases hcursor with hmoved | ⟨hzero, _, _⟩
    · linarith
    · exact hzero.le
  · intro hfilled hstays
    have hthere : c.filled c.current = true := hfilled
    obtain ⟨hstays, hzero⟩ : c.returned c.current = false ∧ duration ≤ 0 := by
      simpa [hreturned, hthere] using hstays
    have hstands : r.cursor c.current = c.clock.ends c.current := h.stands hthere hstays
    change s.cursor c.current = c.clock.ends c.current
    rcases hcursor with hmoved | ⟨hmoved, hstart, _⟩
    · linarith
    · linarith
  · intro hgone
    have hcases : c.returned c.current = true ∨ 0 < duration ∧ c.filled c.current = true := by
      simpa [hreturned] using hgone
    change s.cursor c.current < c.clock.ends c.current
    have hthere : c.filled c.current = true := by
      rcases hcases with hbefore | ⟨_, hthere⟩
      · by_contra hempty
        have hstays := (h.unfilled (by simpa using hempty)).2.2.2
        simp [hbefore] at hstays
      · exact hthere
    have hadded : added ≠ [] := by
      obtain ⟨before, last, heq, _⟩ := h.filled hthere
      simp [heq]
    have hmoved := hcursor.resolve_right fun hempty => hadded hempty.2.2
    cases hstays : c.returned c.current with
    | true =>
      have hbehind := h.behind hstays
      linarith
    | false =>
      have hstands := h.stands hthere hstays
      obtain ⟨hpositive, _⟩ := hcases.resolve_left (by simp [hstays])
      linarith
  · intro htuplet
    simp [Passage.tupletKey?, hnone] at htuplet

/-- A course stays right about a voice after a movement back. -/
theorem tells_goBack {duration : WholeNotes} (h : c.Tells base id key r)
    (horderly : (c.goBack duration).clock.orderly = true) (hback : WentBack r s duration) :
    (c.goBack duration).Tells base id key s := by
  have hshows : (c.goBack duration).clock.Shows s :=
    Clock.tells_back (fun _ => h.shows) hback horderly
  have hduration : 0 ≤ duration := by
    have hboth : c.clock.orderly = true ∧ 0 ≤ duration := by
      simpa [goBack, Clock.tick] using horderly
    exact hboth.2
  obtain ⟨added, hspans, hknows⟩ := h.voice
  refine ⟨hback.partId.trans h.partId, hshows, hback.current.trans h.current, added,
    by rw [hback.music, hspans], ?_⟩
  by_cases hkey : key = c.current
  · subst hkey
    have hcursor := hback.cursor
    rw [h.current] at hcursor
    apply hknows.goBack hduration hback.tuplets
    refine hcursor.imp And.right ?_
    rintro ⟨_, hzero, hstart, hsilent⟩
    refine ⟨hzero, hstart, ?_⟩
    rw [hsilent id h.partId] at hspans
    exact (List.append_eq_nil_iff.mp hspans.symm).2
  · refine hknows.of_same (hback.cursors key (h.current ▸ hkey)) ?_ rfl rfl ?_ rfl
    · intro htuplet
      simp [Passage.tupletKey?, hback.tuplets] at htuplet
    · simp [goBack, hkey]

/-- What is seen of the reading stays the same, but for the current voice. -/
theorem Tells.of_same (h : c.Tells base id key r) {current : VoiceKey}
    (hpartId : s.partId? = r.partId?) (hspans : spans (s.music id key) = spans (r.music id key))
    (hcursor : s.cursor = r.cursor) (hposition : s.passage.position = r.passage.position)
    (hcurrent : s.passage.current = current) (htuplets : TupletsGoOn r s) :
    ({ c with current } : Course).Tells base id key s := by
  obtain ⟨added, hadded, hknows⟩ := h.voice
  refine ⟨hpartId.trans h.partId, ⟨hposition.trans h.shows.position, ?_⟩, hcurrent, added,
    hspans.trans hadded, ?_⟩
  · intro k
    rw [hcursor]
    exact h.shows.cursor k
  · refine hknows.of_same (congrFun hcursor key) ?_ rfl rfl rfl rfl
    intro htuplet
    rcases htuplets with hnone | hsame
    · simp [Passage.tupletKey?, hnone] at htuplet
    · exact hsame ▸ htuplet

/-- **A deed in a measure** keeps the course and the voice together. -/
theorem tells_tick (h : c.clock.orderly = true → c.Tells base id key r) (hdoes : Does r s d)
    (hinside : d.isBoundary = false) (hproper : ∀ input, d = .note input → input.Proper)
    (horderly : (c.tick d).clock.orderly = true) : (c.tick d).Tells base id key s := by
  cases hdoes with
  | @place input at' _ alone placed =>
    simp only [tick, alone, Bool.false_eq_true, if_false] at horderly ⊢
    have htime : input.arrival.duration = input.arrival.length := by
      unfold Arrival.duration
      by_cases hgrace : input.arrival.isGrace = true
      · rw [if_pos hgrace]
        exact ((hproper input rfl).timeless hgrace).symm
      · exact if_neg hgrace
    exact tells_arrive (h (Clock.of_orderly_arrive horderly).1) horderly htime placed
  | @join input at' _ member joined =>
    simp only [tick, member, if_true] at horderly ⊢
    have htells := h horderly
    exact htells.of_same (joined.samePart.trans joined.partId.symm) (joined.spans_eq id key)
      joined.cursor joined.position joined.current joined.tuplets
  | @forward k duration line at' placed =>
    have htells := h (Clock.of_orderly_arrive horderly).1
    rw [htells.current] at placed
    exact tells_arrive htells horderly rfl placed
  | @backup duration back =>
    have hboth : c.clock.orderly = true ∧ 0 ≤ duration := by
      simpa [tick, goBack, Clock.tick] using horderly
    exact tells_goBack (h hboth.1) horderly back
  | nothing quiet =>
    have htells := h horderly
    exact htells.of_same quiet.partId (by rw [quiet.music]) (funext quiet.cursor) quiet.position
      (quiet.current.trans htells.current) quiet.tuplets
  | enterMeasure | leaveMeasure | enterPart | leavePart => cases hinside

/-- The course of a measure keeps with the voice to the end. -/
theorem tells_run (h : c.clock.orderly = true → c.Tells base id key r)
    (hunfolds : Unfolds settings r ms t) (hinside : ∀ m ∈ ms, m.move.isBoundary = false)
    (horderly : (c.run settings ms).clock.orderly = true) :
    (c.run settings ms).Tells base id key t := by
  induction hunfolds generalizing c with
  | nil => exact h horderly
  | @cons m ms t _ hdoes _ _ ih =>
    refine ih ?_ (fun m' hm' => hinside m' (List.mem_cons_of_mem _ hm')) horderly
    exact tells_tick h hdoes (Move.isBoundary_deed (hinside m List.mem_cons_self))
      fun _ => Move.proper_of_deed

/-- The course at the start of a measure tells that nothing was added yet. -/
theorem tells_start (hnone : r.passage.tuplets = []) (hid : r.partId? = some id)
    (hbegins : MeasureBegins r s) (key : VoiceKey) :
    (start r.passage.current).Tells (spans (r.music id key)) id key s := by
  have hmusic : s.music = r.music := congrArg View.music hbegins.view
  have hcursor : s.cursor = fun _ => 0 := congrArg View.cursor hbegins.view
  refine ⟨(congrArg View.partId? hbegins.view).trans hid,
    ⟨congrArg View.position hbegins.view, fun k => by rw [hcursor]; exact le_refl _⟩,
    congrArg View.current hbegins.view, [], by rw [hmusic, List.append_nil], ?_⟩
  refine ⟨fun _ => ⟨rfl, by rw [hcursor], rfl, rfl⟩, nofun, nofun, nofun, by simp [start], ?_⟩
  intro htuplet
  simp [Passage.tupletKey?, hbegins.tuplets.none hnone] at htuplet

end Course

/-! ## Overlaps in documents -/

/-- **When elements overlap.** In a document with all notes inside of measures, let a measure be
given its notes in order. Its elements follow the elements that each voice of the part held before,
and those of a voice do not overlap if and only if the voice was given nothing after it had gone
back. -/
theorem Document.apart_iff {root : Element} {score : Score}
    (h : (Document.read settings root).score = .ok score)
    (hmeasured : measured false (movesOf root) = true) {before inside after : List Moment}
    {enter leave : Moment}
    (htrail : trail settings root = before ++ enter :: (inside ++ leave :: after))
    (henter : enter.move.entersMeasure = true) (hleave : leave.move.leavesMeasure = true)
    (hinside : ∀ m ∈ inside, m.move.isBoundary = false)
    (horderly : (Clock.run settings .start inside).orderly = true) :
    ∃ id, enter.before.partId? = some id ∧ ∃ added : VoiceKey → List Span,
      (∀ key, spans (leave.after.music id key) =
        spans (enter.before.music id key) ++ added key) ∧
      (∀ part ∈ score.parts, part.id = id → ∀ voice ∈ part.voices, ∃ later,
        spans voice.music = spans (enter.before.music id voice.key) ++ added voice.key ++ later) ∧
      ∀ key, Apart (added key) ↔
        (Course.run settings (.start enter.before.passage.current) inside).clash key = false := by
  obtain ⟨last, hunfolds, hcomplete, hmoves⟩ := Document.unfolds h
  rw [← hmoves, htrail] at hmeasured
  rw [htrail] at hunfolds
  obtain ⟨e', hleave⟩ := Move.of_leavesMeasure hleave
  have hnone := none_of_measured hunfolds hmeasured (fun _ => rfl) (Move.of_entersMeasure henter)
  obtain ⟨_, hmeasure⟩ := hunfolds.cut
  obtain ⟨-, hentered, -, hrest⟩ := hmeasure.of_cons
  obtain ⟨hwithin, hend⟩ := hrest.cut
  obtain ⟨-, hleft, -, hlater⟩ := hend.of_cons
  have begins := hentered.measureBegins henter
  obtain ⟨quiet, hclosed⟩ : Quiet leave.before leave.after ∧ leave.after.passage.tuplets = [] := by
    rw [hleave] at hleft
    cases hleft
    constructor <;> assumption
  obtain ⟨id, hid⟩ := begins.inPart
  have hcourse : ∀ key, (Course.run settings (.start enter.before.passage.current) inside).Tells
      (spans (enter.before.music id key)) id key leave.before := by
    intro key
    refine Course.tells_run (fun _ => Course.tells_start hnone hid begins key) hwithin hinside ?_
    rw [Course.clock_run _ hinside]
    exact horderly
  choose added hadded hknows using fun key => (hcourse key).voice
  have hmusic : ∀ key, spans (leave.after.music id key) =
      spans (enter.before.music id key) ++ added key := by
    intro key
    rw [quiet.music, hadded]
  refine ⟨id, hid, added, hmusic, ?_, fun key => (hknows key).apart⟩
  rintro part hpart rfl voice hvoice
  obtain ⟨later, hspans, _⟩ := (Grown.refl hclosed part.id voice.key).unfolds hlater
  refine ⟨later, ?_⟩
  rw [← hmusic, ← hspans, hcomplete.music hpart, Part.music, hcomplete.voice? hpart hvoice]
  rfl

/-- A voice that holds a note already is returned to after a movement back and a note of another
voice. -/
def returningVoice : Element :=
  singleMeasure [noteElement 1 "C" "1" "1" [], backupElement "1", noteElement 2 "E" "2" "1" [],
    noteElement 3 "D" "1" "1" []]

/-- The moments of its only measure. -/
def insideReturningVoice : List Moment :=
  ((trail {} returningVoice).drop 4).take 4

/-- The notes come in order, but the padding of the first voice covers the time of its first
note. -/
theorem Document.overlap_returningVoice : ∃ score, ∃ part ∈ score.parts, ∃ voice ∈ part.voices,
    (Document.read {} returningVoice).score = .ok score ∧
      measured false (movesOf returningVoice) = true ∧
      (Clock.run {} .start insideReturningVoice).orderly = true ∧ voice.key = ⟨1, 1⟩ ∧
      spans voice.music = [⟨0, 1 / 4⟩, ⟨0, 1 / 4⟩, ⟨1 / 4, 1 / 4⟩] ∧
      ¬ Apart (spans voice.music) := by
  have hthere : hasVoice returningVoice "P" ⟨1, 1⟩ (fun voice =>
      spans voice.music = [⟨0, 1 / 4⟩, ⟨0, 1 / 4⟩, ⟨1 / 4, 1 / 4⟩]) = true := by
    decide +kernel
  obtain ⟨score, part, hpart, voice, hvoice, hread, _, hkey, hholds⟩ := exists_voice hthere
  have hspans := of_decide_eq_true hholds
  refine ⟨score, part, hpart, voice, hvoice, hread, by decide +kernel, by decide +kernel, hkey,
    hspans, ?_⟩
  rw [hspans]
  decide +kernel

/-- A list may be taken apart at two of its places. -/
theorem eq_split {α : Type} (xs : List α) {i n : Nat} (hi : i < xs.length)
    (hn : i + 1 + n < xs.length) : xs = xs.take i ++ xs.get ⟨i, hi⟩ ::
      ((xs.drop (i + 1)).take n ++ xs.get ⟨i + 1 + n, hn⟩ :: xs.drop (i + 1 + n + 1)) := by
  have hlast := List.take_append_drop n (xs.drop (i + 1))
  rw [List.drop_drop, List.drop_eq_getElem_cons hn] at hlast
  have hfirst := List.take_append_drop i xs
  rw [List.drop_eq_getElem_cons hi, ← hlast] at hfirst
  exact hfirst.symm

/-- Of the two voices only the first comes to overlap. -/
theorem Document.apart_iff_returningVoice : ∃ score, ∃ added : VoiceKey → List Span,
    (Document.read {} returningVoice).score = .ok score ∧ ¬ Apart (added ⟨1, 1⟩) ∧
      Apart (added ⟨1, 2⟩) := by
  have hthere : hasVoice returningVoice "P" ⟨1, 1⟩ (fun _ => true) = true := by decide +kernel
  obtain ⟨score, _, _, _, _, hread, _⟩ := exists_voice hthere
  obtain ⟨_, _, added, _, _, hiff⟩ := Document.apart_iff hread (by decide +kernel)
    (eq_split (trail {} returningVoice) (show 3 < _ by decide +kernel)
      (show 3 + 1 + 4 < _ by decide +kernel))
    (by decide +kernel) (by decide +kernel) (by decide +kernel) (by decide +kernel)
  refine ⟨score, added, hread, ?_, ?_⟩
  · rw [hiff]
    decide +kernel
  · rw [hiff]
    decide +kernel

end Partwise
