import Mathlib.Order.Basic
import Partwise.Proofs.Music.Overlap

/-!
# Music · Tones: what is given to voices, and how far they come by it

A tone is a stretch of time that a voice is given: a note, a rest, or the padding before it
(`Reading.tones`). Members of chords add none. The leaves that a deed adds to a voice stand where
its tones are (`Does.leafSpans_eq`), so all leaves of a score are told by the tones of its document.

The passage keeps how far each voice came in the measure, and so how far any did. Both are the
farthest ends of tones that are no grace notes (`Passage.Extends`), since a grace note brings its
voice nowhere. Grace notes may be counted as well if no movement back in time leads forward
(`Reading.Behind`): then no voice stands farther than it came, and a grace note ends where its voice
stands.
-/

namespace Partwise

open Markup

variable {settings : Settings} {r s t : Reading} {ms : List Moment} {d : Deed} {id : String}
  {key k : VoiceKey} {p q : Passage} {a : Arrival} {before : VoiceKey → VoiceKey → Bool}

/-! ## The farthest position -/

/-- The farthest of some positions, or the start of the measure if all are before it. -/
def farthest (stops : List WholeNotes) : WholeNotes := stops.foldl max 0

/-- Some positions lead no farther than a bound from a start, if neither the start nor any of them
does. -/
theorem foldl_max_le {x y : WholeNotes} {stops : List WholeNotes} :
    stops.foldl max x ≤ y ↔ x ≤ y ∧ ∀ stop ∈ stops, stop ≤ y := by
  induction stops generalizing x with
  | nil => simp
  | cons stop stops ih => rw [List.foldl_cons, ih, max_le_iff, List.forall_mem_cons, and_assoc]

/-- The farthest position is within a bound that is not negative and that no position is beyond. -/
theorem farthest_le {y : WholeNotes} {stops : List WholeNotes} :
    farthest stops ≤ y ↔ 0 ≤ y ∧ ∀ stop ∈ stops, stop ≤ y :=
  foldl_max_le

/-- No position is beyond the farthest one. -/
theorem le_farthest {stop : WholeNotes} {stops : List WholeNotes} (h : stop ∈ stops) :
    stop ≤ farthest stops :=
  (farthest_le.mp le_rfl).2 stop h

/-- The farthest position is not before the start of the measure. -/
theorem zero_le_farthest (stops : List WholeNotes) : 0 ≤ farthest stops :=
  (farthest_le.mp le_rfl).1

/-- More positions lead farther. -/
theorem farthest_mono {stops stops' : List WholeNotes} (h : ∀ stop ∈ stops, stop ∈ stops') :
    farthest stops ≤ farthest stops' :=
  farthest_le.mpr ⟨zero_le_farthest _, fun stop hstop => le_farthest (h stop hstop)⟩

/-! ## How far the voices of a passage came -/

/-- What is found under a key in a list that begins with an entry. -/
theorem lookup_cons_entry (e : VoiceKey × WholeNotes) (es : List (VoiceKey × WholeNotes)) :
    (e :: es).lookup k = if k = e.1 then some e.2 else es.lookup k := by
  rw [List.lookup_cons]
  by_cases hk : k = e.1
  · simp [hk]
  · simp [hk, beq_eq_false_iff_ne.mpr hk]

/-- Under the key of an entry that was put into a list stands that entry, under others what stood
there. -/
theorem lookup_upsert (x : WholeNotes) (es : List (VoiceKey × WholeNotes)) :
    (upsert before Prod.fst (key, x) es).lookup k = if k = key then some x else es.lookup k := by
  induction es with
  | nil => exact lookup_cons_entry _ _
  | cons e es ih =>
    unfold upsert
    split
    · next hsame =>
      have hsame : key = e.1 := hsame
      rw [lookup_cons_entry, lookup_cons_entry, hsame]
      split <;> rfl
    · next hother =>
      have hother : key ≠ e.1 := hother
      split
      · exact lookup_cons_entry _ _
      · rw [lookup_cons_entry, lookup_cons_entry, ih]
        split
        · next hk => rw [if_neg (hk ▸ hother.symm)]
        · rfl

/-- A voice that comes farther brings the farthest position there. -/
theorem farthest_upsert {x y : WholeNotes} {es : List (VoiceKey × WholeNotes)}
    (h : ∀ w, es.lookup key = some w → w ≤ x) :
    farthest ((upsert before Prod.fst (key, x) es).map Prod.snd) ≤ y ↔
      farthest (es.map Prod.snd) ≤ y ∧ x ≤ y := by
  induction es with
  | nil => simp [upsert, farthest_le]
  | cons e es ih =>
    have hfirst : key = e.1 → e.2 ≤ x := fun hsame =>
      h e.2 (by rw [lookup_cons_entry, if_pos hsame])
    have hrest : key ≠ e.1 → ∀ w, es.lookup key = some w → w ≤ x := fun hother w hw =>
      h w (by rw [lookup_cons_entry, if_neg hother, hw])
    unfold upsert
    split
    · next hsame =>
      have hlater := fun hx : x ≤ y => (hfirst hsame).trans hx
      simp only [farthest_le, List.map_cons, List.forall_mem_cons]
      tauto
    · next hother =>
      have hothers := ih (hrest hother)
      split <;> simp only [farthest_le, List.map_cons, List.forall_mem_cons] at hothers ⊢ <;> tauto

namespace Passage

/-- A voice that reached a position came as far as that or as it had come, whichever is farther, and
others as far as before. -/
theorem extent_reach (p : Passage) (key k : VoiceKey) (stop : WholeNotes) :
    (p.reach key stop).extent k = if k = key then max (p.extent key) stop else p.extent k := by
  have hfar : (if Rat.blt (p.extent key) stop then stop else p.extent key) =
      max (p.extent key) stop := by
    rw [max_def_lt]
    exact if_congr (WholeNotes.blt_iff _ _) rfl rfl
  unfold reach
  dsimp only
  rw [extent, lookup_upsert, hfar]
  split <;> rfl

/-- How far any voice came is the farthest of how far each came. -/
theorem longest_eq (p : Passage) : p.longest = farthest (p.extents.map Prod.snd) := by
  rw [longest, farthest, List.foldl_map]
  congr 1
  funext x e
  rw [max_def_lt]
  exact if_congr (WholeNotes.blt_iff _ _) rfl rfl

/-- No voice came farther than the measure is long. -/
theorem extent_le_longest (p : Passage) (key : VoiceKey) : p.extent key ≤ p.longest := by
  rw [longest_eq, extent]
  cases hlookup : p.extents.lookup key with
  | none => exact zero_le_farthest _
  | some x =>
    obtain ⟨_, _, hthere, -⟩ := List.lookup_eq_some_iff.mp hlookup
    exact le_farthest (List.mem_map.mpr ⟨(key, x), by simp [hthere], rfl⟩)

/-- A measure in which a position was reached is as long as that or as it was, whichever is longer.
-/
theorem longest_reach (p : Passage) (key : VoiceKey) (stop : WholeNotes) :
    (p.reach key stop).longest = max p.longest stop := by
  have hhere : (p.reach key stop).extents =
      upsert VoiceKey.before Prod.fst (key, (p.reach key stop).extent key) p.extents := by
    rw [extent, reach, lookup_upsert, if_pos rfl]
    rfl
  have hfar : (p.reach key stop).extent key = max (p.extent key) stop := by
    rw [extent_reach, if_pos rfl]
  rw [hfar] at hhere
  refine eq_of_forall_ge_iff fun y => ?_
  rw [longest_eq, hhere, farthest_upsert, ← longest_eq, max_le_iff, max_le_iff]
  · exact ⟨fun h => ⟨h.1, h.2.2⟩, fun h => ⟨h.1, (p.extent_le_longest key).trans h.1, h.2⟩⟩
  · intro w hw
    rw [extent, hw]
    exact le_max_left _ _

/-- A voice that came to some positions came as far as the farthest of them or as it had come. -/
theorem extent_reachAll (p : Passage) (key k : VoiceKey) (stops : List WholeNotes) :
    (p.reachAll key stops).extent k =
      if k = key then stops.foldl max (p.extent key) else p.extent k := by
  induction stops generalizing p with
  | nil =>
    split
    · next hk => rw [hk]; rfl
    · rfl
  | cons stop stops ih =>
    rw [reachAll, List.foldl_cons]
    refine (ih (p.reach key stop)).trans ?_
    rw [extent_reach, extent_reach, if_pos rfl]
    split <;> rfl

/-- A measure in which some positions were reached is as long as the farthest of them or as it was.
-/
theorem longest_reachAll (p : Passage) (key : VoiceKey) (stops : List WholeNotes) :
    (p.reachAll key stops).longest = stops.foldl max p.longest := by
  induction stops generalizing p with
  | nil => rfl
  | cons stop stops ih =>
    rw [reachAll, List.foldl_cons, List.foldl_cons, ← longest_reach]
    exact ih (p.reach key stop)

end Passage

/-! ## Tones -/

/-- A stretch of time that a voice is given. -/
structure Tone where
  key : VoiceKey
  span : Span
  isGrace : Bool
deriving DecidableEq, Repr

/-- The tones of a voice. -/
def tonesOf (key : VoiceKey) (ts : List Tone) : List Tone := ts.filter fun tone => tone.key = key

/-- Where those tones end that are no grace notes. -/
def timedStops (ts : List Tone) : List WholeNotes :=
  (ts.filter fun tone => !tone.isGrace).map fun tone => tone.span.stop

/-- How far a voice comes by some tones. -/
def endOf (ts : List Tone) (key : VoiceKey) : WholeNotes := farthest (timedStops (tonesOf key ts))

/-- Where the last tone of a voice ends, grace notes included. -/
def fullEndOf (ts : List Tone) (key : VoiceKey) : WholeNotes :=
  farthest ((tonesOf key ts).map fun tone => tone.span.stop)

/-- The tones of a voice among some and then others are those among them all. -/
@[simp] theorem tonesOf_append (key : VoiceKey) (ts us : List Tone) :
    tonesOf key (ts ++ us) = tonesOf key ts ++ tonesOf key us :=
  List.filter_append ..

/-- Where timed tones end is told tone by tone. -/
@[simp] theorem timedStops_append (ts us : List Tone) :
    timedStops (ts ++ us) = timedStops ts ++ timedStops us := by
  simp [timedStops]

/-- Further tones lead farther. -/
theorem endOf_append (ts us : List Tone) (key : VoiceKey) :
    endOf (ts ++ us) key = (timedStops (tonesOf key us)).foldl max (endOf ts key) := by
  rw [endOf, tonesOf_append, timedStops_append, farthest, List.foldl_append]
  rfl

/-- No voice comes less far by further tones. -/
theorem endOf_le_append (ts us : List Tone) (key : VoiceKey) : endOf ts key ≤ endOf (ts ++ us) key := by
  rw [endOf_append]
  exact (foldl_max_le.mp le_rfl).1

/-- A tone that is no grace note ends where its voice came at the latest. -/
theorem Tone.stop_le_endOf {tone : Tone} {ts : List Tone} (h : tone ∈ ts)
    (htimed : tone.isGrace = false) : tone.span.stop ≤ endOf ts tone.key := by
  refine le_farthest (List.mem_map.mpr ⟨tone, List.mem_filter.mpr ⟨?_, by simp [htimed]⟩, rfl⟩)
  exact List.mem_filter.mpr ⟨h, by simp⟩

/-- The tones of a note or rest: its padding, and itself. -/
def Reading.tones (r : Reading) (a : Arrival) : List Tone :=
  (r.padSpans a.key).map (Tone.mk a.key · false) ++
    [⟨a.key, ⟨r.onset a.key, a.length⟩, a.isGrace⟩]

/-- The tones that a deed gives. -/
def Deed.tones (r : Reading) (d : Deed) : List Tone := d.arrival?.elim [] r.tones

/-- The tones that a moment gives. -/
def Moment.tones (settings : Settings) (m : Moment) : List Tone :=
  (m.move.deed settings m.before).tones m.before

/-- The tones of a note are those of its own voice. -/
theorem Reading.key_of_mem_tones {tone : Tone} (h : tone ∈ r.tones a) : tone.key = a.key := by
  rcases List.mem_append.mp h with h | h
  · obtain ⟨_, _, rfl⟩ := List.mem_map.mp h
    rfl
  · rw [List.mem_singleton.mp h]

/-- The tones of a note are all of its own voice, and of no other. -/
theorem Reading.tonesOf_tones : tonesOf k (r.tones a) = if k = a.key then r.tones a else [] := by
  split
  · next hk => exact List.filter_eq_self.mpr fun tone h => by simp [key_of_mem_tones h, hk]
  · next hk =>
    refine List.filter_eq_nil_iff.mpr fun tone h => ?_
    simpa [key_of_mem_tones h] using Ne.symm hk

/-- The tones of a note cover the stretches of its padding and its own. -/
theorem Reading.spans_tones :
    (r.tones a).map Tone.span = r.padSpans a.key ++ [⟨r.onset a.key, a.length⟩] := by
  simp [tones, Function.comp_def]

/-- The tones of a note bring the voice to the positions that the note brings it to. -/
theorem Reading.timedStops_tones : timedStops (r.tones a) = r.stops a := by
  unfold tones stops padSpans padStops
  rw [timedStops_append]
  congr 1
  · split <;> simp [timedStops, Span.stop]
  · cases a.isGrace <;> simp [timedStops, Span.stop]

/-! ## Leaves -/

/-- The stretch of time of a leaf. -/
def Leaf.span : Leaf → Span
  | .note n => ⟨n.positionInMeasure, n.soundingWholeNotes⟩
  | .chord c => ⟨c.positionInMeasure, c.soundingWholeNotes⟩

/-- The stretches of time of the leaves of some elements. -/
def leafSpans (es : List VoiceElement) : List Span := (leavesOf es).map Leaf.span

/-- Notes cover the same time as leaves and as elements. -/
theorem leafSpans_notes (ns : List Note) : leafSpans (ns.map .note) = spans (ns.map .note) := by
  rw [leafSpans, leavesOf_notes, List.map_map, spans, List.map_map]
  rfl

/-- Members of chords take no time of their own. -/
theorem Leaf.Joined.span_eq {n : Note} {l l' : Leaf} (h : l.Joined n l') : l'.span = l.span := by
  cases h <;> rfl

/-- A note that joins the last leaf leaves all stretches of time as they are. -/
theorem JoinsLeaf.spans_eq {n : Note} {ls ls' : List Leaf} (h : JoinsLeaf n ls ls') :
    ls'.map Leaf.span = ls.map Leaf.span := by
  obtain ⟨joined⟩ := h
  simp [joined.span_eq]

/-- A note or rest comes in as the last leaf, behind its padding. -/
theorem Alights.leafSpans_eq {n : Note} (h : Alights r s id a n) :
    leafSpans (s.music id a.key) = leafSpans (r.music id a.key) ++ (r.tones a).map Tone.span := by
  obtain ⟨rests, before, after, old, new, starts, hadmits⟩ := h.admits
  have hnopads (hsome : old ≠ []) : rests.map VoiceElement.note = [] := by
    have hpadded := hadmits.padded
    rw [Reading.padSpans, if_neg (not_lt.mpr (hadmits.opened hsome).2)] at hpadded
    exact List.map_eq_nil_iff.mp hpadded
  have hspan : Leaf.span (.note n) = ⟨r.onset a.key, a.length⟩ := by
    rw [Leaf.span, h.onset, h.length]
  rw [hadmits.music_after, leafSpans, hadmits.came.leaves_eq hnopads, List.map_append,
    List.map_append, List.map_singleton, hspan, ← hadmits.music, Reading.spans_tones,
    List.append_assoc, ← hadmits.padded, ← leafSpans_notes]
  rfl

/-- What takes its place stands where its tones are. -/
theorem leafSpans_of_alights {at' : String} {n : Note} (hplaced : r.partId? = some at')
    (hothers : ∀ id' k, (id', k) ≠ (at', a.key) → s.music id' k = r.music id' k)
    (h : Alights r s at' a n) :
    leafSpans (s.music id key) = leafSpans (r.music id key) ++
      if r.partId? = some id then (tonesOf key (r.tones a)).map Tone.span else [] := by
  by_cases hhere : (id, key) = (at', a.key)
  · cases hhere
    rw [h.leafSpans_eq, if_pos hplaced, Reading.tonesOf_tones, if_pos rfl]
  · have hnone : (if r.partId? = some id then (tonesOf key (r.tones a)).map Tone.span else []) =
        [] := by
      split
      · next hid =>
        have hkey : key ≠ a.key := by
          rintro rfl
          exact hhere (by rw [Option.some.inj (hid.symm.trans hplaced)])
        rw [Reading.tonesOf_tones, if_neg hkey, List.map_nil]
      · rfl
    rw [hothers id key hhere, hnone, List.append_nil]

/-- Nothing but notes that are no members of chords and movements forward takes time. -/
theorem Deed.tones_eq_nil (h : d.voice? = none) : d.tones r = [] := by
  cases harrival : d.arrival? with
  | none => rw [tones, harrival, Option.elim_none]
  | some a => exact nomatch h.symm.trans (Deed.voice?_of_arrival harrival)

/-- **A deed adds leaves where its tones are.** -/
theorem Does.leafSpans_eq (h : Does r s d) (halone : ∀ id, d = .enterPart id → r.partId? = none)
    (id : String) (key : VoiceKey) :
    leafSpans (s.music id key) = leafSpans (r.music id key) ++
      if r.partId? = some id then (tonesOf key (d.tones r)).map Tone.span else [] := by
  have hunheard (hvoice : d.voice? = none) :
      leafSpans (s.music id key) = leafSpans (r.music id key) ++
        if r.partId? = some id then (tonesOf key (d.tones r)).map Tone.span else [] := by
    rw [h.music_other halone (by simp [hvoice]), Deed.tones_eq_nil hvoice]
    simp [tonesOf]
  cases h with
  | @place input at' _ alone placed _ _ _ alights =>
    obtain ⟨n, halights⟩ := alights
    have htones : (Deed.note input).tones r = r.tones input.arrival := by
      simp [Deed.tones, Deed.arrival?, alone]
    rw [htones]
    exact leafSpans_of_alights placed.partId placed.others halights
  | @join input at' _ member joined _ _ folds =>
    have htones : (Deed.note input).tones r = [] := by simp [Deed.tones, Deed.arrival?, member]
    have hsame : leafSpans (s.music id key) = leafSpans (r.music id key) := by
      by_cases hhere : (id, key) = (at', input.key)
      · cases hhere
        obtain ⟨n, -, hjoins⟩ := folds.joins
        exact hjoins.spans_eq
      · rw [joined.others id key hhere]
    rw [hsame, htones]
    simp [tonesOf]
  | forward placed _ _ _ alights =>
    obtain ⟨n, halights⟩ := alights
    exact leafSpans_of_alights placed.partId placed.others halights
  | backup | enterMeasure | leaveMeasure | enterPart | leavePart | nothing => exact hunheard rfl

/-- The tones that some moments give to a voice of a part, from where a given part is current. -/
def tonesTo (settings : Settings) (id : String) (key : VoiceKey) :
    Option String → List Moment → List Tone
  | _, [] => []
  | part?, m :: ms =>
    (if part? = some id then tonesOf key (m.tones settings) else []) ++
      tonesTo settings id key ((m.move.deed settings m.before).partAfter part?) ms

/-- The leaves of a voice stand where they stood, and then where the moments give it tones. -/
theorem Unfolds.leafSpans_eq (h : Unfolds settings r ms t) (id : String) (key : VoiceKey) :
    leafSpans (t.music id key) = leafSpans (r.music id key) ++
      (tonesTo settings id key r.partId? ms).map Tone.span := by
  induction h with
  | nil r => simp [tonesTo]
  | @cons m ms t _ hdoes halone _ ih =>
    rw [ih, hdoes.leafSpans_eq halone, hdoes.partId, tonesTo, List.map_append, List.append_assoc,
      Moment.tones]
    split <;> simp

/-! ## Extents -/

/-- The voices came as far as the tones of the measure bring them, and so did the longest one. -/
structure Passage.Extends (p : Passage) (ts : List Tone) : Prop where
  extent : ∀ key, p.extent key = endOf ts key
  longest : p.longest = farthest (timedStops ts)

namespace Passage.Extends

variable {ts : List Tone}

/-- Where a measure begins no voice has come anywhere. -/
theorem start (h : p.extents = []) : p.Extends [] := by
  refine ⟨fun key => ?_, ?_⟩
  · rw [Passage.extent, h]
    rfl
  · rw [Passage.longest_eq, h]
    rfl

/-- Only the headway matters. -/
theorem of_headway (h : p.Extends ts) (hheadway : q.headway = p.headway) : q.Extends ts := by
  have hextents : q.extents = p.extents := congrArg Prod.snd hheadway
  refine ⟨fun key => ?_, ?_⟩
  · rw [Passage.extent, hextents]
    exact h.extent key
  · rw [Passage.longest, hextents]
    exact h.longest

/-- A note or rest brings its voice to where its tones end. -/
theorem reachAll (h : r.passage.Extends ts) (a : Arrival) :
    (r.passage.reachAll a.key (r.stops a)).Extends (ts ++ r.tones a) := by
  refine ⟨fun key => ?_, ?_⟩
  · rw [Passage.extent_reachAll, endOf_append, Reading.tonesOf_tones]
    split
    · next hkey => rw [Reading.timedStops_tones, h.extent, hkey]
    · exact h.extent key
  · rw [Passage.longest_reachAll, h.longest, timedStops_append, Reading.timedStops_tones, farthest,
      farthest, List.foldl_append]

end Passage.Extends

/-- Within a measure the headway is that of a voice that takes up what arrives, if anything does. -/
theorem Does.headway_eq (h : Does r s d) (hd : d.isBoundary = false) :
    s.passage.headway =
      (d.arrival?.elim r.passage fun a => r.passage.reachAll a.key (r.stops a)).headway := by
  cases h with
  | place alone _ _ _ _ alights =>
    obtain ⟨n, halights⟩ := alights
    rw [Deed.arrival?, if_neg (by simp [alone])]
    exact halights.headway
  | join member _ _ _ _ absorbs =>
    rw [Deed.arrival?, if_pos member]
    exact absorbs.headway
  | forward _ _ _ _ alights =>
    obtain ⟨n, halights⟩ := alights
    exact halights.headway
  | backup _ headway | nothing _ headway => exact headway
  | enterMeasure | leaveMeasure | enterPart | leavePart => cases hd

/-- The measure stays the same in a deed that is no boundary. -/
theorem Does.measureNumber (h : Does r s d) (hd : d.isBoundary = false) :
    s.passage.measureNumber = r.passage.measureNumber := by
  have hheadway := congrArg Prod.fst (h.headway_eq hd)
  cases harrival : d.arrival? with
  | none =>
    rw [harrival] at hheadway
    exact hheadway
  | some a =>
    rw [harrival] at hheadway
    exact hheadway.trans (r.passage.measureNumber_reachAll a.key _)

/-- **Within a measure** voices come as far as the tones of a deed bring them. -/
theorem Does.extents {ts : List Tone} (h : Does r s d) (hd : d.isBoundary = false)
    (hextents : r.passage.Extends ts) : s.passage.Extends (ts ++ d.tones r) := by
  have hheadway := h.headway_eq hd
  rw [Deed.tones]
  cases harrival : d.arrival? with
  | none =>
    rw [harrival] at hheadway
    rw [Option.elim_none, List.append_nil]
    exact hextents.of_headway hheadway
  | some a =>
    rw [harrival] at hheadway
    exact (hextents.reachAll a).of_headway hheadway

/-! ## Grace notes -/

/-- The deed is no movement back in time with a negative duration. -/
def Deed.leadsBack : Deed → Bool
  | backup duration => 0 ≤ duration
  | _ => true

/-- No voice stands farther than it came, and all its tones end there at the latest. -/
structure Reading.Behind (r : Reading) (ts : List Tone) : Prop where
  cursor : ∀ key, r.cursor key ≤ endOf ts key
  stop : ∀ tone ∈ ts, tone.span.stop ≤ endOf ts tone.key

namespace Reading.Behind

variable {ts : List Tone}

/-- Grace notes may be counted then. -/
theorem fullEndOf_eq (h : r.Behind ts) (key : VoiceKey) : fullEndOf ts key = endOf ts key := by
  refine le_antisymm (farthest_le.mpr ⟨zero_le_farthest _, fun stop hstop => ?_⟩)
    (farthest_mono fun stop hstop => ?_)
  · obtain ⟨tone, htone, rfl⟩ := List.mem_map.mp hstop
    obtain ⟨hthere, hkey⟩ := List.mem_filter.mp htone
    exact of_decide_eq_true hkey ▸ h.stop tone hthere
  · obtain ⟨tone, htone, rfl⟩ := List.mem_map.mp hstop
    exact List.mem_map_of_mem (List.mem_filter.mp htone).1

/-- What is seen of the reading stays the same. -/
theorem of_same (h : r.Behind ts) (hcursor : s.cursor = r.cursor) : s.Behind ts :=
  ⟨fun key => hcursor ▸ h.cursor key, h.stop⟩

/-- Padding and cursor bring a voice to the onset of what it is given. -/
theorem onset_le (h : r.Behind ts) (a : Arrival) :
    r.onset a.key ≤ endOf (ts ++ r.tones a) a.key := by
  refine max_le ?_ ((h.cursor a.key).trans (endOf_le_append ..))
  by_cases hbehind : r.cursor a.key < r.passage.position
  · have hpad : Tone.mk a.key ⟨r.cursor a.key, r.passage.position - r.cursor a.key⟩ false ∈
        ts ++ r.tones a := by
      simp [Reading.tones, Reading.padSpans, hbehind]
    simpa [Span.stop] using Tone.stop_le_endOf hpad rfl
  · exact (not_lt.mp hbehind).trans ((h.cursor a.key).trans (endOf_le_append ..))

/-- No voice stands farther than it came once a note or rest took its place. -/
theorem of_placed (h : r.Behind ts) {current : VoiceKey} (hplaced : Placed r s id a current)
    (htimeless : a.isGrace = true → a.length = 0) : s.Behind (ts ++ r.tones a) := by
  have honset := h.onset_le a
  have hlast : r.onset a.key + a.length ≤ endOf (ts ++ r.tones a) a.key := by
    cases hgrace : a.isGrace with
    | true => rwa [htimeless hgrace, add_zero]
    | false =>
      have htone : Tone.mk a.key ⟨r.onset a.key, a.length⟩ false ∈ ts ++ r.tones a := by
        simp [Reading.tones, hgrace]
      simpa only [Span.stop] using Tone.stop_le_endOf htone rfl
  refine ⟨fun key => ?_, fun tone htone => ?_⟩
  · by_cases hkey : key = a.key
    · rw [hkey, hplaced.cursor]
      split
      · rwa [add_zero]
      · exact hlast
    · rw [hplaced.cursors key hkey]
      exact (h.cursor key).trans (endOf_le_append ..)
  · rcases List.mem_append.mp htone with hold | hnew
    · exact (h.stop tone hold).trans (endOf_le_append ..)
    · cases hgrace : tone.isGrace with
      | false => exact Tone.stop_le_endOf htone hgrace
      | true =>
        rcases List.mem_append.mp hnew with hpad | hself
        · obtain ⟨_, _, rfl⟩ := List.mem_map.mp hpad
          cases hgrace
        · rw [List.mem_singleton.mp hself]
          simpa only [Span.stop] using hlast

/-- **Within a measure** voices stay behind where they came, if movements back lead back. -/
theorem step (h : r.Behind ts) (hdoes : Does r s d) (hd : d.isBoundary = false)
    (htimeless : ∀ a, d.arrival? = some a → a.isGrace = true → a.length = 0)
    (hback : d.leadsBack = true) : s.Behind (ts ++ d.tones r) := by
  have hplace {a : Arrival} {at' : String} {current : VoiceKey} (harrival : d.arrival? = some a)
      (hplaced : Placed r s at' a current) : s.Behind (ts ++ d.tones r) := by
    rw [Deed.tones, harrival]
    exact h.of_placed hplaced (htimeless a harrival)
  have hstay (harrival : d.arrival? = none) (hcursor : ∀ key, s.cursor key ≤ r.cursor key) :
      s.Behind (ts ++ d.tones r) := by
    rw [Deed.tones, harrival, Option.elim_none, List.append_nil]
    exact ⟨fun key => (hcursor key).trans (h.cursor key), h.stop⟩
  cases hdoes with
  | place alone placed => exact hplace (by simp [Deed.arrival?, alone]) placed
  | join member joined =>
    exact hstay (by simp [Deed.arrival?, member]) fun key => (congrFun joined.cursor key).le
  | forward placed => exact hplace rfl placed
  | @backup duration back =>
    refine hstay rfl fun key => ?_
    have hduration : 0 ≤ duration := of_decide_eq_true hback
    by_cases hkey : key = r.passage.current
    · rw [hkey]
      rcases back.cursor with ⟨_, hmoved⟩ | ⟨_, hstart, hstarted, _⟩
      · linarith
      · linarith
    · exact (back.cursors key hkey).le
  | nothing quiet => exact hstay rfl fun key => (quiet.cursor key).le
  | enterMeasure | leaveMeasure | enterPart | leavePart => cases hd

end Reading.Behind

end Partwise
