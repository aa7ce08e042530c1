import Partwise.Proofs.Music.Checks
import Partwise.Proofs.Music.Graces
import Partwise.Proofs.Music.Tones
import Partwise.Proofs.Reading.Timing

/-!
# Music · Extents: voices that are shorter than their measure

Where a measure is left, its voices are found that did not come as far as the longest one. How far
they came is kept by the reading from note to note. Here it is told by what the measure gave: a
`MeasureRun` is a measure with the moments in it so far, its voices are those that were given a note
or a movement forward, and each came to where the last of its tones ends (`MeasureRun.shortages`).

While a measure is read the passage shows its run (`Reading.Shows`), and one move keeps it so
(`Reading.Tracks.move`). So what is found where measures are left is what their runs are short of
(`Document.incomplete_voices`).
-/

namespace Partwise

open Markup

variable {settings : Settings} {r s t : Reading} {m : Moment} {ms : List Moment} {key : VoiceKey}
  {keys keys' : List VoiceKey} {inside : Bool}

/-! ## Voices in their order -/

/-- Voices in ascending order, each once. -/
def inOrder (keys : List VoiceKey) : List VoiceKey :=
  keys.foldl (fun sorted key => upsert VoiceKey.before id key sorted) []

/-- One more key comes into the ascending keys at its place. -/
theorem inOrder_concat (keys : List VoiceKey) (key : VoiceKey) :
    inOrder (keys ++ [key]) = upsert VoiceKey.before id key (inOrder keys) := by
  rw [inOrder, List.foldl_append]
  rfl

/-- A key is among the ascending keys if it is among the keys. -/
theorem mem_inOrder : key ∈ inOrder keys ↔ key ∈ keys := by
  induction keys using List.reverseRecOn with
  | nil => exact Iff.rfl
  | append_singleton keys k ih =>
    rw [inOrder_concat, mem_upsert_iff, ih, List.mem_append, List.mem_singleton, or_comm]

/-- Ascending keys ascend. -/
theorem ascending_inOrder (keys : List VoiceKey) : Ascending (inOrder keys) := by
  induction keys using List.reverseRecOn with
  | nil => exact List.Pairwise.nil
  | append_singleton keys k ih =>
    rw [inOrder_concat]
    exact VoiceKey.orders.ascending_upsert ih

/-- There is one way only to put voices in ascending order. -/
theorem Ascending.eq_of_mem_iff (h : Ascending keys) (h' : Ascending keys')
    (hmem : ∀ key, key ∈ keys ↔ key ∈ keys') : keys = keys' := by
  refine List.Perm.eq_of_pairwise (fun a b _ _ hab hba => ?_) h h' ?_
  · exact absurd (VoiceKey.orders.trans hab hba) (VoiceKey.orders.irrefl _)
  · exact (List.perm_ext_iff_of_nodup h.nodup h'.nodup).mpr hmem

/-- How far the longest voice comes is how far any tone that is no grace note reaches. -/
theorem farthest_endOf {ts : List Tone} (h : ∀ tone ∈ ts, tone.key ∈ keys) :
    farthest (keys.map (endOf ts)) = farthest (timedStops ts) := by
  refine le_antisymm (farthest_le.mpr ⟨zero_le_farthest _, fun stop hstop => ?_⟩)
    (farthest_le.mpr ⟨zero_le_farthest _, fun stop hstop => ?_⟩)
  · obtain ⟨key, -, rfl⟩ := List.mem_map.mp hstop
    refine farthest_mono fun stop hstop => ?_
    obtain ⟨tone, htone, rfl⟩ := List.mem_map.mp hstop
    obtain ⟨hthere, htimed⟩ := List.mem_filter.mp htone
    exact List.mem_map_of_mem (List.mem_filter.mpr ⟨(List.mem_filter.mp hthere).1, htimed⟩)
  · obtain ⟨tone, htone, rfl⟩ := List.mem_map.mp hstop
    obtain ⟨hthere, htimed⟩ := List.mem_filter.mp htone
    exact (Tone.stop_le_endOf hthere (by simpa using htimed)).trans
      (le_farthest (List.mem_map_of_mem (h tone hthere)))

/-! ## Measures as they are read -/

/-- A measure, with the moments in it so far. -/
structure MeasureRun where
  number : String
  moments : List Moment

namespace MeasureRun

/-- The tones that a measure gave. -/
def tones (settings : Settings) (run : MeasureRun) : List Tone :=
  run.moments.flatMap (Moment.tones settings)

/-- The voices that a measure gave a note or a movement forward. -/
def voices (settings : Settings) (run : MeasureRun) : List VoiceKey :=
  inOrder (run.moments.filterMap fun m => (m.move.deed settings m.before).voice?)

/-- The findings about the voices of a measure that come less far than the longest one, in ascending
order. How far they come is told from the tones that the measure gave. -/
def shortages (settings : Settings) (come : List Tone → VoiceKey → WholeNotes) (run : MeasureRun) :
    List Finding :=
  let extent := come (run.tones settings)
  let longest := farthest ((run.voices settings).map extent)
  ((run.voices settings).filter fun key => extent key < longest).map fun key =>
    .incompleteVoice run.number key.voice key.staff (extent key) longest

/-- No movement back in time of the measure has a negative duration. -/
def Backward (settings : Settings) (run : MeasureRun) : Prop :=
  ∀ m ∈ run.moments, (m.move.deed settings m.before).leadsBack = true

instance (settings : Settings) (run : MeasureRun) : Decidable (run.Backward settings) :=
  List.decidableBAll ..

/-- The measure after a moment: another one is entered, or one more moment is in it. -/
def next (run : MeasureRun) (m : Moment) : MeasureRun :=
  match m.move with
  | .enterMeasure e => ⟨(e.attr? "number").getD "", []⟩
  | .leaveMeasure _ => run
  | _ => ⟨run.number, run.moments ++ [m]⟩

/-- One more moment gives its tones to the run of a measure. -/
theorem tones_concat (run : MeasureRun) (m : Moment) :
    (⟨run.number, run.moments ++ [m]⟩ : MeasureRun).tones settings =
      run.tones settings ++ m.tones settings := by
  simp [tones]

/-- The voices of a run are those that its moments give something. -/
theorem mem_voices {run : MeasureRun} : key ∈ run.voices settings ↔
    ∃ m ∈ run.moments, (m.move.deed settings m.before).voice? = some key := by
  rw [voices, mem_inOrder, List.mem_filterMap]

/-- One more moment may give something to one more voice. -/
theorem mem_voices_concat {run : MeasureRun} :
    key ∈ (⟨run.number, run.moments ++ [m]⟩ : MeasureRun).voices settings ↔
      key ∈ run.voices settings ∨ (m.move.deed settings m.before).voice? = some key := by
  rw [mem_voices, mem_voices]
  simp only [List.mem_append, List.mem_singleton, or_and_right, exists_or, exists_eq_left]

/-- A tone is given to a voice that the measure gave something. -/
theorem key_of_mem_tones {run : MeasureRun} {tone : Tone} (h : tone ∈ run.tones settings) :
    tone.key ∈ run.voices settings := by
  obtain ⟨m, hm, htone⟩ := List.mem_flatMap.mp h
  refine mem_voices.mpr ⟨m, hm, ?_⟩
  rw [Moment.tones, Deed.tones] at htone
  cases harrival : (m.move.deed settings m.before).arrival? with
  | none =>
    rw [harrival] at htone
    cases htone
  | some a =>
    rw [harrival] at htone
    rw [Deed.voice?_of_arrival harrival, Reading.key_of_mem_tones htone]

end MeasureRun

/-- The measures that are left, each with the line on which it is. -/
def measuresLeft : MeasureRun → List Moment → List (Nat × MeasureRun)
  | _, [] => []
  | run, m :: ms =>
    (match m.move with
    | .leaveMeasure e => [(e.line, run)]
    | _ => []) ++ measuresLeft (run.next m) ms

/-- What measures are short of, as it is reported where they are left. -/
def shortVoices (settings : Settings) (come : List Tone → VoiceKey → WholeNotes)
    (left : List (Nat × MeasureRun)) : List Diagnostic :=
  left.flatMap fun measure =>
    (measure.2.shortages settings come).map fun finding => finding.onLine measure.1

/-! ## Within a measure -/

/-- A grace note that arrives has no length. -/
theorem Move.length_of_grace {move : Move} {a : Arrival}
    (h : (move.deed settings r).arrival? = some a) (hgrace : a.isGrace = true) : a.length = 0 := by
  generalize hdeed : move.deed settings r = d at h
  cases d with
  | note input =>
    rw [Deed.arrival?] at h
    split at h
    · cases h
    · cases h
      exact (Move.proper_of_deed hdeed).timeless hgrace
  | forward =>
    cases h
    cases hgrace
  | backup | enterMeasure | leaveMeasure | enterPart | leavePart | nothing => cases h

/-- The passage shows what the open measure gave: the voices that owe a check are its voices, and
they came as far as its tones. -/
structure Reading.Shows (settings : Settings) (r : Reading) (run : MeasureRun) : Prop where
  number : r.passage.measureNumber = run.number
  extents : r.passage.Extends (run.tones settings)
  unchecked : ∀ key, key ∈ r.passage.unchecked ↔ key ∈ run.voices settings
  behind : run.Backward settings → r.Behind (run.tones settings)

namespace Reading.Shows

variable {run : MeasureRun}

/-- What is short in the passage is what the measure is short of. -/
theorem shortages_eq (h : r.Shows settings run) (hascending : Ascending r.passage.unchecked) :
    r.passage.shortages = run.shortages settings endOf := by
  have hvoices : r.passage.unchecked = run.voices settings :=
    hascending.eq_of_mem_iff (ascending_inOrder _) h.unchecked
  have hlongest : r.passage.longest =
      farthest ((run.voices settings).map (endOf (run.tones settings))) :=
    h.extents.longest.trans (farthest_endOf fun _ => MeasureRun.key_of_mem_tones).symm
  simp only [Passage.shortages, MeasureRun.shortages, hvoices, hlongest, h.number, h.extents.extent]

/-- Grace notes may be counted as well if no movement back leads forward. -/
theorem shortages_full (h : r.Shows settings run) (hback : run.Backward settings) :
    run.shortages settings fullEndOf = run.shortages settings endOf := by
  have hsame : fullEndOf (run.tones settings) = endOf (run.tones settings) :=
    funext (h.behind hback).fullEndOf_eq
  rw [MeasureRun.shortages, MeasureRun.shortages, hsame]

/-- Where a measure is entered, it gave nothing yet. -/
theorem enterMeasure (hr : r.Sound) (hascending : Ascending r.passage.unchecked) {e : Element}
    {u : Unit} (h : Ends (Partwise.enterMeasure e) r u s) :
    s.Shows settings ⟨(e.attr? "number").getD "", []⟩ := by
  have hview := (MeasureBegins.enterMeasure hr h).view
  have hheadway : s.passage.headway = ((e.attr? "number").getD "", []) := by
    obtain ⟨_, r₁, _, hrest₁⟩ := h.bind
    obtain ⟨_, r₂, _, hrest₂⟩ := hrest₁.bind
    obtain ⟨_, r₃, _, hpassage⟩ := hrest₂.bind
    rw [hpassage.changePassage]
    rfl
  refine ⟨congrArg Prod.fst hheadway, .start (congrArg Prod.snd hheadway), fun key => ?_,
    fun _ => ⟨fun key => ?_, nofun⟩⟩
  · rw [(Pays.enterMeasure hascending h).unchecked]
    exact Iff.rfl
  · exact (congrFun (congrArg View.cursor hview) key).le

/-- Where a measure is left, it gives nothing more. -/
theorem leaveMeasure (h : r.Shows settings run) (hr : r.Sound) {e : Element} {u : Unit}
    (hleave : Ends (Partwise.leaveMeasure e) r u s) : s.Shows settings run := by
  have habides : r.Abides none s := Orderly.leaveMeasure _ _ _ hleave
  have hheadway : s.passage.headway = r.passage.headway :=
    Keeps.headway_leaveMeasure _ _ _ hleave
  refine ⟨(congrArg Prod.fst hheadway).trans h.number, h.extents.of_headway hheadway, fun key => ?_,
    fun hback => (h.behind hback).of_same (funext (Quiet.leaveMeasure hr hleave).1.cursor)⟩
  rw [← h.unchecked]
  exact ⟨fun hk => (habides.only key hk).resolve_right nofun, habides.kept key⟩

/-- **Any other move** in a measure gives what its moment says. -/
theorem goOn (h : m.before.Shows settings run) (hr : m.before.Sound)
    (hstep : Ends (m.move.perform settings) m.before () m.after)
    (hmove : m.move.isBoundary = false) :
    m.after.Shows settings ⟨run.number, run.moments ++ [m]⟩ := by
  have hdoes := Does.perform hr hstep
  have hd : (m.move.deed settings m.before).isBoundary = false := Move.isBoundary_deed hmove
  have hbears := Reading.Bears.perform hr hstep (Move.goesOn_of_not_isBoundary hmove)
  refine ⟨(hdoes.measureNumber hd).trans h.number, ?_, fun key => ?_, fun hback => ?_⟩
  · rw [MeasureRun.tones_concat]
    exact hdoes.extents hd h.extents
  · rw [MeasureRun.mem_voices_concat, ← h.unchecked]
    exact ⟨hbears.abides.only key, fun hk => hk.elim (hbears.abides.kept key) (hbears.owed key)⟩
  · rw [MeasureRun.tones_concat]
    exact (h.behind fun m' hm' => hback m' (List.mem_append_left _ hm')).step hdoes hd
      (fun a => Move.length_of_grace) (hback m (List.mem_append_right _ List.mem_cons_self))

end Reading.Shows

/-! ## Whole readings -/

/-- The voices that owe a check are in order, and while a measure is open the passage shows it. -/
structure Reading.Tracks (settings : Settings) (inside : Bool) (r : Reading) (run : MeasureRun) :
    Prop where
  ascending : Ascending r.passage.unchecked
  shows : inside = true → r.Shows settings run

namespace Reading.Tracks

variable {run : MeasureRun}

/-- Where a measure is left, it is still known. -/
theorem leaveMeasure (h : r.Tracks settings inside run) (hr : r.Sound) {e : Element} {u : Unit}
    (hleave : Ends (Partwise.leaveMeasure e) r u s) : s.Tracks settings inside run := by
  have habides : r.Abides none s := Orderly.leaveMeasure _ _ _ hleave
  exact ⟨habides.ascending h.ascending, fun hinside => (h.shows hinside).leaveMeasure hr hleave⟩

/-- **One move** keeps track of the measure. -/
theorem move (h : m.before.Tracks settings inside run) (hr : m.before.Sound)
    (hstep : Ends (m.move.perform settings) m.before () m.after)
    (hparts : m.move.partOutside inside = true) :
    m.after.Tracks settings (m.move.opensMeasure inside) (run.next m) := by
  have hother (hmove : m.move.isBoundary = false) :
      m.after.Tracks settings inside ⟨run.number, run.moments ++ [m]⟩ :=
    ⟨(Reading.Bears.perform hr hstep (Move.goesOn_of_not_isBoundary hmove)).abides.ascending
      h.ascending, fun hinside => (h.shows hinside).goOn hr hstep hmove⟩
  obtain ⟨before, move, after⟩ := m
  have hnone (hunchecked : after.passage.unchecked = []) : Ascending after.passage.unchecked :=
    hunchecked ▸ List.Pairwise.nil
  dsimp only at *
  cases move with
  | leaf | leavePartList => exact hother rfl
  | enterMeasure e =>
    exact ⟨hnone (Pays.enterMeasure h.ascending hstep).unchecked,
      fun _ => .enterMeasure hr h.ascending hstep⟩
  | leaveMeasure e => exact ⟨(h.leaveMeasure hr hstep).ascending, by rintro ⟨⟩⟩
  | enterPart e =>
    obtain rfl : inside = false := by simpa [Move.partOutside] using hparts
    exact ⟨hnone (by rw [(PartBegins.enterPart hr hstep).passage]), by rintro ⟨⟩⟩
  | leavePart e =>
    obtain rfl : inside = false := by simpa [Move.partOutside] using hparts
    obtain ⟨_, _, _, _, hpays⟩ := Pays.leavePart hr h.ascending hstep
    exact ⟨hnone hpays.unchecked, by rintro ⟨⟩⟩

end Reading.Tracks

/-- What a moment finds of the kind is what is short where a measure is left. -/
theorem Moment.reported_short (m : Moment) :
    reported "incomplete_voice_measure" (m.timings settings) =
      match m.move with
      | .leaveMeasure e => m.after.passage.shortages.map fun finding => finding.onLine e.line
      | _ => [] := by
  obtain ⟨before, move, after⟩ := m
  cases move with
  | leaf e =>
    rw [timings]
    dsimp only
    cases (Move.leaf e).deed settings before with
    | backup duration =>
      refine reported_other fun finding hfinding => ?_
      rw [Reading.kind_of_overrun? (Option.mem_toList.mp hfinding)]
      decide
    | _ => rfl
  | leaveMeasure e => exact reported_same fun _ => Passage.kind_of_shortages
  | _ => rfl

/-- **A reading** finds where a measure is left what its run is short of. -/
theorem Reading.Tracks.follows {run : MeasureRun} (h : r.Tracks settings inside run) (hr : r.Sound)
    (hfollows : Follows settings r ms t)
    (hparts : throughout Move.partOutside inside (ms.map Moment.move) = true)
    (hleaves : throughout Move.leavesOpen inside (ms.map Moment.move) = true) :
    reported "incomplete_voice_measure" (timingsOf settings ms) =
        shortVoices settings endOf (measuresLeft run ms) ∧
      ∀ measure ∈ measuresLeft run ms, measure.2.Backward settings →
        measure.2.shortages settings fullEndOf = measure.2.shortages settings endOf := by
  induction hfollows generalizing inside run with
  | nil => exact ⟨rfl, nofun⟩
  | @cons m ms t hstep _ ih =>
    rw [List.map_cons, throughout, Bool.and_eq_true] at hparts hleaves
    obtain ⟨hfound, hfull⟩ := ih (h.move hr hstep hparts.1) (Does.perform hr hstep).sound
      hparts.2 hleaves.2
    rw [timingsOf, List.flatMap_cons, reported_append, m.reported_short, measuresLeft]
    have hothers : reported "incomplete_voice_measure" (ms.flatMap (Moment.timings settings)) =
        shortVoices settings endOf (measuresLeft (run.next m) ms) := hfound
    rw [hothers]
    obtain ⟨before, move, after⟩ := m
    cases move with
    | leaveMeasure e =>
      have hleft := h.leaveMeasure hr hstep
      have hshows := hleft.shows hleaves.1
      refine ⟨?_, fun measure hmeasure => ?_⟩
      · rw [hshows.shortages_eq hleft.ascending]
        rfl
      · rcases List.mem_append.mp hmeasure with hhere | hlater
        · rw [List.mem_singleton.mp hhere]
          exact hshows.shortages_full
        · exact hfull measure hlater
    | leaf | leavePartList | enterPart | leavePart | enterMeasure => exact ⟨rfl, hfull⟩

/-! ## Documents -/

/-- **Voices that are shorter than their measure are found.** In a document that keeps to its
measures the leaves of every voice of the score stand where the document gave it tones. Where a
measure is left there is one finding for each of its voices, in ascending order, that does not come
as far by its tones as the longest one. Grace notes are not counted there; they make no difference
if no movement back in time of the measure has a negative duration. -/
theorem Document.incomplete_voices {root : Element} {score : Score}
    (h : (Document.read settings root).score = .ok score) (hkeeps : root.keepsToMeasures = true) :
    (trail settings root).map Moment.move = movesOf root ∧
      (∀ part ∈ score.parts, ∀ voice ∈ part.voices, voice.leaves.map Leaf.span =
        (tonesTo settings part.id voice.key none (trail settings root)).map Tone.span) ∧
      (Document.read settings root).diagnostics.ofKind "incomplete_voice_measure" =
        shortVoices settings endOf (measuresLeft ⟨"", []⟩ (trail settings root)) ∧
      ∀ measure ∈ measuresLeft ⟨"", []⟩ (trail settings root), measure.2.Backward settings →
        measure.2.shortages settings fullEndOf = measure.2.shortages settings endOf := by
  have hparts := Document.partsOutside h hkeeps
  obtain ⟨last, hfollows, hunfolds, hcomplete, hmoves⟩ := Document.follows_unfolds h
  have hleaves := Markup.Element.leavesOpen hkeeps
  rw [← hmoves] at hleaves
  have hstart : ({} : Reading).Tracks settings false ⟨"", []⟩ := ⟨List.Pairwise.nil, nofun⟩
  obtain ⟨hfound, hfull⟩ := hstart.follows Reading.sound_empty hfollows hparts hleaves
  refine ⟨hmoves, fun part hpart voice hvoice => ?_,
    (ofKind_timings h (.inr rfl)).trans hfound, hfull⟩
  have hspans := hunfolds.leafSpans_eq part.id voice.key
  rw [hcomplete.music hpart, Part.music, hcomplete.voice? hpart hvoice] at hspans
  exact hspans

/-- Two voices, of which the second one is given half of what the first one is. -/
def shortSecondVoice : Element :=
  singleMeasure [noteElement 1 "C" "1" "4" [], backupElement "4", noteElement 2 "E" "2" "2" []]

/-- The second voice is found to be short, whether grace notes are counted or not. -/
theorem Document.incomplete_voices_shortSecond :
    (Document.read {} shortSecondVoice).diagnostics.ofKind "incomplete_voice_measure" =
        [(Finding.incompleteVoice "1" 2 1 (1 / 2) 1).onLine 0] ∧
      ∀ measure ∈ measuresLeft ⟨"", []⟩ (trail {} shortSecondVoice),
        measure.2.shortages {} fullEndOf = measure.2.shortages {} endOf := by
  have hread : hasScore shortSecondVoice (fun _ => true) = true := by decide +kernel
  have hkeeps : shortSecondVoice.keepsToMeasures = true := by decide +kernel
  obtain ⟨score, hscore, -⟩ := exists_score hread
  obtain ⟨-, -, hfound, hfull⟩ := Document.incomplete_voices hscore hkeeps
  have hshort : shortVoices {} endOf (measuresLeft ⟨"", []⟩ (trail {} shortSecondVoice)) =
      [(Finding.incompleteVoice "1" 2 1 (1 / 2) 1).onLine 0] := by
    decide +kernel
  have hback : ∀ measure ∈ measuresLeft ⟨"", []⟩ (trail {} shortSecondVoice),
      measure.2.Backward {} := by
    decide +kernel
  exact ⟨hfound.trans hshort, fun measure hmeasure => hfull measure hmeasure (hback measure hmeasure)⟩

/-- A grace note that stands behind all other notes, since a movement back leads forward. -/
def graceBehindBackup : Element :=
  singleMeasure [noteElement 1 "C" "1" "4" [], backupElement "4", noteElement 2 "E" "2" "2" [],
    backupElement "-4", graceElement 3 "G" [textElement "voice" "2"]]

/-- The voice of the grace note is found to be short, and not the other one, although the grace note
ends behind all other notes. -/
theorem Document.short_graceBehindBackup : ∃ score,
    (Document.read {} graceBehindBackup).score = .ok score ∧
      graceBehindBackup.keepsToMeasures = true ∧
      (Document.read {} graceBehindBackup).diagnostics.ofKind "incomplete_voice_measure" ≠
        shortVoices {} fullEndOf (measuresLeft ⟨"", []⟩ (trail {} graceBehindBackup)) := by
  have hread : hasScore graceBehindBackup (fun _ => true) = true := by decide +kernel
  obtain ⟨score, hscore, -⟩ := exists_score hread
  exact ⟨score, hscore, by decide +kernel, by decide +kernel⟩

end Partwise
