import Partwise.Proofs.Reading.Overflows
import Partwise.Proofs.Reading.Saying

/-!
# Reading · Timing: what is found about how far voices go

Two things are found about time. A movement back may lead its voice to before the start of the
measure (`Reading.overrun?`), and where a measure ends, a voice with content may not have come as
far as the longest one (`Passage.shortages`). Nothing else that is read finds anything of the kind.
So what a document finds about time is what the moments of its trail find, in their order
(`Document.timings_journal`).
-/

namespace Partwise

open Markup

variable {α : Type} {r s : Reading} {j j' : Journal} {settings : Settings} {line : Nat} {u : Unit}

/-! ## Journals -/

/-- What an entry says of how far voices go, with its line. -/
def Entry.timing? : Entry → Option (Nat × Finding)
  | .found line finding => if finding.isOfTime then some (line, finding) else none
  | .event _ => none

/-- All that a journal says of how far voices go, first things first. -/
def Journal.timings (j : Journal) : List (Nat × Finding) :=
  j.reverse.filterMap Entry.timing?

/-- The timings of a journal are those that were said before and then those said since. -/
theorem Journal.timings_append (said j : Journal) :
    Journal.timings (said ++ j) = Journal.timings j ++ Journal.timings said := by
  simp [timings]

/-- Plain entries say nothing of how far voices go. -/
theorem Entry.timing?_of_isPlain {entry : Entry} (h : entry.isPlain = true) :
    entry.timing? = none := by
  cases entry with
  | event => rfl
  | found line finding =>
    cases finding with
    | backupBeforeMeasureStart | incompleteVoice => cases h
    | _ => rfl

/-- What is found about part lists says nothing of it. -/
theorem Entry.timing?_of_isOfPartList {finding : Finding} (h : finding.isOfPartList = true)
    (line : Nat) : (Entry.found line finding).timing? = none := by
  cases finding with
  | backupBeforeMeasureStart | incompleteVoice => cases h
  | _ => rfl

/-! ## Steps -/

/-- The step finds nothing about how far voices go. -/
abbrev Timeless (x : Step α) : Prop := Says (fun entry => entry.timing? = none) x

/-- After a timeless step the journal tells the same timings as before. -/
theorem Says.timings {x : Step α} {a : α} (hx : Timeless x) (h : Runs x r j a s j') :
    Journal.timings j' = Journal.timings j := by
  obtain ⟨said, rfl, hsaid⟩ := hx _ _ _ _ _ h
  have hnone : Journal.timings said = [] :=
    List.filterMap_eq_nil_iff.mpr fun entry hentry => hsaid entry (List.mem_reverse.mp hentry)
  rw [Journal.timings_append, hnone, List.append_nil]

/-- To find nothing of it is a discipline. -/
theorem timeless_discipline : PartDiscipline fun _ x => Timeless x :=
  Says.discipline (fun _ => Entry.timing?_of_isPlain) (fun _ _ => rfl) fun _ _ _ => rfl

/-- A finding about time, where it is found. -/
theorem Runs.timings_find {finding : Finding} (hfinding : finding.isOfTime = true)
    (h : Runs (liftM (Partwise.find line finding)) r j u s j') :
    Journal.timings j' = Journal.timings j ++ [(line, finding)] := by
  rw [h.find.2, ← List.singleton_append, Journal.timings_append]
  simp [Journal.timings, Entry.timing?, hfinding]

/-- What is found if a movement back in time leads to before the start of the measure. -/
def Reading.overrun? (r : Reading) (duration : WholeNotes) : Option Finding :=
  if r.reachedBack duration < 0 then
    some (.backupBeforeMeasureStart duration r.passage.measureNumber (-r.reachedBack duration))
  else none

/-- What is found where a measure ends: the voices with content that are not as long as the
longest. -/
def Passage.shortages (p : Passage) : List Finding :=
  (p.unchecked.filter fun key => p.extent key < p.longest).map fun key =>
    .incompleteVoice p.measureNumber key.voice key.staff (p.extent key) p.longest

/-- What is found of an overrun is that a backup went before the start of the measure. -/
theorem Reading.kind_of_overrun? {duration : WholeNotes} {finding : Finding}
    (h : r.overrun? duration = some finding) : finding.kind = "backup_before_measure_start" := by
  unfold overrun? at h
  split at h <;> cases h
  rfl

/-- What is found of a shortage is that a voice ends before the measure does. -/
theorem Passage.kind_of_shortages {p : Passage} {finding : Finding} (h : finding ∈ p.shortages) :
    finding.kind = "incomplete_voice_measure" := by
  obtain ⟨_, _, rfl⟩ := List.mem_map.mp h
  rfl

/-- A negation that could be formed is the opposite number. -/
theorem WholeNotes.neg?_eq_some {x y : WholeNotes} (h : x.neg? = some y) : y = -x := by
  unfold neg? at h
  split at h <;> simp_all

/-- The findings on a line. -/
def atLine (line : Nat) (findings : List Finding) : List (Nat × Finding) :=
  findings.map fun finding => (line, finding)

/-- It is found that the document is before the start of the measure if it is, and nothing
otherwise. -/
theorem Runs.timings_before {reached duration : WholeNotes} {measure : String}
    (h : Runs (if Rat.blt reached 0 then do
        let before ← demand reached.neg? (.overflow line)
        Partwise.find line (.backupBeforeMeasureStart duration measure before)
      else Pure.pure () : Step Unit) r j u s j') :
    Journal.timings j' = Journal.timings j ++ atLine line (if reached < 0 then
      some (.backupBeforeMeasureStart duration measure (-reached)) else none).toList := by
  split at h
  · next hbefore =>
    rw [if_pos ((WholeNotes.blt_iff _ _).mp hbefore)]
    obtain ⟨before, r₁, j₁, hdemand, hfind⟩ := h.bind
    have hnegated := WholeNotes.neg?_eq_some (gives_demand hdemand.ends.lift.1)
    rw [hfind.timings_find rfl, Says.timings (.demand _ _) hdemand, hnegated]
    rfl
  · next hbefore =>
    rw [if_neg (mt (WholeNotes.blt_iff _ _).mpr hbefore), h.pure.2]
    exact (List.append_nil _).symm

/-- Going back finds that it led too far, or nothing. -/
theorem Runs.timings_goBack {duration : WholeNotes} (h : Runs (goBack line duration) r j u s j') :
    Journal.timings j' = Journal.timings j ++ atLine line (r.overrun? duration).toList := by
  have hmusic := timeless_discipline.habit
  obtain ⟨_, _, _, hget, hrest₁⟩ := h.bind
  obtain ⟨rfl, rfl, rfl⟩ := hget.get
  obtain ⟨position, r₁, j₁, hearlier, hrest₂⟩ := hrest₁.bind
  have hj₁ := hmusic.earlier.timings hearlier
  obtain ⟨hposition, rfl⟩ := hearlier.ends.lift
  obtain ⟨_, r₂, j₂, hchange, hrest₃⟩ := hrest₂.bind
  have hj₂ := (Says.timings .modify hchange).trans hj₁
  have hr₂ := hchange.ends.changePassage
  obtain ⟨_, _, _, hget, hmatch⟩ := hrest₃.bind
  obtain ⟨rfl, rfl, rfl⟩ := hget.get
  have hcurrent : (r₂.part?.bind fun part => part.voice? r₁.passage.current) = r₁.currentVoice? := by
    rw [hr₂]
    rfl
  dsimp only at hmatch
  rw [hcurrent] at hmatch
  rw [← hj₂, Reading.overrun?]
  split at hmatch
  · next hnone =>
    obtain ⟨_, _, _, hpure, hbefore⟩ := hmatch.bind
    cases hpure
    have hreached : position = r₁.reachedBack duration := by
      rw [gives_earlier hposition, Reading.reachedBack, hnone]
      rfl
    rw [← hreached]
    exact hbefore.timings_before
  · next v hvoice =>
    obtain ⟨moved, r₃, j₃, hmoved, hrest₄⟩ := hmatch.bind
    have hj₃ := hmusic.earlier.timings hmoved
    obtain ⟨_, r₄, j₄, hmodify, hrest₅⟩ := hrest₄.bind
    have hmoves : Timeless (changePart line fun part => part.modifyVoice r₁.passage.current
        fun voice => { voice with positionInMeasure := moved }) :=
      hmusic.modifyVoice fun _ => ⟨rfl, rfl⟩
    have hj₄ := hmoves.timings hmodify
    obtain ⟨_, _, _, hpure, hbefore⟩ := hrest₅.bind
    cases hpure
    have hreached : moved = r₁.reachedBack duration := by
      obtain ⟨part, hpart, hfound⟩ := Option.bind_eq_some_iff.mp hvoice
      have hcursor : r₁.cursor r₁.passage.current = v.positionInMeasure := by
        simp [Reading.cursor, Part.cursor, hpart, hfound]
      rw [gives_earlier hmoved.ends.lift.1, Reading.reachedBack, hvoice, hcursor]
      rfl
    rw [← hreached, ← hj₃, ← hj₄]
    exact hbefore.timings_before

/-- Findings of time that are made one after the other change nothing else. -/
theorem Runs.timings_forM {γ : Type} {say : γ → Finding} (hsay : ∀ c, (say c).isOfTime = true)
    {cs : List γ} (h : Runs (cs.forM fun c => (liftM (Partwise.find line (say c)) : Step Unit))
      r j u s j') :
    s = r ∧ Journal.timings j' = Journal.timings j ++ atLine line (cs.map say) := by
  induction cs generalizing j with
  | nil =>
    obtain ⟨rfl, rfl⟩ := Runs.pure h
    exact ⟨rfl, (List.append_nil _).symm⟩
  | cons c cs ih =>
    obtain ⟨_, r₁, j₁, hfind, hrest⟩ := Runs.bind h
    obtain ⟨rfl, hj'⟩ := ih (hfind.find.1 ▸ hrest)
    refine ⟨rfl, ?_⟩
    rw [hj', hfind.timings_find (hsay c), List.append_assoc]
    rfl

/-- The end of a measure finds what is short there. -/
theorem Runs.timings_leaveMeasure {e : Element} (h : Runs (Partwise.leaveMeasure e) r j u s j') :
    Journal.timings j' = Journal.timings j ++ atLine e.line s.passage.shortages := by
  obtain ⟨_, r₁, j₁, hsettle, hrest⟩ := h.bind
  have hj₁ := timeless_discipline.discipline.settle.timings hsettle
  obtain ⟨_, _, _, hget, hfind⟩ := hrest.bind
  obtain ⟨rfl, rfl, rfl⟩ := hget.get
  obtain ⟨rfl, hj'⟩ := hfind.timings_forM fun _ => rfl
  have hshort : (s.passage.unchecked.filter fun key =>
      Rat.blt (s.passage.extent key) s.passage.longest) =
      s.passage.unchecked.filter fun key => s.passage.extent key < s.passage.longest :=
    List.filter_congr fun key _ => Bool.eq_iff_iff.mpr
      ((WholeNotes.blt_iff _ _).trans decide_eq_true_iff.symm)
  rw [hj', hj₁, Passage.shortages, ← hshort]

/-! ## Moments -/

/-- What a moment finds about how far voices go. -/
def Moment.timings (settings : Settings) (m : Moment) : List (Nat × Finding) :=
  match m.move with
  | .leaf e =>
    match m.move.deed settings m.before with
    | .backup duration => atLine e.line (m.before.overrun? duration).toList
    | _ => []
  | .leaveMeasure e => atLine e.line m.after.passage.shortages
  | _ => []

/-- What closes before changes nothing about what is found. -/
theorem Closes.overrun? (h : Closes r s) (hmeasure : s.passage.measureNumber = r.passage.measureNumber)
    (duration : WholeNotes) : s.overrun? duration = r.overrun? duration := by
  unfold Reading.overrun?
  rw [h.reachedBack, hmeasure]

/-- A movement back finds what it is said to find. -/
theorem Runs.timings_readBackup (hr : r.Sound) {e : Element} (hname : e.name = "backup")
    (h : Runs (Partwise.readBackup settings e) r j u s j') :
    Journal.timings j' = Journal.timings j ++ Moment.timings settings ⟨r, .leaf e, s⟩ := by
  obtain ⟨duration, r₁, j₁, hmovement, hgoes⟩ := h.bind
  obtain ⟨hcloses, _, hheadway, hduration⟩ := Does.movement hr hmovement.ends
  have hdeed : (Move.leaf e).deed settings r = .backup duration := by
    simp only [Move.deed, Deed.ofLeaf, hname, Deed.ofBackup, hduration]
  rw [hgoes.timings_goBack, timeless_discipline.habit.movement.timings hmovement,
    hcloses.overrun? (congrArg Prod.fst hheadway)]
  simp only [Moment.timings, hdeed]

/-- **What a move finds** about time is what its moment says. -/
theorem Move.timings_perform (hr : r.Sound) {m : Move} (h : Runs (m.perform settings) r j u s j') :
    Journal.timings j' = Journal.timings j ++ Moment.timings settings ⟨r, m, s⟩ := by
  have hother (hback : ∀ e, m = .leaf e → e.name ≠ "backup") (hleave : ∀ e, m ≠ .leaveMeasure e) :
      Journal.timings j' = Journal.timings j ++ [] := by
    have htimeless : Timeless (m.perform settings) :=
      .perform (fun _ => Entry.timing?_of_isPlain) (fun _ _ => rfl) (fun _ _ _ => rfl)
        (fun line _ hfinding => Entry.timing?_of_isOfPartList hfinding line) hback hleave
    rw [htimeless.timings h, List.append_nil]
  cases m with
  | enterPart | leavePart | enterMeasure | leavePartList => exact hother nofun nofun
  | leaveMeasure e => exact Runs.timings_leaveMeasure h
  | leaf e =>
    by_cases hname : e.name = "backup"
    · refine Runs.timings_readBackup hr hname (u := u) ?_
      simpa only [Move.perform, readLeaf, hname] using h
    · have hnone : Moment.timings settings ⟨r, .leaf e, s⟩ = [] := by
        unfold Moment.timings
        dsimp only
        split
        · next hdeed =>
          obtain ⟨_, ⟨⟩, hback⟩ := Move.of_deed_backup hdeed
          exact absurd hback hname
        · rfl
      rw [hnone]
      exact hother (by rintro _ ⟨⟩; exact hname) (by rintro _ ⟨⟩)

/-- What some moments find about how far voices go. -/
def timingsOf (settings : Settings) (ms : List Moment) : List (Nat × Finding) :=
  ms.flatMap (Moment.timings settings)

/-- Along a trail the journal says what the moments find. -/
theorem timings_trailFrom {moves : List Move} (hr : r.Sound)
    (h : Runs (forM moves (Move.perform settings)) r j u s j') :
    Journal.timings j' =
      Journal.timings j ++ timingsOf settings (trailFrom settings moves r j) := by
  induction moves generalizing r j with
  | nil =>
    obtain ⟨_, rfl⟩ := Runs.pure h
    exact (List.append_nil _).symm
  | cons m moves ih =>
    rw [List.forM_cons] at h
    obtain ⟨_, r₁, j₁, hm, hrest⟩ := h.bind
    have hhead := Move.timings_perform hr hm
    have hlater := ih (Does.perform hr hm.ends).sound hrest
    unfold Runs at hm
    rw [hlater, hhead, trailFrom, hm, List.append_assoc]
    rfl

/-- A document is completed without a finding about time. -/
theorem timings_complete {score : Score} (h : Runs complete r j score s j') :
    Journal.timings j' = Journal.timings j := by
  have htimeless : Timeless complete := by
    have hheader := Says.header (fun _ => Entry.timing?_of_isPlain)
      fun line _ hfinding => Entry.timing?_of_isOfPartList hfinding line
    refine .bind hheader.closeGroups fun _ => .look fun r => ?_
    split
    · exact .pure _
    · exact .throw _
  exact htimeless.timings h

/-- **What a document finds about how far voices go** is what the moments of its trail find. -/
theorem Document.timings_journal {root : Element} {score : Score}
    (h : (Document.read settings root).score = .ok score) :
    Journal.timings (Document.read settings root).journal =
      timingsOf settings (trail settings root) := by
  unfold Document.read at h ⊢
  split at h
  · next hroot =>
    rw [if_pos hroot]
    rw [Outcome.score_closed] at h
    obtain ⟨final, j, hrun, hjournal⟩ := Document.of_run h
    obtain ⟨_, r₁, j₁, htell, hrest⟩ := Runs.bind hrun
    obtain ⟨_, last, j₂, hvisit, hcomplete⟩ := hrest.bind
    cases htell
    rw [visit_eq] at hvisit
    have hclosed : Journal.timings (Document.run settings root).closed.journal =
        Journal.timings (Document.run settings root).journal := by
      rw [Outcome.closed, h]
      exact (Journal.timings_append [_] _).trans (List.append_nil _)
    rw [hclosed, hjournal, timings_complete hcomplete, timings_trailFrom Reading.sound_empty hvisit]
    rfl
  · cases h

/-! ## Diagnostics -/

/-- The findings of a kind, as they are reported. -/
def reported (kind : String) (findings : List (Nat × Finding)) : List Diagnostic :=
  (findings.filter fun f => f.2.kind = kind).map fun f => f.2.onLine f.1

/-- What two lists of findings report together is what each of them reports. -/
theorem reported_append (kind : String) (fs gs : List (Nat × Finding)) :
    reported kind (fs ++ gs) = reported kind fs ++ reported kind gs := by
  rw [reported, List.filter_append, List.map_append]
  rfl

/-- Findings of another kind are not reported. -/
theorem reported_other {kind : String} {line : Nat} {findings : List Finding}
    (h : ∀ finding ∈ findings, finding.kind ≠ kind) : reported kind (atLine line findings) = [] := by
  refine List.map_eq_nil_iff.mpr (List.filter_eq_nil_iff.mpr fun f hf => ?_)
  obtain ⟨finding, hfinding, rfl⟩ := List.mem_map.mp hf
  simpa using h finding hfinding

/-- Findings of the kind are reported in their order. -/
theorem reported_same {kind : String} {line : Nat} {findings : List Finding}
    (h : ∀ finding ∈ findings, finding.kind = kind) :
    reported kind (atLine line findings) = findings.map fun finding => finding.onLine line := by
  have hall : (atLine line findings).filter (fun f => f.2.kind = kind) = atLine line findings := by
    refine List.filter_eq_self.mpr fun f hf => ?_
    obtain ⟨finding, hfinding, rfl⟩ := List.mem_map.mp hf
    exact decide_eq_true (h finding hfinding)
  rw [reported, hall, atLine, List.map_map]
  rfl

/-- The kind of a finding says whether it is about time. -/
theorem Finding.isOfTime_iff (finding : Finding) : finding.isOfTime = true ↔
    finding.kind = "backup_before_measure_start" ∨ finding.kind = "incomplete_voice_measure" := by
  cases finding with
  | unknownWord list => cases list <;> simp [isOfTime, kind, WordList.kind]
  | _ => simp [isOfTime, kind]

/-- An entry is reported as what it says of time, if the kind is about time. -/
theorem Entry.diagnostic_timing {kind : String}
    (hkind : kind = "backup_before_measure_start" ∨ kind = "incomplete_voice_measure")
    (entry : Entry) : (entry.diagnostic?.filter fun d => d.kind = kind) =
      (entry.timing?.filter fun f => f.2.kind = kind).map fun f => f.2.onLine f.1 := by
  cases entry with
  | event => rfl
  | found line finding =>
    have hsame : (finding.onLine line).kind = finding.kind := rfl
    by_cases htime : finding.isOfTime = true
    · by_cases hof : finding.kind = kind <;>
        simp [Entry.diagnostic?, Entry.timing?, Option.filter, htime, hof, hsame]
    · have hof : finding.kind ≠ kind := by
        rintro rfl
        exact htime (finding.isOfTime_iff.mpr hkind)
      simp [Entry.diagnostic?, Entry.timing?, Option.filter, htime, hof, hsame]

/-- **The diagnostics of a kind** that is about time are what the moments of the trail find. -/
theorem Document.ofKind_timings {root : Element} {score : Score} {kind : String}
    (h : (Document.read settings root).score = .ok score)
    (hkind : kind = "backup_before_measure_start" ∨ kind = "incomplete_voice_measure") :
    (Document.read settings root).diagnostics.ofKind kind =
      reported kind (timingsOf settings (trail settings root)) := by
  rw [← timings_journal h, Outcome.diagnostics, Journal.diagnostics, Diagnostics.ofKind,
    Journal.timings, reported, List.filter_filterMap, List.filter_filterMap, List.map_filterMap]
  exact congrArg (List.filterMap · _) (funext (Entry.diagnostic_timing hkind))

end Partwise
