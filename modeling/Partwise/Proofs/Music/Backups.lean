import Partwise.Proofs.Music.Conservation
import Partwise.Proofs.Reading.Timing

/-!
# Music · Backups: which movements back in time are found to lead too far

A movement back in time brings the document and the current voice back. What is looked at then is
the voice: it may not stand where the document stands, since a movement forward in another voice
leaves it behind, and a grace note leaves the document behind it. So it is found that a movement
leads to before the start of the measure if and only if the current voice does stand there
afterwards, or the document if the voice has not begun
(`Document.backups_found`). -/

namespace Partwise

open Markup

variable {settings : Settings} {r s : Reading} {m : Moment} {ms : List Moment}

/-- A movement back in time is read. -/
def Move.isBackup : Move → Bool
  | leaf e => e.name = "backup"
  | _ => false

/-- The diagnostic of a movement back in time that leads to before the start of the measure. -/
def Moment.overrun? (settings : Settings) (m : Moment) : Option Diagnostic :=
  match m.move with
  | .leaf e =>
    match m.move.deed settings m.before with
    | .backup duration => (m.before.overrun? duration).map fun finding => finding.onLine e.line
    | _ => none
  | _ => none

/-- Where the current voice stands after a moment, or the document if the voice had not begun. -/
def Moment.stand (m : Moment) : WholeNotes :=
  if m.before.currentVoice?.isSome then m.after.cursor m.after.passage.current
  else m.after.passage.position

/-- What a moment finds of the kind is a movement that leads too far. -/
theorem Moment.reported_backup (m : Moment) :
    reported "backup_before_measure_start" (m.timings settings) = (m.overrun? settings).toList := by
  obtain ⟨before, move, after⟩ := m
  cases move with
  | leaf e =>
    rw [timings, overrun?]
    dsimp only
    cases (Move.leaf e).deed settings before with
    | backup duration =>
      dsimp only
      rw [reported_same fun _ hfinding => Reading.kind_of_overrun? (Option.mem_toList.mp hfinding),
        Option.toList_map]
    | _ => rfl
  | leaveMeasure e =>
    refine reported_other fun finding hfinding => ?_
    rw [Passage.kind_of_shortages hfinding]
    decide
  | _ => rfl

/-- What the timings of some moments report before the start of a measure are the overruns among
these moments, in order. -/
theorem reported_backups (ms : List Moment) :
    reported "backup_before_measure_start" (timingsOf settings ms) =
      ms.filterMap (Moment.overrun? settings) := by
  induction ms with
  | nil => rfl
  | cons m ms ih =>
    rw [timingsOf, List.flatMap_cons, reported_append, m.reported_backup, List.filterMap_cons]
    cases m.overrun? settings <;> exact congrArg _ ih

/-- The current voice is brought back, or the document if the voice has not begun. -/
theorem Moment.stand_of_backup {duration : WholeNotes} (hr : m.before.Sound)
    (hstep : Ends (m.move.perform settings) m.before () m.after)
    (hdeed : m.move.deed settings m.before = .backup duration) :
    WentBack m.before m.after duration ∧ m.stand = m.before.reachedBack duration := by
  have hdoes := Does.perform hr hstep
  rw [hdeed] at hdoes
  cases hdoes with
  | backup back =>
    refine ⟨back, ?_⟩
    rw [stand, Reading.reachedBack, back.current]
    rcases back.cursor with ⟨hbegun, hcursor⟩ | ⟨hnot, _⟩
    · rw [if_pos hbegun, if_pos hbegun, hcursor]
    · simp [hnot, back.position]

/-- **Movements back in time are found to lead too far** if and only if the current voice stands
before the start of the measure afterwards, or the document if this voice has not begun. Both are
the same if they stood together before. -/
theorem Document.backups_found {root : Element} {score : Score}
    (h : (Document.read settings root).score = .ok score) :
    (trail settings root).map Moment.move = movesOf root ∧
      (Document.read settings root).diagnostics.ofKind "backup_before_measure_start" =
        (trail settings root).filterMap (Moment.overrun? settings) ∧
      ∀ m ∈ trail settings root, m.move.isBackup = true →
        ∃ duration, m.move.deed settings m.before = .backup duration ∧
          m.after.passage.position = m.before.passage.position - duration ∧
          ((m.overrun? settings).isSome = true ↔ m.stand < 0) ∧
          (m.before.cursor m.before.passage.current = m.before.passage.position →
            m.stand = m.after.passage.position) := by
  obtain ⟨last, hfollows, -, -, hmoves⟩ := Document.follows_unfolds h
  refine ⟨hmoves, (ofKind_timings h (.inl rfl)).trans (reported_backups _), ?_⟩
  intro m hm hback
  obtain ⟨e, hmove, hname⟩ : ∃ e, m.move = .leaf e ∧ e.name = "backup" := by
    unfold Move.isBackup at hback
    split at hback
    · next e hleaf => exact ⟨e, hleaf, of_decide_eq_true hback⟩
    · exact nomatch hback
  obtain ⟨before, after, htrail⟩ := List.append_of_mem hm
  obtain ⟨r, hfirst, hrest⟩ := Follows.of_append (htrail ▸ hfollows)
  obtain ⟨rfl, hstep, -⟩ := hrest.of_cons
  have hr := hfirst.sound Reading.sound_empty
  obtain ⟨duration, hdeed⟩ : ∃ duration, m.move.deed settings m.before = .backup duration := by
    have hread : Ends (readBackup settings e) m.before () m.after := by
      simpa only [hmove, Move.perform, readLeaf, hname] using hstep
    obtain ⟨duration, hdeed, _⟩ := Does.readBackup hr hread
    exact ⟨duration, by simpa only [hmove, Move.deed, Deed.ofLeaf, hname] using hdeed⟩
  obtain ⟨hback, hstand⟩ := Moment.stand_of_backup hr hstep hdeed
  refine ⟨duration, hdeed, hback.position, ?_, fun htogether => ?_⟩
  · rw [hstand, Moment.overrun?, hmove]
    dsimp only
    rw [← hmove, hdeed, Option.isSome_map, Reading.overrun?]
    split <;> simp_all
  · rw [hstand, Reading.reachedBack, htogether, ite_self, hback.position]

/-- A movement forward of a voice on the first staff. -/
def forwardElement (voice duration : String) : Element :=
  { name := "forward", children := [textElement "duration" duration, textElement "voice" voice] }

/-- A note, a movement forward in another voice, and a movement back over both. -/
def backOverForward : Element :=
  singleMeasure [noteElement 1 "C" "1" "1" [], forwardElement "2" "1", backupElement "2"]

/-- The voice of the note is brought to before the start of the measure, so this is found. -/
theorem Document.backups_found_backOverForward :
    ((Document.read {} backOverForward).diagnostics.ofKind "backup_before_measure_start").length = 1 ∧
      ∃ m ∈ trail {} backOverForward, m.after.passage.position = 0 ∧ m.stand = -(1 / 4) ∧
        (m.overrun? {}).isSome = true := by
  have hread : hasScore backOverForward (fun _ => true) = true := by decide +kernel
  obtain ⟨score, hscore, -⟩ := exists_score hread
  obtain ⟨-, hfound, hexact⟩ := Document.backups_found hscore
  have htrail : ((trail {} backOverForward).filterMap (Moment.overrun? {})).length = 1 ∧
      (trail {} backOverForward).any (fun m =>
        m.move.isBackup ∧ m.after.passage.position = 0 ∧ m.stand = -(1 / 4)) = true := by
    decide +kernel
  obtain ⟨hone, hany⟩ := htrail
  obtain ⟨m, hm, hcases⟩ := List.any_eq_true.mp hany
  obtain ⟨hback, hposition, hstand⟩ := of_decide_eq_true hcases
  obtain ⟨duration, -, -, hiff, -⟩ := hexact m hm hback
  exact ⟨by rw [hfound, hone], m, hm, hposition, hstand, hiff.mpr (hstand ▸ by decide +kernel)⟩

/-- A backup before the start of the measure is found although the document does not stand before it
after any movement back. -/
theorem Document.found_backOverForward : ∃ score,
    (Document.read {} backOverForward).score = .ok score ∧
      (Document.read {} backOverForward).diagnostics.ofKind "backup_before_measure_start" ≠ [] ∧
      ∀ m ∈ trail {} backOverForward, 0 ≤ m.after.passage.position := by
  have hread : hasScore backOverForward (fun _ => true) = true := by decide +kernel
  obtain ⟨score, hscore, -⟩ := exists_score hread
  exact ⟨score, hscore, by decide +kernel, by decide +kernel⟩

end Partwise
