import Partwise.Proofs.Music.Moving

/-!
# Music · Doing: every move does what it means

`Move.deed` says what a move means, and `Does` what a reading that went well has done about it.
`Does.perform` proves that the one follows from the other for every move. It is all that the results
about whole documents need to know of the steps of the reading.
-/

namespace Partwise

open Markup

variable {r s : Reading} {u : Unit} {settings : Settings}

/-- The voice that a deed is heard in. -/
def Deed.voice? : Deed → Option VoiceKey
  | note input => some input.key
  | forward key _ _ => some key
  | backup _ | enterMeasure | leaveMeasure | enterPart _ | leavePart | nothing => none

/-- How many tuplets a note that is no member of a chord finds open: those that are, if it belongs
to them, and otherwise none, since it closes them. -/
def NoteInput.kept (input : NoteInput) (r : Reading) : Nat :=
  if input.belongsToTuplet ∧ r.passage.tupletKey? = some input.key then r.depth else 0

/-- Only the tuplets that are open matter for it. -/
theorem NoteInput.kept_congr (input : NoteInput) (h : s.passage.tuplets = r.passage.tuplets) :
    input.kept s = input.kept r := by
  have hkey : s.passage.tupletKey? = r.passage.tupletKey? := by simp [Passage.tupletKey?, h]
  rw [kept, kept, hkey, Reading.depth, h, Reading.depth]

/-- What a reading from `r` to `s` did about a deed. -/
inductive Does (r s : Reading) : Deed → Prop
  | place {input : NoteInput} {id : String} {marks : Attachments} (alone : input.inChord = false)
      (placed : Placed r s id input.arrival input.key)
      (enters : Enters r s (input.kept r) id input.arrival input.openings input.tupletStops)
      (takes : Takes r s marks)
      (seats : Seats r s id input.key input.note.line input.note marks)
      (alights : ∃ n, Alights r s id input.arrival n) : Does r s (.note input)
  | join {input : NoteInput} {id : String} {marks : Attachments} (member : input.inChord = true)
      (joined : Joined r s id input.key input.note.content input.note.line input.key)
      (stops : s.depth + input.tupletStops = r.depth) (takes : Takes r s marks)
      (folds : Folds r s id input.key input.note marks) (absorbs : Absorbs r s id input.key) :
      Does r s (.note input)
  | forward {key : VoiceKey} {duration : WholeNotes} {line : Nat} {id : String}
      (placed : Placed r s id (.skip key duration line) r.passage.current)
      (enters : Enters r s 0 id (.skip key duration line) [] 0)
      (seats : Seats r s id key line (Note.skip duration key.staff key.voice "" line) ∅)
      (singing : s.singing = r.singing) (alights : ∃ n, Alights r s id (.skip key duration line) n) :
      Does r s (.forward key duration line)
  | backup {duration : WholeNotes} (back : WentBack r s duration)
      (headway : s.passage.headway = r.passage.headway) : Does r s (.backup duration)
  | enterMeasure (begins : MeasureBegins r s) : Does r s .enterMeasure
  | leaveMeasure (quiet : Quiet r s) (none : s.passage.tuplets = []) : Does r s .leaveMeasure
  | enterPart {id : String} (begins : PartBegins id r s) : Does r s (.enterPart id)
  | leavePart (ends : PartEnds r s) : Does r s .leavePart
  | nothing (quiet : Quiet r s) (headway : s.passage.headway = r.passage.headway) :
      Does r s .nothing

namespace Does

/-- Another voice is current now, and nothing else is heard. -/
theorem turn (hr : r.Sound) {current : VoiceKey}
    (hs : s = { r with passage := { r.passage with current } }) :
    s.view = { r.view with current } ∧ s.Sound ∧ (r.Closed → s.Closed) ∧ TupletsGoOn r s ∧
      s.passage.pending = r.passage.pending ∧ s.passage.headway = r.passage.headway := by
  subst hs
  refine ⟨rfl, ⟨hr.ids, hr.keyed, ?_⟩, fun hclosed => hclosed, .inr rfl, rfl, rfl⟩
  intro key hkey
  obtain ⟨hsame, hmembers, hreached, hbegun⟩ := hr.tuplets key hkey
  exact ⟨hsame, hmembers, hreached, hbegun⟩

/-- Tuplets that a note does not belong to close before it, and others stay open for it. -/
theorem makeWay (hr : r.Sound) {input : NoteInput} {line : Nat} {next : Unit → Step Unit}
    (h : Ends (if (!input.belongsToTuplet || r.passage.tupletKey? ≠ some input.key) = true then
      drainTuplets line >>= next else next ()) r u s) :
    ∃ t, Quiet r t ∧ (∀ x ∈ t.passage.tuplets, x.key = input.key) ∧ t.depth = input.kept r ∧
      t.passage.pending = r.passage.pending ∧ t.passage.headway = r.passage.headway ∧
      Ends (next ()) t u s := by
  split at h
  · next hbreaks =>
    obtain ⟨_, t, hdrain, hnext⟩ := h.bind
    obtain ⟨⟨hdrained, _⟩, hnone⟩ := Closes.drainTuplets hr hdrain
    have hkept : input.kept r = 0 := if_neg (by simpa [imp_iff_not_or] using hbreaks)
    exact ⟨t, hdrained, by simp [hnone], by simp [hkept, Reading.depth, hnone],
      (Discreet.habit id).habit.drainTuplets.ends hdrain, Keeps.headway_drainTuplets _ _ _ hdrain,
      hnext⟩
  · next hgoesOn =>
    have hgoesOn : input.belongsToTuplet ∧ r.passage.tupletKey? = some input.key := by
      simpa using hgoesOn
    have hkept : input.kept r = r.depth := if_pos hgoesOn
    exact ⟨r, Quiet.refl hr, (hr.tuplets _ hgoesOn.2).sameVoice, hkept.symm, rfl, rfl, h⟩

/-- Which marks a note takes shows in what waits afterwards. -/
theorem takes_of_pending {input : NoteInput}
    (h : s.passage.pending = if input.takes settings then ∅ else r.passage.pending) :
    Takes r s (input.marks settings r) := by
  unfold NoteInput.marks
  split at h
  · next htakes =>
    rw [if_pos htakes]
    exact .all h
  · next hleaves =>
    rw [if_neg hleaves]
    exact .none h

/-- A note element does the deed of its note: what the note takes, sings and intones is known. -/
theorem readNote (hr : r.Sound) {e : Element} (h : Ends (Partwise.readNote settings e) r u s) :
    ∃ input, Deed.ofNote settings r e = .note input ∧ Does r s (.note input) ∧
      (∃ id chunks after, r.partId? = some id ∧
        Intones r s id input.key (input.note.asRead, chunks) after ∧
        Sung settings (r.singing id input.key) input after chunks) ∧
      s.passage.pending = if input.takes settings then ∅ else r.passage.pending := by
  obtain ⟨_, _, hsurroundings, hrest₁⟩ := h.bind
  obtain ⟨rfl, rfl⟩ := hsurroundings.surroundings
  obtain ⟨input, r₁, hread, hrest₂⟩ := hrest₁.bind
  obtain ⟨hgives, rfl⟩ := hread.lift
  have hdeed : Deed.ofNote settings r₁ e = .note input := by
    rw [Deed.ofNote, hgives.result (NoteInput.steady _ e)]
  have hproper := NoteInput.proper hgives
  refine ⟨input, hdeed, ?_⟩
  extract_lets key takePlace at hrest₂
  obtain ⟨_, r₂, hcurrent, hrest₃⟩ := hrest₂.bind
  obtain ⟨hview, hsound, hclosed, htuplets, hwaits, hheadway⟩ := turn hr hcurrent.changePassage
  obtain ⟨_, r₃, htell, hrest₄⟩ := hrest₃.bind
  have htold := htell.tell
  subst htold
  have hnow : r₃.passage.current = input.key := congrArg View.current hview
  have hopen : r₃.passage.tuplets = r₁.passage.tuplets := by rw [hcurrent.changePassage]
  split at hrest₄
  · next hmember =>
    obtain ⟨id, hjoined, hstops, hfolds, ⟨chunks, after, hintones, hsung⟩, habsorbs, hleft⟩ :=
      Joined.joinChord hsound hproper hmember hrest₄
    rw [hnow] at hjoined
    rw [NoteInput.marks, hwaits] at hfolds
    rw [hwaits] at hleft
    have hsinging : r₃.singing = r₁.singing := congrArg View.singing hview
    rw [hsinging] at hsung
    have hjoined := hjoined.after hview hclosed htuplets
    exact ⟨.join hmember hjoined
      (hstops.trans (congrArg List.length hopen)) (takes_of_pending hleft)
      (hfolds.after (congrArg View.music hview)) (habsorbs.after (congrArg View.music hview) hheadway),
      ⟨id, chunks, after, hjoined.partId,
      hintones.after_same (congrArg View.music hview) hsinging, hsung⟩, hleft⟩
  · next hmember =>
    obtain ⟨_, r₄, hchord, hrest₅⟩ := hrest₄.bind
    have hquiet := Quiet.changePassage hsound hchord rfl rfl rfl
    obtain ⟨_, _, hget, hrest₆⟩ := hrest₅.bind
    obtain ⟨rfl, rfl⟩ := hget.get
    obtain ⟨r₅, hmade, hold, hdepth, hkeeps, hheadway', hplace⟩ := makeWay hquiet.sound hrest₆
    have hready := hquiet.trans hmade
    have hkept : input.kept r₄ = input.kept r₁ := by
      refine input.kept_congr ?_
      rw [hchord.changePassage, ← hopen]
    have halone : input.inChord = false := by simpa using hmember
    obtain ⟨id, hplaced, henters, hseats, ⟨chunks, after, hintones, hsung⟩, ⟨n, halights⟩, hleft⟩ :=
      Placed.placeNote hready.sound hproper halone hold hplace
    rw [hready.current, hnow] at hplaced
    rw [hdepth, hkept] at henters
    have hwaits : r₅.passage.pending = r₁.passage.pending := by
      rw [hkeeps, hchord.changePassage, ← hwaits]
    have hheadway : r₅.passage.headway = r₁.passage.headway := by
      rw [hheadway', hchord.changePassage, ← hheadway]
      rfl
    rw [NoteInput.marks, hwaits] at hseats
    rw [hwaits] at hleft
    have hsame := hready.view.trans hview
    have hsinging : r₅.singing = r₁.singing := congrArg View.singing hsame
    rw [hsinging] at hsung
    have hplaced := hplaced.after hsame (fun hr => hready.closed (hclosed hr))
      (htuplets.trans hready.tuplets)
    exact ⟨.place halone hplaced (henters.after hsame) (takes_of_pending hleft)
      (hseats.after hsame) ⟨n, halights.after hsame (htuplets.trans hready.tuplets) hheadway⟩,
      ⟨id, chunks, after, hplaced.partId,
      hintones.after_same (congrArg View.music hsame) hsinging, hsung⟩, hleft⟩

/-- The duration of a movement in time is what it was before the music broke off. -/
theorem movement (hr : r.Sound) {e : Element} {duration : WholeNotes}
    (h : Ends (Partwise.movement settings e) r duration s) :
    Closes r s ∧ s.passage.tuplets = [] ∧
      s.passage.headway = r.passage.headway ∧
      result ((r.surroundings settings).duration e) = some duration := by
  obtain ⟨_, r₁, hbreak, hrest₁⟩ := h.bind
  obtain ⟨hcloses, hnone⟩ := Closes.breakOff hr hbreak
  obtain ⟨_, _, hsurroundings, hread⟩ := hrest₁.bind
  obtain ⟨rfl, rfl⟩ := hsurroundings.surroundings
  obtain ⟨hgives, rfl⟩ := hread.lift
  rw [Surroundings.duration_congr (s := s.surroundings settings)
    (t := r.surroundings settings) hcloses.outline] at hgives
  exact ⟨hcloses, hnone, Keeps.headway_breakOff _ _ _ hbreak,
    hgives.result (Surroundings.steady_duration _ e)⟩

/-- A backup element does the deed of a movement back in time. -/
theorem readBackup (hr : r.Sound) {e : Element}
    (h : Ends (Partwise.readBackup settings e) r u s) :
    ∃ duration, Deed.ofBackup settings r e = .backup duration ∧ Does r s (.backup duration) := by
  have hheadway := Keeps.headway_readBackup _ _ _ h
  obtain ⟨duration, r₁, hmovement, hback⟩ := h.bind
  obtain ⟨hcloses, hnone, -, hduration⟩ := movement hr hmovement
  have hdeed : Deed.ofBackup settings r e = .backup duration := by
    rw [Deed.ofBackup, hduration]
  have hback := (WentBack.goBack hcloses.quiet.sound hnone hback).after_closes hcloses
  exact ⟨duration, hdeed, .backup hback hheadway⟩

/-- A forward element does the deed of a movement forward in time. -/
theorem readForward (hr : r.Sound) {e : Element}
    (h : Ends (Partwise.readForward settings e) r u s) :
    ∃ key duration, Deed.ofForward settings r e = .forward key duration e.line ∧
      Does r s (.forward key duration e.line) := by
  obtain ⟨duration, r₁, hmovement, hrest₁⟩ := h.bind
  obtain ⟨hcloses, hnone, hheadway, hduration⟩ := movement hr hmovement
  obtain ⟨_, _, hsurroundings, hrest₂⟩ := hrest₁.bind
  obtain ⟨rfl, rfl⟩ := hsurroundings.surroundings
  obtain ⟨_, _, hget, hrest₃⟩ := hrest₂.bind
  obtain ⟨rfl, rfl⟩ := hget.get
  obtain ⟨key, r₂, hread, hforward⟩ := hrest₃.bind
  obtain ⟨hgives, rfl⟩ := hread.lift
  rw [Surroundings.place_congr (s := r₂.surroundings settings) (t := r.surroundings settings) rfl
    hcloses.outline, hcloses.quiet.current] at hgives
  have hdeed : Deed.ofForward settings r e = .forward key duration e.line := by
    rw [Deed.ofForward, hduration, hgives.result (Surroundings.steady_place _ e _)]
  obtain ⟨id, hplaced, henters, hseats, ⟨n, halights⟩, hsinging⟩ :=
    Placed.goForward hcloses.quiet.sound hnone hforward
  rw [hcloses.quiet.current] at hplaced
  have hview : r₂.view = { r.view with current := r.passage.current } := hcloses.quiet.view
  exact ⟨key, duration, hdeed, .forward
    (hplaced.after hview hcloses.quiet.closed hcloses.quiet.tuplets) (henters.after hview)
    (hseats.after hview) (hsinging.trans hcloses.quiet.singing)
    ⟨n, halights.after hview hcloses.quiet.tuplets hheadway⟩⟩

/-- What is not heard means nothing for the music. -/
theorem of_quiet {d : Deed} (hd : d = .nothing) (h : Quiet r s)
    (hheadway : s.passage.headway = r.passage.headway) : Does r s d := by
  rw [hd]
  exact .nothing h hheadway

/-- Notes and movements forward apart, no element that is read changes how far the voices came. -/
theorem headway_readLeaf {e : Element} (hnote : e.name ≠ "note") (hforward : e.name ≠ "forward")
    (h : Ends (Partwise.readLeaf settings e) r u s) : s.passage.headway = r.passage.headway := by
  by_cases hgroup : e.name = "part-group"
  · simp only [Partwise.readLeaf, hgroup] at h
    rw [(SameMusic.readPartGroup h).passage]
  · by_cases hpart : e.name = "score-part"
    · simp only [Partwise.readLeaf, hpart] at h
      rcases Declared.of_readScorePart h with hsame | ⟨_, _, hsame, hdeclared⟩
      · rw [hsame.passage]
      · rw [hdeclared.passage, hsame.passage]
    · exact Keeps.headway_readLeaf hnote hforward hgroup hpart _ _ _ h

/-- An element is read that is not looked into any further. -/
theorem readLeaf (hr : r.Sound) {e : Element} (h : Ends (Partwise.readLeaf settings e) r u s) :
    Does r s (.ofLeaf settings r e) := by
  have hother : e.name ≠ "note" → e.name ≠ "backup" → e.name ≠ "forward" →
      Deed.ofLeaf settings r e = .nothing := by
    intro hnote hbackup hforward
    unfold Deed.ofLeaf
    split <;> first | contradiction | rfl
  have hnote (hname : e.name = "note") : Deed.ofLeaf settings r e = .ofNote settings r e := by
    simp [Deed.ofLeaf, hname]
  have hbackup (hname : e.name = "backup") :
      Deed.ofLeaf settings r e = .ofBackup settings r e := by
    simp [Deed.ofLeaf, hname]
  have hforward (hname : e.name = "forward") :
      Deed.ofLeaf settings r e = .ofForward settings r e := by
    simp [Deed.ofLeaf, hname]
  have hheadway := fun hnote hforward => headway_readLeaf hnote hforward h
  unfold Partwise.readLeaf at h
  split at h
  case h_8 hname =>
    obtain ⟨input, hdeed, hdoes, _⟩ := readNote hr h
    rwa [hnote hname, hdeed]
  case h_9 hname =>
    obtain ⟨duration, hdeed, hdoes⟩ := readBackup hr h
    rwa [hbackup hname, hdeed]
  case h_10 hname =>
    obtain ⟨key, duration, hdeed, hdoes⟩ := readForward hr h
    rwa [hforward hname, hdeed]
  case h_17 => exact of_quiet (hother ‹_› ‹_› ‹_›) (Quiet.lift hr h) (hheadway ‹_› ‹_›)
  -- all other elements are told apart by their names and are not heard
  all_goals refine of_quiet (by simp [Deed.ofLeaf, *]) ?_ (hheadway (by simp [*]) (by simp [*]))
  · exact Quiet.identify hr h
  · exact Quiet.identify hr h
  · exact Quiet.identify hr h
  · exact Quiet.identify hr h
  · exact Quiet.readPartGroup hr h
  · exact Quiet.readScorePart hr h
  · exact Quiet.readAttributes hr h
  · exact Quiet.readBarline hr h
  · exact Quiet.readDirection hr h
  · exact Quiet.readSound hr h
  · exact Quiet.lift hr h
  · exact Quiet.lift hr h
  · exact Quiet.lift hr h

/-- **Every move does what it means.** -/
theorem perform (hr : r.Sound) {m : Move} (h : Ends (m.perform settings) r u s) :
    Does r s (m.deed settings r) := by
  cases m with
  | enterPart e => exact .enterPart (PartBegins.enterPart hr h)
  | leavePart e => exact .leavePart (PartEnds.leavePart hr h)
  | enterMeasure e => exact .enterMeasure (MeasureBegins.enterMeasure hr h)
  | leaveMeasure e =>
    obtain ⟨hquiet, hnone⟩ := Quiet.leaveMeasure hr h
    exact .leaveMeasure hquiet hnone
  | leavePartList line =>
    have hsame := SameMusic.closeGroups h
    exact .nothing (Quiet.of_sameMusic hr hsame) (congrArg Passage.headway hsame.passage)
  | leaf e => exact readLeaf hr h

/-- A note takes the marks that it is meant to take. -/
theorem pending_of_note (hr : r.Sound) {m : Move} {input : NoteInput}
    (h : Ends (m.perform settings) r u s) (hdeed : m.deed settings r = .note input) :
    s.passage.pending = if input.takes settings then ∅ else r.passage.pending := by
  obtain ⟨e, rfl, hname⟩ := Move.of_deed_note hdeed
  have h : Ends (Partwise.readLeaf settings e) r u s := h
  have hdeed : Deed.ofLeaf settings r e = .note input := hdeed
  simp only [Partwise.readLeaf, hname] at h
  simp only [Deed.ofLeaf, hname] at hdeed
  obtain ⟨input', hdeed', _, _, hpending⟩ := readNote hr h
  cases hdeed.symm.trans hdeed'
  exact hpending

/-- The marks that were taken for a note are the note's own. -/
theorem marks_of_note (hr : r.Sound) {m : Move} {input : NoteInput} {marks : Attachments}
    (h : Ends (m.perform settings) r u s) (hdeed : m.deed settings r = .note input)
    (htakes : Takes r s marks) : marks = input.marks settings r :=
  htakes.unique (takes_of_pending (pending_of_note hr h hdeed))

/-- What a note brings to its voice is sung there. -/
theorem sung_of_note (hr : r.Sound) {m : Move} {input : NoteInput}
    (h : Ends (m.perform settings) r u s) (hdeed : m.deed settings r = .note input) :
    ∃ id chunks after, r.partId? = some id ∧
      Intones r s id input.key (input.note.asRead, chunks) after ∧
      Sung settings (r.singing id input.key) input after chunks := by
  obtain ⟨e, rfl, hname⟩ := Move.of_deed_note hdeed
  have h : Ends (Partwise.readLeaf settings e) r u s := h
  have hdeed : Deed.ofLeaf settings r e = .note input := hdeed
  simp only [Partwise.readLeaf, hname] at h
  simp only [Deed.ofLeaf, hname] at hdeed
  obtain ⟨input', hdeed', _, hsung, _⟩ := readNote hr h
  cases hdeed.symm.trans hdeed'
  exact hsung

/-- **Only notes and movements forward are heard**, and only in their own voice of the part that is
being read. -/
theorem music_other {d : Deed} (h : Does r s d) (halone : ∀ id, d = .enterPart id → r.partId? = none)
    {id : String} {key : VoiceKey} (hother : r.partId? = some id → d.voice? ≠ some key) :
    s.music id key = r.music id key := by
  have helsewhere : ∀ {at' : String} {k : VoiceKey}, r.partId? = some at' → d.voice? = some k →
      (id, key) ≠ (at', k) := by
    rintro at' k hat hvoice ⟨⟩
    exact hother hat hvoice
  cases h with
  | place _ placed => exact placed.others id key (helsewhere placed.partId rfl)
  | join _ joined => exact joined.others id key (helsewhere joined.partId rfl)
  | forward placed => exact placed.others id key (helsewhere placed.partId rfl)
  | backup back => rw [back.music]
  | enterMeasure begins => exact congrFun (congrFun (congrArg View.music begins.view) id) key
  | leaveMeasure quiet => exact quiet.music id key
  | enterPart begins => rw [begins.music (halone _ rfl)]
  | leavePart ends => rw [ends.music]
  | nothing quiet => exact quiet.music id key

/-- What voices remember of their lyrics changes with notes only. -/
theorem singing_eq {d : Deed} (h : Does r s d) (hd : ∀ input, d ≠ .note input) :
    s.singing = r.singing := by
  cases h with
  | place | join => exact absurd rfl (hd _)
  | forward _ _ _ singing => exact singing
  | backup back => exact back.singing
  | enterMeasure begins => exact congrArg View.singing begins.view
  | leaveMeasure quiet => exact quiet.singing
  | enterPart begins => exact begins.singing
  | leavePart ends => exact ends.singing
  | nothing quiet => exact quiet.singing

/-- A note is done only while a part is being read. -/
theorem inPart {input : NoteInput} (h : Does r s (.note input)) : ∃ id, r.partId? = some id := by
  cases h with
  | place _ placed => exact ⟨_, placed.partId⟩
  | join _ joined => exact ⟨_, joined.partId⟩

/-- Every deed keeps the invariants. -/
theorem sound {d : Deed} (h : Does r s d) : s.Sound := by
  cases h with
  | place _ placed => exact placed.sound
  | join _ joined => exact joined.sound
  | forward placed => exact placed.sound
  | backup back => exact back.sound
  | enterMeasure begins => exact begins.sound
  | leaveMeasure quiet => exact quiet.sound
  | enterPart begins => exact begins.sound
  | leavePart ends => exact ends.sound
  | nothing quiet => exact quiet.sound

end Does

end Partwise
