import Partwise.Proofs.Reading.Deeds
import Partwise.Proofs.Reading.Disciplines
import Partwise.Proofs.Reading.Keeping

/-!
# Reading · Pending: marks that wait for a note

Directions bring marks for the next note, which wait in one queue for all voices. Here it is said of
every move what it does to the queue and what it reports as dropped. Directions add to the queue, a
note takes all of it or nothing (`NoteInput.takes`), and the end of a measure or part drops what is
left (`Moment.drop?`). No other move touches the queue, and none drops anything: such steps are
`Discreet`.
-/

namespace Partwise

open Markup

variable {α β δ : Type} {r s t : Reading} {j j' : Journal} {settings : Settings} {line : Nat}
  {u : Unit}

/-! ## Runs with their journals -/

/-- The step takes a reading and a journal to others and comes to the value. -/
def Runs (x : Step α) (r : Reading) (j : Journal) (a : α) (s : Reading) (j' : Journal) : Prop :=
  (x.run r).run.run j = (.ok (a, s), j')

namespace Runs

/-- A run ends as its step does on some journal. -/
theorem ends {x : Step α} {a : α} (h : Runs x r j a s j') : Ends x r a s := ⟨j, j', h⟩

/-- A run of two steps is a run of each. -/
theorem bind {x : Step α} {f : α → Step β} {b : β} (h : Runs (x >>= f) r j b t j') :
    ∃ a s j₁, Runs x r j a s j₁ ∧ Runs (f a) s j₁ b t j' :=
  of_run_bind h

/-- A value that is there changes nothing and says nothing. -/
theorem pure {a b : α} (h : Runs (Pure.pure a) r j b s j') : s = r ∧ j' = j := by
  cases h
  exact ⟨rfl, rfl⟩

/-- A look at the reading changes nothing and says nothing. -/
theorem get {a : Reading} (h : Runs MonadState.get r j a s j') : r = a ∧ r = s ∧ j' = j := by
  cases h
  exact ⟨rfl, rfl, rfl⟩

/-- A change of the reading says nothing. -/
theorem modify {f : Reading → Reading} (h : Runs (modify f) r j u s j') : s = f r ∧ j' = j := by
  cases h
  exact ⟨rfl, rfl⟩

/-- What is found is noted and changes nothing. -/
theorem find {finding : Finding} (h : Runs (liftM (Partwise.find line finding)) r j u s j') :
    s = r ∧ j' = .found line finding :: j := by
  cases h
  exact ⟨rfl, rfl⟩

/-- A steady decoder changes nothing and says nothing of marks that were dropped. -/
theorem lift {x : Journaled α} {a : α} (hx : Steady x) (h : Runs (liftM x) r j a s j') :
    s = r ∧ Journal.drops j' = Journal.drops j := by
  obtain ⟨outcome, said, hrun, hkept⟩ := hx.runs
  have h : ((x >>= fun a => Pure.pure (a, r) : Journaled _).run.run j) = _ := h
  rw [ExceptT.run_bind, StateT.run_bind, hrun] at h
  cases outcome with
  | error failure => exact nomatch h
  | ok b =>
    cases h
    exact ⟨rfl, by rw [Journal.drops_append, Journal.drops_of_isPlain hkept, List.append_nil]⟩

end Runs

/-! ## Discretion -/

/-- The step drops nothing, and keeps what is seen of the marks that wait. -/
def Discreet (see : Attachments → δ) (x : Step α) : Prop :=
  ∀ r j a s j', Runs x r j a s j' →
    see s.passage.pending = see r.passage.pending ∧ Journal.drops j' = Journal.drops j

namespace Discreet

variable {see : Attachments → δ}

/-- A step that only gives a value is discreet. -/
theorem pure (a : α) : Discreet see (Pure.pure a : Step α) := by
  intro r j b s j' h
  obtain ⟨rfl, rfl⟩ := h.pure
  exact ⟨rfl, rfl⟩

/-- A step that fails is discreet, since it never ends well. -/
theorem throw (failure : Failure) : Discreet see (MonadExcept.throw failure : Step α) :=
  fun _ _ _ _ _ h => nomatch h

/-- A decoder that is steady is discreet. -/
theorem lift {x : Journaled α} (hx : Steady x) : Discreet see (liftM x : Step α) := by
  intro r j a s j' h
  obtain ⟨rfl, hkept⟩ := h.lift hx
  exact ⟨rfl, hkept⟩

/-- To find something is discreet, unless it is that marks were dropped. -/
theorem find {finding : Finding} (hkept : (Entry.found line finding).drop? = none) :
    Discreet see (liftM (Partwise.find line finding)) := by
  intro r j u s j' h
  obtain ⟨rfl, rfl⟩ := h.find
  exact ⟨rfl, by simp [Journal.drops, hkept]⟩

/-- Two discreet steps are discreet together. -/
theorem bind {x : Step α} {f : α → Step β} (hx : Discreet see x) (hf : ∀ a, Discreet see (f a)) :
    Discreet see (x >>= f) := by
  intro r j b t j' h
  obtain ⟨a, s, j₁, hfirst, hrest⟩ := h.bind
  obtain ⟨hkept, hdrops⟩ := hx _ _ _ _ _ hfirst
  obtain ⟨hkept', hdrops'⟩ := hf a _ _ _ _ _ hrest
  exact ⟨hkept'.trans hkept, hdrops'.trans hdrops⟩

/-- A step that looks at the reading is discreet, if it is for all that may be seen. -/
theorem look {f : Reading → Step α} (hf : ∀ r, Discreet see (f r)) :
    Discreet see (MonadState.get >>= f) := by
  intro r j a s j' h
  obtain ⟨_, _, _, hget, hrest⟩ := h.bind
  obtain ⟨rfl, rfl, rfl⟩ := hget.get
  exact hf _ _ _ _ _ _ hrest

/-- A change of the reading is discreet, if it keeps what is seen of the marks that wait. -/
theorem modify {f : Reading → Reading}
    (hf : ∀ r, see (f r).passage.pending = see r.passage.pending) :
    Discreet see (modify f : Step Unit) := by
  intro r j u s j' h
  obtain ⟨rfl, rfl⟩ := h.modify
  exact ⟨hf r, rfl⟩

/-- To look at the part that is being read is discreet. -/
theorem currentPart : Discreet see (Partwise.currentPart line) := by
  refine look fun r => ?_
  split
  · exact pure _
  · exact throw _

/-- Steps that leave the marks alone are discreet, whatever they do to the part. -/
theorem habit (see : Attachments → δ) : PartHabit fun _ x => Discreet see x where
  pure := pure
  throw failure _ := throw failure
  lift := lift
  bind := bind
  look _ := look
  currentPart := currentPart
  voiceAt := by
    refine bind currentPart fun part => ?_
    split
    · exact pure _
    · exact bind (lift (.tell _)) fun _ => bind (modify fun _ => rfl) fun _ => pure _
  changePassage hf := modify fun r => congrArg see (hf r.passage)
  changePart _ := bind currentPart fun _ => modify fun _ => rfl
  hollow := find rfl

/-- Notes and directions drop nothing. -/
theorem markHabit : MarkHabit fun _ x => Discreet (fun _ => ()) x where
  toHabit := (habit _).habit
  changeMarks _ := modify fun _ => rfl

/-- A backup may be made discreetly, for an overflow and a finding leave the marks alone. -/
theorem allowsBackup : AllowsBackup fun _ x => Discreet see x where
  overflow x line := by
    cases hneg : x.neg? with
    | some before => exact pure before
    | none => exact throw _
  find _ _ _ _ := find rfl

/-- A discreet step keeps what is seen of the marks. -/
theorem ends {x : Step α} {a : α} (hx : Discreet see x) (h : Ends x r a s) :
    see s.passage.pending = see r.passage.pending := by
  obtain ⟨j, j', hrun⟩ := h
  exact (hx _ _ _ _ _ hrun).1

/-! ### Header and part list -/

/-- The header and the part list leave the marks alone. -/
theorem header (see : Attachments → δ) : HeaderManner fun _ x => Discreet see x where
  pure := pure
  bind := bind
  look := look
  change hf := modify fun r => congrArg (fun p => see p.pending) (hf r)
  tell e := lift (.tell e)
  found h := find (Finding.drop?_of_isOfPartList h _)
  throw failure _ := throw failure
  lift := lift

/-- All elements but notes and directions are read discreetly. -/
theorem readLeaf {e : Element} (hnote : e.name ≠ "note") (hdirection : e.name ≠ "direction") :
    Discreet see (Partwise.readLeaf settings e) := by
  by_cases hheader : e.name ∈ headerNames
  · exact (header see).readLeaf hheader
  · by_cases hbarline : e.name = "barline"
    · simp only [Partwise.readLeaf, hbarline]
      exact (habit see).readBarline
    · exact (habit see).habit.readSigns hheader hbarline hnote hdirection fun _ => allowsBackup

/-- Nothing is dropped by elements that are not looked into any further. -/
theorem drops_readLeaf {e : Element} : Discreet (fun _ => ()) (Partwise.readLeaf settings e) := by
  by_cases hnote : e.name = "note"
  · simp only [Partwise.readLeaf, hnote]
    exact markHabit.readNote
  · by_cases hdirection : e.name = "direction"
    · simp only [Partwise.readLeaf, hdirection]
      exact markHabit.readDirection
    · exact readLeaf hnote hdirection

/-- To enter a part drops no marks. -/
theorem enterPart {e : Element} : Discreet (fun _ => ()) (Partwise.enterPart e) := by
  refine look fun r => ?_
  split
  · exact bind (lift (.tell _)) fun _ => modify fun _ => rfl
  · exact throw _

end Discreet

/-- All that is still open at the end of a part is closed discreetly. -/
theorem discreet_endPart {see : Attachments → δ} : Discreet see (do
    checkBars line none
    endRepeats line
    changePart line fun part => part.mapVoices Voice.flush
    modify fun r => { r with partId? := none }) := by
  have hdiscreet := Discreet.habit see
  exact hdiscreet.bind hdiscreet.habit.checkBars fun _ =>
    hdiscreet.bind hdiscreet.endRepeats fun _ =>
    hdiscreet.bind (hdiscreet.changePart fun _ => rfl) fun _ => Discreet.modify fun _ => rfl

/-! ## What notes take -/

/-- A note takes the marks that wait, or leaves them. A member of a chord always takes them; grace
notes leave them, and so do rests if the settings say so. -/
def NoteInput.takes (settings : Settings) (input : NoteInput) : Bool :=
  input.inChord || !(input.isGrace || input.note.isRest && settings.delayRestsAttachments)

/-- The marks that a note takes. -/
def NoteInput.marks (settings : Settings) (r : Reading) (input : NoteInput) : Attachments :=
  if input.takes settings then r.passage.pending else ∅

/-- A note takes all marks that wait, or it leaves them all. -/
inductive Takes (r s : Reading) : Attachments → Prop
  | all (empty : s.passage.pending = ∅) : Takes r s r.passage.pending
  | none (kept : s.passage.pending = r.passage.pending) : Takes r s ∅

/-- Which marks were taken shows in what waits before and after. -/
theorem Takes.unique {a b : Attachments} (ha : Takes r s a) (hb : Takes r s b) : a = b := by
  cases ha with
  | all hempty =>
    cases hb with
    | all => rfl
    | none hkept => exact hkept.symm.trans hempty
  | none hkept =>
    cases hb with
    | all hempty => exact (hkept.symm.trans hempty).symm
    | none => rfl

/-- The note as it is takes the marks that wait. -/
def Note.takes (settings : Settings) (n : Note) : Bool :=
  !(n.kind = .grace || n.isInvisibleRest || n.isRest && settings.delayRestsAttachments)

/-- The place of a note decides nothing about the marks, unless it is a member of a chord. -/
theorem NoteInput.Proper.takes_placed {input : NoteInput} (h : input.Proper)
    (halone : input.inChord = false) {inTuplet : Bool} {n : Note}
    (hcontent : n.content = input.note.content)
    (hkind : n.kind = noteKind input.note input.isGrace inTuplet) :
    (!input.isGrace && n.takes settings) = input.takes settings := by
  have hrest : n.isRest = input.note.isRest := congrArg NoteContent.isRest hcontent
  have hvisible : n.isInvisibleRest = false :=
    (congrArg NoteContent.isInvisible hcontent).trans h.visible
  cases hgrace : input.isGrace with
  | true => simp [takes, halone, hgrace]
  | false =>
    have hsounds : n.kind ≠ .grace := by
      rw [hkind, noteKind, hgrace]
      cases input.note.isRest <;> cases inTuplet <;> simp
    simp [takes, Note.takes, halone, hgrace, hrest, hvisible, hsounds]

/-- A member of a chord takes the marks. -/
theorem NoteInput.Proper.takes_member {input : NoteInput} (h : input.Proper)
    (hmember : input.inChord = true) (hsounds : input.note.isRest = false) :
    input.note.takes settings = input.takes settings := by
  have hvisible : input.note.isInvisibleRest = false := h.visible
  simp [takes, Note.takes, hmember, hsounds, hvisible, h.kind]

/-- **What a note takes** is all that waits, or nothing. -/
theorem Ends.takePending_eq {n n' : Note} (h : Ends (Partwise.takePending settings n) r n' s) :
    n' = { n with
      attachments := n.attachments ++ if n.takes settings then r.passage.pending else ∅ } ∧
    s = { r with
      passage := { r.passage with
        pending := if n.takes settings then ∅ else r.passage.pending } } := by
  obtain ⟨_, _, hget, hrest⟩ := h.bind
  obtain ⟨rfl, rfl⟩ := hget.get
  dsimp only at hrest
  split at hrest
  · next hleft =>
    obtain ⟨rfl, rfl⟩ := hrest.pure
    by_cases hnone : s.passage.pending = ∅
    · have hsame : (if n'.takes settings then ∅ else s.passage.pending) = s.passage.pending := by
        rw [hnone, ite_self]
      exact ⟨by simp [hnone], by rw [hsame]⟩
    · have hleaves : n'.takes settings = false := by
        simp only [Bool.or_eq_true, Attachments.isEmpty_iff, hnone, false_or, decide_eq_true_eq]
          at hleft
        rcases hleft with hgrace | hinvisible
        · simp [Note.takes, hgrace]
        · simp [Note.takes, hinvisible]
      simp [hleaves]
  · next hwaiting =>
    split at hrest
    · next hdelayed =>
      obtain ⟨rfl, rfl⟩ := hrest.pure
      have hleaves : n'.takes settings = false := by simp [Note.takes, hdelayed]
      simp [hleaves]
    · next hnow =>
      have htakes : n.takes settings = true := by
        clear hrest
        cases hrests : n.isRest <;> simp_all [Note.takes]
      simp only [htakes, if_true]
      split at hrest
      · obtain ⟨_, r₁, hfind, htake⟩ := hrest.bind
        cases hfind.find
        obtain ⟨_, r₂, hpassage, hpure⟩ := htake.bind
        obtain ⟨rfl, rfl⟩ := hpure.pure
        exact ⟨rfl, hpassage.changePassage⟩
      · obtain ⟨_, r₂, hpassage, hpure⟩ := hrest.bind
        obtain ⟨rfl, rfl⟩ := hpure.pure
        exact ⟨rfl, hpassage.changePassage⟩

/-! ## What directions bring -/

/-- The marks that a direction brings. -/
def Move.queued : Move → Attachments
  | leaf e =>
    if e.name = "direction" then
      (result (DirectionContent.ofElement e)).elim ∅ DirectionContent.attachments
    else ∅
  | _ => ∅

/-- A direction brings its marks, which wait behind those that wait already. -/
theorem Ends.readDirection {e : Element} (h : Ends (Partwise.readDirection settings e) r u s) :
    ∃ content, result (DirectionContent.ofElement e) = some content ∧
      s.passage.pending = r.passage.pending ++ content.attachments := by
  obtain ⟨_, _, hget, hrest₁⟩ := h.bind
  obtain ⟨rfl, rfl⟩ := hget.get
  obtain ⟨_, _, hsurroundings, hrest₂⟩ := hrest₁.bind
  obtain ⟨rfl, rfl⟩ := hsurroundings.surroundings
  obtain ⟨key, _, hkey, hrest₃⟩ := hrest₂.bind
  obtain ⟨_, rfl⟩ := hkey.lift
  obtain ⟨content, _, hcontent, hrest₄⟩ := hrest₃.bind
  obtain ⟨hgives, rfl⟩ := hcontent.lift
  obtain ⟨_, r₁, hqueue, hstand⟩ := hrest₄.bind
  have hkept := (Discreet.habit id).habit.forM (fun _ =>
    (Discreet.habit id).habit.appendTo ⟨rfl, rfl⟩) _ |>.ends hstand
  refine ⟨content, hgives.result (DirectionContent.steady e), hkept.trans ?_⟩
  rw [hqueue.changePassage]
  rfl

/-- An element that is no note leaves the marks waiting, behind those that it brings. -/
theorem Ends.pending_readLeaf {e : Element} (h : Ends (Partwise.readLeaf settings e) r u s)
    (hnote : e.name ≠ "note") :
    s.passage.pending = r.passage.pending ++ (Move.leaf e).queued := by
  by_cases hdirection : e.name = "direction"
  · have h : Ends (Partwise.readDirection settings e) r u s := by
      simpa only [Partwise.readLeaf, hdirection] using h
    obtain ⟨content, hcontent, hpending⟩ := h.readDirection
    rw [hpending, Move.queued, if_pos hdirection, hcontent]
    rfl
  · rw [Move.queued, if_neg hdirection, Attachments.append_empty]
    exact (Discreet.readLeaf hnote hdirection : Discreet id _).ends h

/-! ## What boundaries drop -/

/-- The marks that wait, if there are any, as they are dropped on a line. -/
def Reading.waiting? (r : Reading) (line : Nat) : Option Drop :=
  if r.passage.pending = ∅ then none
  else some ⟨line, r.passage.pending, r.passage.measureNumber⟩

/-- The marks that a move drops: those that wait at the end of a measure or of a part. -/
def Move.drop? (r : Reading) : Move → Option Drop
  | leaveMeasure e => r.waiting? e.line
  | leavePart e => r.waiting? e.line
  | _ => none

namespace Runs

/-- What is open in the passage ends: all marks that wait are dropped. -/
theorem settle (h : Runs (Partwise.settle line) r j u s j') :
    s.passage.pending = ∅ ∧ Journal.drops j' = Journal.drops j ++ (r.waiting? line).toList := by
  obtain ⟨_, r₁, j₁, hbreak, hdrop⟩ := h.bind
  obtain ⟨hpending, hdrops⟩ := (Discreet.habit id).habit.breakOff _ _ _ _ _ hbreak
  have hmeasure : r₁.passage.measureNumber = r.passage.measureNumber :=
    Keeps.measureNumber_breakOff _ _ _ hbreak.ends
  have hpending : r₁.passage.pending = r.passage.pending := hpending
  rw [Reading.waiting?, ← hpending, ← hmeasure, ← hdrops]
  obtain ⟨_, _, _, hget, hrest⟩ := hdrop.bind
  obtain ⟨rfl, rfl, rfl⟩ := hget.get
  dsimp only at hrest
  split at hrest
  · next hempty =>
    have hnone := (Attachments.isEmpty_iff _).mp hempty
    obtain ⟨rfl, rfl⟩ := hrest.pure
    rw [if_pos hnone]
    exact ⟨hnone, (List.append_nil _).symm⟩
  · next hsome =>
    have hsome := mt (Attachments.isEmpty_iff _).mpr hsome
    obtain ⟨_, r₂, j₂, hclear, hfind⟩ := hrest.bind
    obtain ⟨rfl, rfl⟩ := Runs.modify hclear
    obtain ⟨rfl, rfl⟩ := hfind.find
    rw [if_neg hsome]
    exact ⟨rfl, by simp [Journal.drops, Entry.drop?]⟩

/-- The end of a measure drops the marks that wait. -/
theorem leaveMeasure {e : Element} (h : Runs (Partwise.leaveMeasure e) r j u s j') :
    s.passage.pending = ∅ ∧ Journal.drops j' = Journal.drops j ++ (r.waiting? e.line).toList := by
  obtain ⟨_, r₁, j₁, hsettle, hrest⟩ := h.bind
  obtain ⟨hempty, hdrops⟩ := hsettle.settle
  obtain ⟨hpending, hsame⟩ := (Discreet.habit id).habit.passage (fun r s h => by simp only [h])
    (fun _ => (Discreet.habit id).forM (fun _ => .find rfl) _) _ _ _ _ _ hrest
  exact ⟨Eq.trans hpending hempty, hsame.trans hdrops⟩

/-- The end of a part drops the marks that wait. -/
theorem leavePart {e : Element} (h : Runs (Partwise.leavePart e) r j u s j') :
    s.passage.pending = ∅ ∧ Journal.drops j' = Journal.drops j ++ (r.waiting? e.line).toList := by
  obtain ⟨_, r₁, j₁, hsettle, hrest⟩ := h.bind
  obtain ⟨hempty, hdrops⟩ := hsettle.settle
  obtain ⟨hpending, hsame⟩ := (discreet_endPart : Discreet id _) _ _ _ _ _ hrest
  exact ⟨Eq.trans hpending hempty, hsame.trans hdrops⟩

end Runs

/-- **What a move drops** is what its journal says. -/
theorem Move.drops_perform {m : Move} (h : Runs (m.perform settings) r j u s j') :
    Journal.drops j' = Journal.drops j ++ (m.drop? r).toList := by
  have hnothing {δ : Type} {see : Attachments → δ} (hdiscreet : Discreet see (m.perform settings))
      (hnone : m.drop? r = none) :
      Journal.drops j' = Journal.drops j ++ (m.drop? r).toList := by
    rw [hnone, (hdiscreet _ _ _ _ _ h).2]
    exact (List.append_nil _).symm
  cases m with
  | enterPart e => exact hnothing .enterPart rfl
  | leavePart e => exact (Runs.leavePart h).2
  | enterMeasure e => exact hnothing (Discreet.habit id).habit.enterMeasure rfl
  | leaveMeasure e => exact (Runs.leaveMeasure h).2
  | leavePartList line => exact hnothing (Discreet.header id).closeGroups rfl
  | leaf e => exact hnothing .drops_readLeaf rfl

/-- What some moments drop. -/
def dropsOf (ms : List Moment) : List Drop := ms.filterMap fun m => m.move.drop? m.before

/-! ## What documents report as dropped -/

/-- Along a trail the journal says what the moves drop. -/
theorem drops_trailFrom {moves : List Move}
    (h : Runs (forM moves (Move.perform settings)) r j u s j') :
    Journal.drops j' = Journal.drops j ++ dropsOf (trailFrom settings moves r j) := by
  induction moves generalizing r j with
  | nil =>
    obtain ⟨_, rfl⟩ := Runs.pure h
    exact (List.append_nil _).symm
  | cons m moves ih =>
    rw [List.forM_cons] at h
    obtain ⟨_, r₁, j₁, hm, hrest⟩ := h.bind
    have hhead := Move.drops_perform hm
    unfold Runs at hm
    rw [ih hrest, hhead, trailFrom, hm, List.append_assoc]
    congr 1
    unfold dropsOf
    rw [List.filterMap_cons]
    cases m.drop? r <;> rfl

/-- A document is completed without dropping anything. -/
theorem drops_complete {score : Score} (h : Runs complete r j score s j') :
    Journal.drops j' = Journal.drops j := by
  obtain ⟨_, r₁, j₁, hclose, hrest⟩ := h.bind
  have hsame := ((Discreet.header id).closeGroups _ _ _ _ _ hclose).2
  obtain ⟨_, _, _, hget, hassemble⟩ := hrest.bind
  obtain ⟨rfl, rfl, rfl⟩ := hget.get
  split at hassemble
  · obtain ⟨_, rfl⟩ := hassemble.pure
    exact hsame
  · exact nomatch hassemble

/-- **What a document reports as dropped** is what the moments of its trail drop. -/
theorem Document.drops_journal {root : Element} {score : Score}
    (h : (Document.read settings root).score = .ok score) :
    Journal.drops (Document.read settings root).journal = dropsOf (trail settings root) := by
  unfold Document.read at h ⊢
  split at h
  · next hroot =>
    rw [if_pos hroot]
    rw [Outcome.score_closed] at h
    obtain ⟨final, j, hrun, hjournal⟩ := Document.of_run h
    obtain ⟨_, r₁, j₁, htell, hrest⟩ := Runs.bind hrun
    obtain ⟨_, last, j₂, hvisit, hcomplete⟩ := hrest.bind
    cases htell
    rw [visit_eq] at hvisit
    have hclosed : Journal.drops (Document.run settings root).closed.journal =
        Journal.drops (Document.run settings root).journal := by
      rw [Outcome.closed, h]
      exact (Journal.drops_append [_] _).trans (List.append_nil _)
    rw [hclosed, hjournal, drops_complete hcomplete, drops_trailFrom hvisit]
    rfl
  · exact nomatch h

/-- The diagnostic of marks that were dropped. -/
def Drop.diagnostic (d : Drop) : Diagnostic :=
  (Finding.attachmentsDropped d.marks d.measure).onLine d.line

/-- Only findings of marks that were dropped are of that kind. -/
theorem Entry.diagnostic_drop (e : Entry) :
    (e.diagnostic?.filter fun d => d.kind = "attachments_dropped") =
      e.drop?.map Drop.diagnostic := by
  cases e with
  | event => rfl
  | found line finding =>
    cases finding with
    | attachmentsDropped => rfl
    | unknownWord list => cases list <;> rfl
    | _ => rfl

/-- The diagnostics of that kind are those of the drops of a journal. -/
theorem Journal.ofKind_diagnostics (j : Journal) :
    (Journal.diagnostics j).ofKind "attachments_dropped" =
      (Journal.drops j).map Drop.diagnostic := by
  rw [Journal.diagnostics, Diagnostics.ofKind, Journal.drops, List.filter_filterMap,
    List.map_filterMap]
  exact congrArg (List.filterMap · j.reverse) (funext Entry.diagnostic_drop)

end Partwise
