import Partwise.Proofs.Reading.Disciplines

/-!
# Reading · Failing: how steps may fail

Where a step fails, the document is to blame (`Failure.Due`), for whatever a decoder finds in it.
Only a movement back in time may fail in another way, since it negates a position without looking
whether the result fits. `FailsAs.perform` says so of every move, and `Document.of_failed` at which
move a document
fails. -/

namespace Partwise

open Markup

variable {r s : Reading} {u : Unit} {settings : Settings}

/-! ## Steps that fail -/

/-- A run of two steps that fails does so in the first or in the second. -/
theorem of_failed_bind {α β : Type} {x : Step α} {f : α → Step β} {j j' : Journal}
    {failure : Failure} (h : ((x >>= f).run r).run.run j = (.error failure, j')) :
    (x.run r).run.run j = (.error failure, j') ∨ ∃ a s j₁,
      (x.run r).run.run j = (.ok (a, s), j₁) ∧ ((f a).run s).run.run j₁ = (.error failure, j') := by
  rw [StateT.run_bind, ExceptT.run_bind, StateT.run_bind] at h
  rcases hrun : (x.run r).run.run j with ⟨failure' | ⟨a, s⟩, j₁⟩
  · rw [hrun] at h
    cases h
    exact .inl rfl
  · rw [hrun] at h
    exact .inr ⟨a, s, j₁, rfl, h⟩

/-- The move goes back in time. -/
def Move.GoesBack (m : Move) : Prop := ∃ e, m = .leaf e ∧ e.name = "backup"

/-- The step fails only as it may. -/
def FailsAs (may : Failure → Prop) {α : Type} (x : Step α) : Prop :=
  ∀ r j failure j', (x.run r).run.run j = (.error failure, j') → may failure

namespace FailsAs

variable {α β γ : Type} {line : Nat} {may : Failure → Prop}

/-! ### Elementary steps -/

/-- A step that only gives a value does not fail. -/
theorem pure (a : α) : FailsAs may (Pure.pure a : Step α) := fun _ _ _ _ h => nomatch h

/-- A step that fails as it may fails as it may. -/
theorem throw {failure : Failure} (h : may failure) :
    FailsAs may (MonadExcept.throw failure : Step α) := by
  rintro _ _ _ _ ⟨⟩
  exact h

/-- Two steps that fail only as they may do so together. -/
theorem bind {x : Step α} {f : α → Step β} (hx : FailsAs may x) (hf : ∀ a, FailsAs may (f a)) :
    FailsAs may (x >>= f) := by
  intro r j failure j' h
  rcases of_failed_bind h with h | ⟨a, s, j₁, _, h⟩
  · exact hx _ _ _ _ h
  · exact hf a _ _ _ _ h

/-- A change of the reading does not fail. -/
theorem modify (f : Reading → Reading) : FailsAs may (modify f : Step Unit) :=
  fun _ _ _ _ h => nomatch h

/-- A step that looks at the reading does not fail by that. -/
theorem look {f : Reading → Step α} (hf : ∀ r, FailsAs may (f r)) :
    FailsAs may (MonadState.get >>= f) :=
  bind (fun _ _ _ _ h => nomatch h) hf

/-- To tell an event does not fail. -/
theorem tell (e : Event) : FailsAs may (liftM (Partwise.tell e) : Step Unit) :=
  fun _ _ _ _ h => nomatch h

/-- To find something does not fail. -/
theorem find (finding : Finding) : FailsAs may (liftM (Partwise.find line finding) : Step Unit) :=
  fun _ _ _ _ h => nomatch h

/-- To close groups never fails. -/
theorem listManner : ListManner fun _ x => FailsAs may x where
  pure := pure
  bind := bind
  look := look
  change _ := modify _
  tell := tell
  found _ := find _

section Due

/-! ### What the document is to blame for -/

variable (hdue : ∀ failure : Failure, failure.Due → may failure)

include hdue

/-- A steady decoder fails only where the document is to blame, so as it may. -/
theorem lift {x : Journaled α} (hx : Steady x) : FailsAs may (liftM x : Step α) := by
  intro r j failure j' h
  have hlift : ((liftM x : Step α).run r) = x >>= fun a => Pure.pure (a, r) := rfl
  rw [hlift, ExceptT.run_bind, StateT.run_bind] at h
  rcases hrun : x.run.run j with ⟨failure' | a, j₁⟩
  · rw [hrun] at h
    cases h
    exact hdue _ (hx.due j failure (by rw [hrun]))
  · rw [hrun] at h
    exact nomatch h

/-- To look at the part that is being read fails only as it may: where no part is. -/
theorem currentPart : FailsAs may (Partwise.currentPart line) := by
  refine look fun r => ?_
  split
  · exact pure _
  · exact throw (hdue _ trivial)

/-- To fail only as documents are to blame for is a discipline. -/
theorem discipline : PartDiscipline fun _ x => FailsAs may x where
  pure := pure
  throw _ h := throw (hdue _ h)
  lift := lift hdue
  bind := bind
  look _ := look
  currentPart := currentPart hdue
  voiceAt := by
    refine bind (currentPart hdue) fun part => ?_
    split
    · exact pure _
    · exact bind (tell _) fun _ => bind (modify _) fun _ => pure _
  changePassage _ := modify _
  changePart _ := bind (currentPart hdue) fun _ => modify _
  changeMarks := modify _
  drop _ _ _ _ h := nomatch h
  hollow := find _

/-- The header and the part list fail only as documents are to blame for. -/
theorem header : HeaderManner fun _ x => FailsAs may x where
  toListManner := listManner
  throw _ h := throw (hdue _ h)
  lift := lift hdue

/-- **A move** fails only as documents are to blame for, unless it goes back in time and a negation
overflows. -/
theorem perform (m : Move) (hover : m.GoesBack → ∀ line, may (.overflow line)) :
    FailsAs may (m.perform settings) := by
  have d := discipline hdue
  cases m with
  | enterPart e =>
    refine look fun r => ?_
    split
    · exact bind (tell _) fun _ => modify _
    · exact throw (hdue _ trivial)
  | leavePart e =>
    exact bind d.discipline.settle fun _ => bind d.discipline.checkBars fun _ =>
      bind d.endRepeats fun _ => bind (d.changePart fun _ => rfl) fun _ => modify _
  | enterMeasure e => exact d.discipline.enterMeasure
  | leaveMeasure e => exact d.discipline.leaveMeasure fun _ _ _ _ _ _ => find _
  | leavePartList line => exact listManner.closeGroups
  | leaf e =>
    by_cases hheader : e.name ∈ headerNames
    · exact (header hdue).readLeaf hheader
    · refine d.readMusic hheader fun hname => ⟨fun x line => ?_, fun _ _ _ _ => find _⟩
      cases hneg : x.neg? with
      | some before => exact pure before
      | none => exact throw (hover ⟨e, rfl, hname⟩ line)

end Due

end FailsAs

/-! ## Documents that fail -/

/-- Moves fail at one of them. -/
theorem failed_trailFrom {ms : List Move} {j j' : Journal} {failure : Failure}
    (h : ((forM ms (Move.perform settings) : Step Unit).run r).run.run j = (.error failure, j')) :
    ∃ last m rest j₁, Follows settings r (trailFrom settings ms r j) last ∧
      ms = (trailFrom settings ms r j).map Moment.move ++ m :: rest ∧
      ((m.perform settings).run last).run.run j₁ = (.error failure, j') := by
  induction ms generalizing r j with
  | nil => exact nomatch h
  | cons m ms ih =>
    rw [List.forM_cons] at h
    rcases of_failed_bind h with hfailed | ⟨_, s, j₁, hm, hrest⟩
    · refine ⟨r, m, ms, j, ?_⟩
      rw [trailFrom, hfailed]
      exact ⟨.nil r, rfl, rfl⟩
    · obtain ⟨last, m', rest, j₂, hfollows, hmoves, hfailed⟩ := ih hrest
      have hstep : Ends (m.perform settings) r () s := ⟨j, j₁, hm⟩
      refine ⟨last, m', rest, j₂, ?_⟩
      rw [trailFrom, hm]
      exact ⟨.cons (m := ⟨r, m, s⟩) hstep hfollows, congrArg (m :: ·) hmoves, hfailed⟩

/-- The trail of a document leads to a reading in which the step fails. -/
def Document.FailsIn (settings : Settings) (root : Element) (failure : Failure) {α : Type}
    (x : Step α) (last : Reading) : Prop :=
  Follows settings {} (trail settings root) last ∧
    ∃ j j', (x.run last).run.run j = (.error failure, j')

/-- **A document that is not read to its end** is no partwise document, or fails at one of its moves
or when the score is completed. -/
theorem Document.of_failed {root : Element} {failure : Failure}
    (h : (Document.read settings root).score = .error failure) :
    failure = .markup (.rootNotPartwise root.name) ∨
      (∃ last m rest, FailsIn settings root failure (m.perform settings) last ∧
        movesOf root = (trail settings root).map Moment.move ++ m :: rest) ∨
      ∃ last, FailsIn settings root failure complete last ∧
        (trail settings root).map Moment.move = movesOf root := by
  unfold read at h
  split at h
  · rw [Outcome.score_closed] at h
    unfold run at h
    dsimp only at h
    split at h
    next result journal hrun =>
    cases result with
    | ok pair => exact nomatch h
    | error failure' =>
      cases h
      rcases of_failed_bind hrun with htell | ⟨_, r₁, j₁, htell, hrest⟩
      · exact nomatch htell
      cases htell
      rcases of_failed_bind hrest with hvisit | ⟨_, last, j₂, hvisit, hcomplete⟩
      · rw [visit_eq] at hvisit
        obtain ⟨last, m, rest, j₂, hfollows, hmoves, hfailed⟩ := failed_trailFrom hvisit
        exact .inr (.inl ⟨last, m, rest, ⟨hfollows, j₂, _, hfailed⟩, hmoves⟩)
      · rw [visit_eq] at hvisit
        obtain ⟨hfollows, hmoves⟩ := follows_trailFrom hvisit
        exact .inr (.inr ⟨last, ⟨hfollows, j₂, _, hcomplete⟩, hmoves⟩)
  · cases h
    exact .inl rfl

end Partwise
