import Partwise.Proofs.Reading.Pending

/-!
# Reading · Saying: what steps put on top of a journal

A step that goes well leaves the journal it was given and says something on top of it. `Says P`
holds of a step that says only what `P` allows. If `P` allows what decoders say, that marks were
dropped, and that a tuplet was empty, this is a discipline (`Says.discipline`), so it holds of all
music. What else an element or a boundary may find is found in one place only, which is then looked
at by
itself. -/

namespace Partwise

open Markup

variable {α β γ : Type} {r s : Reading} {j j' : Journal} {settings : Settings} {line : Nat}
  {P : Entry → Prop}

/-- All that the step says, on top of what was said before, is such. -/
def Says (P : Entry → Prop) (x : Step α) : Prop :=
  ∀ r j a s j', Runs x r j a s j' → ∃ said, j' = said ++ j ∧ ∀ entry ∈ said, P entry

namespace Says

/-- A run that leaves the journal as it is says only what is such. -/
theorem silent {j : Journal} : ∃ said, j = said ++ j ∧ ∀ entry ∈ said, P entry :=
  ⟨[], rfl, fun _ h => nomatch h⟩

/-- A step that only gives a value says nothing. -/
theorem pure (a : α) : Says P (Pure.pure a : Step α) := by
  intro r j b s j' h
  rw [h.pure.2]
  exact silent

/-- A step that fails never ends well, so of what it says nothing is asked. -/
theorem throw (failure : Failure) : Says P (MonadExcept.throw failure : Step α) :=
  fun _ _ _ _ _ h => nomatch h

/-- A steady decoder says only what is such, if all that is plain is. -/
theorem lift (hplain : ∀ entry : Entry, entry.isPlain = true → P entry) {x : Journaled α}
    (hx : Steady x) : Says P (liftM x : Step α) := by
  intro r j a s j' h
  obtain ⟨outcome, said, hrun, hsaid⟩ := hx.runs
  have h : ((x >>= fun a => Pure.pure (a, r) : Journaled _).run.run j) = _ := h
  rw [ExceptT.run_bind, StateT.run_bind, hrun] at h
  cases outcome with
  | error failure => exact nomatch h
  | ok b =>
    cases h
    exact ⟨said, rfl, fun entry hentry => hplain entry (hsaid entry hentry)⟩

/-- To demand a value says nothing. -/
theorem demand (x? : Option α) (failure : Failure) :
    Says P (liftM (Partwise.demand x? failure) : Step α) := by
  cases x? with
  | some a => exact pure a
  | none => exact throw failure

/-- To find something says only what is such, if the finding is. -/
theorem find {finding : Finding} (hfinding : P (.found line finding)) :
    Says P (liftM (Partwise.find line finding)) := by
  intro r j u s j' h
  refine ⟨[.found line finding], h.find.2, fun entry hentry => ?_⟩
  rw [List.mem_singleton.mp hentry]
  exact hfinding

/-- Two steps of which all that they say is such say nothing else together. -/
theorem bind {x : Step α} {f : α → Step β} (hx : Says P x) (hf : ∀ a, Says P (f a)) :
    Says P (x >>= f) := by
  intro r j b t j' h
  obtain ⟨a, s, j₁, hfirst, hrest⟩ := h.bind
  obtain ⟨said, rfl, hsaid⟩ := hx _ _ _ _ _ hfirst
  obtain ⟨said', rfl, hsaid'⟩ := hf a _ _ _ _ _ hrest
  refine ⟨said' ++ said, (List.append_assoc ..).symm, fun entry hentry => ?_⟩
  exact (List.mem_append.mp hentry).elim (hsaid' entry) (hsaid entry)

/-- A step that looks at the reading says nothing by that. -/
theorem look {f : Reading → Step α} (hf : ∀ r, Says P (f r)) :
    Says P (MonadState.get >>= f) := by
  intro r j a s j' h
  obtain ⟨_, _, _, hget, hrest⟩ := h.bind
  obtain ⟨rfl, rfl, rfl⟩ := hget.get
  exact hf _ _ _ _ _ _ hrest

/-- A change of the reading says nothing. -/
theorem modify {f : Reading → Reading} : Says P (modify f : Step Unit) := by
  intro r j u s j' h
  rw [h.modify.2]
  exact silent

/-- Steps that say nothing else do so together, one for each element of a list. -/
theorem forM {f : γ → Step Unit} (hf : ∀ c, Says P (f c)) (cs : List γ) : Says P (cs.forM f) := by
  induction cs with
  | nil => exact pure ()
  | cons c cs ih => exact bind (hf c) fun _ => ih

/-- To look at the part that is being read says nothing. -/
theorem currentPart : Says P (Partwise.currentPart line) := by
  refine look fun r => ?_
  split
  · exact pure _
  · exact throw _

/-- **All music** says what is allowed, if what decoders say is, that marks were dropped, and that a
tuplet was empty. -/
theorem discipline (hplain : ∀ entry : Entry, entry.isPlain = true → P entry)
    (hhollow : ∀ line number, P (.found line (.emptyTuplet number)))
    (hdrop : ∀ line marks measure, P (.found line (.attachmentsDropped marks measure))) :
    PartDiscipline fun _ x => Says P x where
  pure := pure
  throw failure _ := throw failure
  lift := lift hplain
  bind := bind
  look _ := look
  currentPart := currentPart
  voiceAt := by
    refine bind currentPart fun part => ?_
    split
    · exact pure _
    · exact bind (lift hplain (.tell _)) fun _ => bind modify fun _ => pure _
  changePassage _ := modify
  changePart _ := bind currentPart fun _ => modify
  changeMarks := modify
  drop := find (hdrop _ _ _)
  hollow := find (hhollow _ _)

/-- Going back in time is allowed, if what is found then is. -/
theorem allowsBackup (hback : ∀ line duration measure before,
    P (.found line (.backupBeforeMeasureStart duration measure before))) :
    AllowsBackup fun _ x => Says P x where
  overflow x line := demand x.neg? (.overflow line)
  find _ _ _ _ := find (hback _ _ _ _)

/-! ## Moves -/

section

variable (hplain : ∀ entry : Entry, entry.isPlain = true → P entry)
  (hhollow : ∀ line number, P (.found line (.emptyTuplet number)))
  (hdrop : ∀ line marks measure, P (.found line (.attachmentsDropped marks measure)))
  (hlisted : ∀ line finding, finding.isOfPartList = true → P (.found line finding))

include hplain

/-- To tell an event says only what is such, if all that is plain is. -/
theorem tell (event : Event) : Says P (liftM (Partwise.tell event)) := lift hplain (.tell event)

include hlisted

/-- **The header** and the part list say what is allowed. -/
theorem header : HeaderManner fun _ x => Says P x where
  pure := pure
  bind := bind
  look := look
  change _ := modify
  tell := tell hplain
  found h := find (hlisted _ _ h)
  throw failure _ := throw failure
  lift := lift hplain

include hhollow hdrop

/-- Movements back in time apart, all elements say what is allowed. -/
theorem readLeaf {e : Element} (hback : e.name ≠ "backup") :
    Says P (Partwise.readLeaf settings e) := by
  by_cases hheader : e.name ∈ headerNames
  · exact (header hplain hlisted).readLeaf hheader
  · exact (discipline hplain hhollow hdrop).readMusic hheader fun hname => absurd hname hback

/-- **All moves** say what is allowed, apart from movements back in time and from those that end a
measure. -/
theorem perform {m : Move} (hback : ∀ e, m = .leaf e → e.name ≠ "backup")
    (hleave : ∀ e, m ≠ .leaveMeasure e) : Says P (m.perform settings) := by
  have hmusic := discipline hplain hhollow hdrop
  have hsettled := hmusic.discipline
  cases m with
  | enterPart e =>
    refine look fun r => ?_
    split
    · exact bind (tell hplain _) fun _ => modify
    · exact throw _
  | leavePart e =>
    exact bind hsettled.settle fun _ => bind hsettled.checkBars fun _ =>
      bind hmusic.endRepeats fun _ => bind (hmusic.changePart fun _ => rfl) fun _ => modify
  | enterMeasure e => exact hsettled.enterMeasure
  | leaveMeasure e => exact absurd rfl (hleave e)
  | leavePartList line => exact (header hplain hlisted).closeGroups
  | leaf e => exact readLeaf hplain hhollow hdrop hlisted (hback e rfl)

end

end Says

end Partwise
