import Partwise.Proofs.Music.Nesting
import Partwise.Proofs.Reading.Policies

/-!
# Music · Fullness: no tuplet closes without members

A tuplet that has no members when it closes is dropped, as a finding. Nothing that a document says
leads to it: a tuplet opens for a note, and the note has joined it before anything closes.

`KeepsFilled` says of a step that it finds no such tuplet from a reading on, whether it goes well or
fails. Most steps have this from any reading (`KeepsFilled.manner`), and those that close tuplets
have it from a reading that is sound, where the innermost tuplet has members. A note that is placed
or joins a chord leaves a sound reading behind before its own tuplets close (`placeNote_then_close`,
`joinChord_then_close`). So every move has it (`KeepsFilled.perform`), and so does every document,
also one that fails (`Document.filled`).
-/

namespace Partwise

open Markup

variable {α β γ : Type} {r s : Reading} {j : Journal} {settings : Settings} {line : Nat}

/-! ## Journals without empty tuplets -/

/-- The entry says nothing of a tuplet without members. -/
def Entry.IsFilled (entry : Entry) : Prop :=
  ∀ line number, entry ≠ .found line (.emptyTuplet number)

/-- No tuplet was found to have no members. -/
def Journal.Filled (j : Journal) : Prop := ∀ entry ∈ j, entry.IsFilled

/-- Plain entries say nothing of tuplets without members. -/
theorem Entry.isFilled_of_isPlain {entry : Entry} (h : entry.isPlain = true) : entry.IsFilled := by
  rintro line number rfl
  exact nomatch h

/-- A journal without entries finds no empty tuplet. -/
theorem Journal.Filled.nil : Journal.Filled [] := fun _ h => absurd h List.not_mem_nil

/-- Of two journals one after the other neither finds an empty tuplet, so both of them do not. -/
theorem Journal.Filled.append {said : Journal} (hsaid : Journal.Filled said) (hj : j.Filled) :
    Journal.Filled (said ++ j) :=
  List.forall_mem_append.mpr ⟨hsaid, hj⟩

/-- An entry that finds no empty tuplet may be added. -/
theorem Journal.Filled.cons {entry : Entry} (hentry : entry.IsFilled) (hj : j.Filled) :
    Journal.Filled (entry :: j) :=
  List.forall_mem_cons.mpr ⟨hentry, hj⟩

/-- Only what is found of such a tuplet is a finding of this kind. -/
theorem Finding.of_kind_emptyTuplet {finding : Finding} (h : finding.kind = "empty_tuplet") :
    ∃ number, finding = .emptyTuplet number := by
  cases finding with
  | emptyTuplet number => exact ⟨number, rfl⟩
  | unknownWord list word => cases list <;> simp [kind, WordList.kind] at h
  | _ => simp [kind] at h

/-- A journal without such findings has no diagnostics of this kind. -/
theorem Journal.Filled.ofKind (hj : j.Filled) : j.diagnostics.ofKind "empty_tuplet" = [] := by
  rw [Diagnostics.ofKind, List.filter_eq_nil_iff]
  intro d hd hkind
  obtain ⟨entry, hentry, hsome⟩ := List.mem_filterMap.mp hd
  cases entry with
  | event e => cases hsome
  | found line finding =>
    cases hsome
    obtain ⟨number, rfl⟩ := Finding.of_kind_emptyTuplet (of_decide_eq_true hkind)
    exact hj _ (List.mem_reverse.mp hentry) line number rfl

/-! ## Steps that find none -/

/-- From the reading on, the step finds no tuplet without members, whether it goes well or fails. -/
def KeepsFilled (x : Step α) (r : Reading) : Prop :=
  ∀ j : Journal, j.Filled → Journal.Filled ((x.run r).run.run j).2

namespace KeepsFilled

/-- A step that only gives a value finds no empty tuplet. -/
theorem pure (a : α) (r : Reading) : KeepsFilled (Pure.pure a : Step α) r := fun _ h => h

/-- A step that fails finds no empty tuplet. -/
theorem throw (failure : Failure) (r : Reading) :
    KeepsFilled (MonadExcept.throw failure : Step α) r := fun _ h => h

/-- A change of the reading finds no empty tuplet. -/
theorem modify (f : Reading → Reading) (r : Reading) : KeepsFilled (modify f : Step Unit) r :=
  fun _ h => h

/-- What is found is no empty tuplet, if the finding is another one. -/
theorem find {finding : Finding} (h : (Entry.found line finding).IsFilled) (r : Reading) :
    KeepsFilled (liftM (Partwise.find line finding)) r := fun _ hj => .cons h hj

/-- A steady decoder finds no tuplet without members. -/
theorem lift {x : Journaled α} (hx : Steady x) (r : Reading) :
    KeepsFilled (liftM x : Step α) r := by
  intro j hj
  obtain ⟨outcome, said, hrun, hplain⟩ := hx.runs
  have hsaid : Journal.Filled said := fun entry hentry =>
    Entry.isFilled_of_isPlain (hplain entry hentry)
  have hlift : (liftM x : Step α).run r = x >>= fun a => Pure.pure (a, r) := rfl
  rw [hlift, ExceptT.run_bind, StateT.run_bind, hrun]
  cases outcome with
  | error failure => exact hsaid.append hj
  | ok a => exact hsaid.append hj

/-- To tell an event is to find no tuplet without members. -/
theorem tell (e : Event) (r : Reading) : KeepsFilled (liftM (Partwise.tell e)) r := lift (.tell e) r

/-- Where the first step ends, the second one begins. -/
theorem bind {x : Step α} {f : α → Step β} (hx : KeepsFilled x r)
    (hf : ∀ a s, Ends x r a s → KeepsFilled (f a) s) : KeepsFilled (x >>= f) r := by
  intro j hj
  have hfirst := hx j hj
  rw [StateT.run_bind, ExceptT.run_bind, StateT.run_bind]
  rcases hrun : (x.run r).run.run j with ⟨failure | ⟨a, s⟩, j₁⟩
  · rw [hrun] at hfirst
    exact hfirst
  · rw [hrun] at hfirst
    exact hf a s ⟨j, j₁, hrun⟩ j₁ hfirst

/-- A step that looks at the reading finds no empty tuplet, if it finds none on the reading it is
taken from. -/
theorem look {f : Reading → Step α} (hf : KeepsFilled (f r) r) :
    KeepsFilled (MonadState.get >>= f) r := by
  refine bind (fun _ h => h) fun a s hget => ?_
  obtain ⟨rfl, rfl⟩ := hget.get
  exact hf

/-- To look at the part that is being read finds no empty tuplet. -/
theorem currentPart (r : Reading) : KeepsFilled (Partwise.currentPart line) r := by
  refine look ?_
  split
  · exact pure _ _
  · exact throw _ _

/-- What closes no tuplet finds none without members, from any reading on. -/
theorem manner : PartManner fun _ x => ∀ r, KeepsFilled x r where
  pure := pure
  throw failure _ := throw failure
  lift := lift
  bind hx hf r := bind (hx r) fun a s _ => hf a s
  look _ hf r := look (hf r r)
  currentPart := currentPart
  voiceAt r := by
    refine bind (currentPart r) fun part s _ => ?_
    split
    · exact pure _ _
    · exact bind (tell _ _) fun _ _ _ => bind (modify _ _) fun _ _ _ => pure _ _
  changePassage _ := modify _
  changePart _ r := bind (currentPart r) fun _ _ _ => modify _ _

/-- Notes and directions that close no tuplet find none without members. -/
theorem markManner : MarkManner fun _ x => ∀ r, KeepsFilled x r where
  toManner := manner.manner
  changeMarks _ := modify _

/-- To find no empty tuplet holds of the steps of headers and part lists. -/
theorem header : HeaderManner fun _ x => ∀ r, KeepsFilled x r where
  pure := pure
  bind hx hf r := bind (hx r) fun a s _ => hf a s
  look hf r := look (hf r r)
  change _ := modify _
  tell := tell
  found h := find (by rintro _ _ ⟨⟩; exact nomatch h)
  throw failure _ := throw failure
  lift := lift

/-- To find no empty tuplet allows movements back in time. -/
theorem allowsBackup : AllowsBackup fun _ x => ∀ r, KeepsFilled x r where
  overflow x line := by
    cases x.neg? with
    | some before => exact pure before
    | none => exact throw _
  find _ _ _ _ := find (by rintro _ _ ⟨⟩)

/-! ## Tuplets that close -/

/-- In a sound reading the innermost tuplet has members, so it is not dropped when it closes. -/
theorem closeTuplet (hr : r.Sound) : KeepsFilled (Partwise.closeTuplet line) r := by
  refine look ?_
  split
  · exact throw _ _
  · next t outer htuplets =>
    have hsome : t.members ≠ [] :=
      (hr.tuplets t.key (Passage.tupletKey?_cons htuplets)).members t (by simp [htuplets])
    refine bind (modify _ _) fun _ s _ => ?_
    rw [if_neg (by simpa using hsome)]
    refine bind (tell _ _) fun _ _ _ => ?_
    split
    · exact manner.manner.appendTo ⟨rfl, rfl⟩ _
    · exact modify _ _

/-- Once it has closed the reading is sound again, so any number of tuplets may close. -/
theorem closeEach {xs : List γ} (hr : r.Sound) :
    KeepsFilled (xs.forM fun _ => Partwise.closeTuplet line) r := by
  induction xs generalizing r with
  | nil => exact pure () r
  | cons x xs ih =>
    refine bind (closeTuplet hr) fun _ s hclose => ?_
    exact ih (Closes.closeTuplet hr hclose).1.quiet.sound

/-- Some tuplets close one after the other, and none of them is empty. -/
theorem closeTuplets (hr : r.Sound) {count : Nat} :
    KeepsFilled (Partwise.closeTuplets line count) r :=
  closeEach hr

/-- All open tuplets close, and none of them is empty. -/
theorem drainTuplets (hr : r.Sound) : KeepsFilled (Partwise.drainTuplets line) r := by
  refine look ?_
  dsimp only
  split
  · refine bind (find (by rintro _ _ ⟨⟩) _) fun _ s hfind => ?_
    cases hfind.find
    exact closeTuplets hr
  · exact pure _ _

/-- Music that breaks off finds no empty tuplet. -/
theorem breakOff (hr : r.Sound) : KeepsFilled (Partwise.breakOff line) r :=
  bind (drainTuplets hr) fun _ _ _ => modify _ _

/-- Music that settles finds no empty tuplet. -/
theorem settle (hr : r.Sound) : KeepsFilled (Partwise.settle line) r :=
  bind (breakOff hr) fun _ s _ => markManner.dropPending (find (by rintro _ _ ⟨⟩)) s

end KeepsFilled

/-! ## Notes close tuplets last -/

/-- A step that comes after each of two others comes after them both. -/
theorem bind_then {x : Step α} {f g : α → Step Unit} {next : Step Unit}
    (h : ∀ a, f a = g a >>= fun _ => next) : x >>= f = (x >>= g) >>= fun _ => next := by
  rw [bind_assoc]
  exact bind_congr h

/-- A choice between two steps that each end with a third one ends with that one. -/
theorem ite_then {p : Prop} [Decidable p] {x x' y y' next : Step Unit}
    (hx : x = x' >>= fun _ => next) (hy : y = y' >>= fun _ => next) :
    (if p then x else y) = (if p then x' else y') >>= fun _ => next := by
  split
  · exact hx
  · exact hy

/-- The note as if no tuplet stopped on it. -/
def NoteInput.unstopped (input : NoteInput) : NoteInput := { input with tupletStops := 0 }

/-- A note that stops no tuplets is proper as it was before. -/
theorem NoteInput.Proper.unstopped {input : NoteInput} (h : input.Proper) :
    input.unstopped.Proper :=
  ⟨h.visible, h.timeless, h.kind, h.bare, h.unsung⟩

/-- A note is placed before tuplets stop on it. -/
theorem placeNote_then_close (settings : Settings) (input : NoteInput) :
    placeNote settings input = placeNote settings input.unstopped >>= fun _ =>
      closeTuplets input.note.line input.tupletStops := by
  refine bind_then fun _ => bind_then fun voice => bind_then fun r => bind_then fun _ =>
    bind_then fun s => ite_then (bind_then fun note => bind_then fun t => ?_)
      (bind_then fun marked => bind_then fun note => bind_then fun t => ?_)
  -- grace notes and others are seated in the same way
  all_goals
    dsimp only
    cases t.passage.tuplets with
    | nil => exact bind_then fun _ => ite_then (bind_then fun _ => rfl) (bind_then fun _ => rfl)
    | cons => exact bind_then fun _ => ite_then (bind_then fun _ => rfl) (bind_then fun _ => rfl)

/-- What joins a chord does so before tuplets stop on it. -/
theorem joinMember_then_close (line : Nat) (key : VoiceKey) (stops : Nat) (note : Note) :
    joinMember line key stops note = joinMember line key 0 note >>= fun _ =>
      closeTuplets line stops := by
  refine bind_then fun _ => bind_then fun t => ?_
  dsimp only
  cases t.passage.tuplets with
  | nil => exact bind_then fun _ => bind_then fun _ => rfl
  | cons tuplet outer =>
    refine ite_then ?_ (bind_then fun _ => bind_then fun _ => rfl)
    cases tuplet.join note (decide (t.passage.chord? = some key)) with
    | ok joined => exact bind_then fun _ => bind_then fun _ => rfl
    | error fault => rfl

/-- A note joins a chord before tuplets stop on it. -/
theorem joinChord_then_close (settings : Settings) (input : NoteInput) :
    joinChord settings input = joinChord settings input.unstopped >>= fun _ =>
      closeTuplets input.note.line input.tupletStops := by
  rw [joinChord_eq, joinChord_eq]
  exact ite_then rfl (bind_then fun note => bind_then fun _ => joinMember_then_close _ _ _ note)

namespace KeepsFilled

/-- Where none stops, none closes. -/
theorem unstopped (input : NoteInput) (r : Reading) :
    KeepsFilled (Partwise.closeTuplets input.unstopped.note.line input.unstopped.tupletStops) r :=
  pure () r

/-- A note that takes a place leaves a sound reading, and then its tuplets close. -/
theorem placeNote (hr : r.Sound) {input : NoteInput} (hproper : input.Proper)
    (halone : input.inChord = false) (hold : ∀ x ∈ r.passage.tuplets, x.key = input.key) :
    KeepsFilled (Partwise.placeNote settings input) r := by
  rw [placeNote_then_close]
  refine bind (markManner.placeNote (unstopped input) r) fun _ s hplace => ?_
  obtain ⟨id, hplaced, -⟩ := Placed.placeNote hr hproper.unstopped halone hold hplace
  exact closeTuplets hplaced.sound

/-- A note that joins a chord finds no tuplet without members. -/
theorem joinChord (hr : r.Sound) {input : NoteInput} (hproper : input.Proper)
    (hmember : input.inChord = true) : KeepsFilled (Partwise.joinChord settings input) r := by
  rw [joinChord_then_close]
  refine bind (markManner.joinChord (unstopped input) r) fun _ s hjoin => ?_
  obtain ⟨id, hjoined, -⟩ := Joined.joinChord hr hproper.unstopped hmember hjoin
  exact closeTuplets hjoined.sound

/-! ## Moves -/

/-- Note elements find no empty tuplet. -/
theorem readNote (hr : r.Sound) {e : Element} : KeepsFilled (Partwise.readNote settings e) r := by
  refine bind (markManner.surroundings r) fun known r₁ hknown => ?_
  obtain ⟨rfl, rfl⟩ := hknown.surroundings
  refine bind (lift (NoteInput.steady ..) _) fun input r₂ hread => ?_
  obtain ⟨hgives, rfl⟩ := hread.lift
  have hproper := NoteInput.proper hgives
  refine bind (modify _ _) fun _ r₃ hcurrent => ?_
  obtain ⟨-, hsound, -⟩ := Does.turn hr hcurrent.changePassage
  refine bind (tell _ _) fun _ r₄ htell => ?_
  cases htell.tell
  split
  · next hmember => exact joinChord hsound hproper hmember
  · next hmember =>
    have halone : input.inChord = false := by simpa using hmember
    refine bind (modify _ _) fun _ r₅ hchord => ?_
    have hready := (Quiet.changePassage hsound hchord rfl rfl rfl).sound
    refine look ?_
    dsimp only
    split
    · refine bind (drainTuplets hready) fun _ s hdrain => ?_
      obtain ⟨⟨hdrained, -⟩, hnone⟩ := Closes.drainTuplets hready hdrain
      exact placeNote hdrained.sound hproper halone (by simp [hnone])
    · next hgoesOn =>
      have hkey : r₅.passage.tupletKey? = some input.key := by simp_all
      exact placeNote hready hproper halone (hready.tuplets _ hkey).sameVoice

/-- To read how far a movement in time goes finds no empty tuplet. -/
theorem movement (hr : r.Sound) {e : Element} : KeepsFilled (Partwise.movement settings e) r := by
  refine bind (breakOff hr) fun _ s _ => bind (markManner.surroundings s) fun known t _ => ?_
  exact lift (known.steady_duration e) t

/-- Backup elements find no empty tuplet. -/
theorem readBackup (hr : r.Sound) {e : Element} : KeepsFilled (Partwise.readBackup settings e) r :=
  bind (movement hr) fun _ s _ => markManner.goBack allowsBackup s

/-- Forward elements find no empty tuplet. -/
theorem readForward (hr : r.Sound) {e : Element} :
    KeepsFilled (Partwise.readForward settings e) r := by
  refine bind (movement hr) fun _ s _ => bind (markManner.surroundings s) fun known t _ => look ?_
  exact bind (lift (known.steady_place e _) t) fun _ u _ => markManner.goForward u

/-- Barlines find no empty tuplet. -/
theorem readBarline (hr : r.Sound) {e : Element} : KeepsFilled (Partwise.readBarline e) r := by
  refine bind (breakOff hr) fun _ s _ => look ?_
  exact bind (lift (Barline.steady e _) s) fun _ _ _ => bind (tell _ _) fun _ _ _ =>
    bind (markManner.discard manner.voiceAt _) fun _ _ _ => bind (modify _ _) fun _ _ _ =>
    manner.changeVoices _

/-- No element that is not looked into any further finds an empty tuplet. -/
theorem readLeaf (hr : r.Sound) {e : Element} : KeepsFilled (Partwise.readLeaf settings e) r := by
  by_cases hheader : e.name ∈ headerNames
  · exact header.readLeaf hheader r
  · unfold Partwise.readLeaf
    split
    case h_7 => exact markManner.readAttributes r
    case h_8 => exact readNote hr
    case h_9 => exact readBackup hr
    case h_10 => exact readForward hr
    case h_11 => exact readBarline hr
    case h_12 => exact markManner.readDirection r
    case h_13 => exact markManner.readSound r
    case h_14 => exact find (by rintro _ _ ⟨⟩) r
    case h_15 => exact find (by rintro _ _ ⟨⟩) r
    case h_16 => exact find (by rintro _ _ ⟨⟩) r
    case h_17 => exact tell _ r
    all_goals simp_all [headerNames]

/-- **No move** finds a tuplet without members. -/
theorem perform (hr : r.Sound) (m : Move) : KeepsFilled (m.perform settings) r := by
  cases m with
  | enterPart e =>
    refine look ?_
    split
    · exact bind (tell _ _) fun _ _ _ => modify _ _
    · exact throw _ _
  | leavePart e =>
    refine bind (settle hr) fun _ s _ => ?_
    refine bind (markManner.checkBars s) fun _ t _ => ?_
    refine bind (manner.endRepeats t) fun _ u _ => ?_
    refine bind (manner.changePart ?_ u) fun _ _ _ => modify _ _
    exact fun _ => rfl
  | enterMeasure e => exact markManner.enterMeasure r
  | leaveMeasure e =>
    refine bind (settle hr) fun _ s _ => look ?_
    exact markManner.forM (fun _ => find (by rintro _ _ ⟨⟩)) _ s
  | leavePartList line => exact header.closeGroups r
  | leaf e => exact readLeaf hr

/-- Moves one after the other find none. -/
theorem moves (hr : r.Sound) (ms : List Move) :
    KeepsFilled (forM ms (Move.perform settings) : Step Unit) r := by
  induction ms generalizing r with
  | nil => exact pure () r
  | cons m ms ih =>
    rw [List.forM_cons]
    exact bind (perform hr m) fun _ s hm => ih (Does.perform hr hm).sound

/-- The end of a document finds no empty tuplet. -/
theorem complete (r : Reading) : KeepsFilled Partwise.complete r := by
  refine bind (header.closeGroups r) fun _ s _ => look ?_
  split
  · exact pure _ _
  · exact throw _ _

end KeepsFilled

/-! ## Documents -/


/-- What is said when a reading is closed is an event. -/
theorem Outcome.filled_closed {o : Outcome} (h : o.journal.Filled) : o.closed.journal.Filled := by
  unfold closed
  split
  · exact .cons nofun h
  · exact .cons nofun h

/-- **No tuplet is found without members**, in whatever document, also in one that fails. -/
theorem Document.filled (settings : Settings) (root : Element) :
    (Document.read settings root).journal.Filled := by
  have hreading : KeepsFilled (do
      tell (.begun root.name root.size)
      visit settings root
      complete : Step Score) {} := by
    refine .bind (.tell _ _) fun _ r htell => ?_
    rw [htell.tell, visit_eq]
    exact .bind (.moves Reading.sound_empty _) fun _ s _ => .complete s
  have hrun : (Document.run settings root).journal.Filled := by
    unfold run
    exact hreading [] .nil
  unfold read
  split
  · exact Outcome.filled_closed hrun
  · exact .nil

end Partwise
