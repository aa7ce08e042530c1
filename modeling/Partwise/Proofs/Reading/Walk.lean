import Partwise.Reading.Document
import Partwise.Proofs.Reading.Ends

/-!
# Reading · Walk: a document as the moves of its reading

`visit` follows the tree of a document. What it does on the way is a list of moves: parts and
measures are entered and left, and everything else is read at once. `movesOf` lists them in the
order of the document, and `trail` says for each of them what was known before and after.

* `visit_eq`: to visit an element is to make its moves one after the other.
* `Document.follows_trail`: a document that is read to its end has a trail of all its moves
  (`Follows`), and its score is what the last reading on that trail is completed to.

Whatever holds of every step of a reading is therefore proved of the single moves and carried over
the trail by an induction on `Follows`.
-/

namespace Partwise

open Markup

/-! ## Moves -/

/-- A move of the walk through a document. -/
inductive Move where
  | enterPart (e : Element)
  | leavePart (e : Element)
  | enterMeasure (e : Element)
  | leaveMeasure (e : Element)
  | leavePartList (line : Nat)
  | leaf (e : Element)

/-- What a move does to the reading. -/
def Move.perform (settings : Settings) : Move → Step Unit
  | enterPart e => Partwise.enterPart e
  | leavePart e => Partwise.leavePart e
  | enterMeasure e => Partwise.enterMeasure e
  | leaveMeasure e => Partwise.leaveMeasure e
  | leavePartList line => closeGroups line
  | leaf e => readLeaf settings e

section

variable {settings : Settings} {e : Element}

/-- A note element is read as a note. -/
theorem readLeaf_note (h : e.name = "note") : readLeaf settings e = readNote settings e := by
  simp only [readLeaf, h]

/-- A backup element is read as a movement back in time. -/
theorem readLeaf_backup (h : e.name = "backup") : readLeaf settings e = readBackup settings e := by
  simp only [readLeaf, h]

/-- A forward element is read as a movement forward in time. -/
theorem readLeaf_forward (h : e.name = "forward") :
    readLeaf settings e = readForward settings e := by
  simp only [readLeaf, h]

/-- An attributes element is read as signs. -/
theorem readLeaf_attributes (h : e.name = "attributes") :
    readLeaf settings e = readAttributes e := by
  simp only [readLeaf, h]

/-- A barline element is read as a barline. -/
theorem readLeaf_barline (h : e.name = "barline") : readLeaf settings e = readBarline e := by
  simp only [readLeaf, h]

/-- A direction element is read as a direction. -/
theorem readLeaf_direction (h : e.name = "direction") :
    readLeaf settings e = readDirection settings e := by
  simp only [readLeaf, h]

/-- A sound element is read as a sound. -/
theorem readLeaf_sound (h : e.name = "sound") : readLeaf settings e = readSound e := by
  simp only [readLeaf, h]

/-- A part-group element is read as the start or the stop of a group. -/
theorem readLeaf_partGroup (h : e.name = "part-group") : readLeaf settings e = readPartGroup e := by
  simp only [readLeaf, h]

end

mutual

/-- The moves through an element, in the order of the document. -/
def movesOf (e : Element) : List Move :=
  match e with
  | ⟨name, attributes, text?, children, line⟩ =>
    let e : Element := ⟨name, attributes, text?, children, line⟩
    match name with
    | "score-partwise" => movesOfAll children
    | "part-list" => movesOfAll children ++ [.leavePartList line]
    | "part" => .enterPart e :: movesOfAll children ++ [.leavePart e]
    | "measure" => .enterMeasure e :: movesOfAll children ++ [.leaveMeasure e]
    | _ => [.leaf e]

/-- The moves through elements, one element after the other. -/
def movesOfAll (es : List Element) : List Move :=
  match es with
  | [] => []
  | e :: es => movesOf e ++ movesOfAll es

end

/-- An element with any other name is a single move. -/
theorem movesOf_leaf {e : Element} (hscore : e.name ≠ "score-partwise")
    (hlist : e.name ≠ "part-list") (hpart : e.name ≠ "part") (hmeasure : e.name ≠ "measure") :
    movesOf e = [.leaf e] := by
  match e with
  | ⟨name, attributes, text?, children, line⟩ =>
    unfold movesOf
    dsimp only
    split <;> first | contradiction | rfl

mutual

/-- To visit an element is to make its moves. -/
theorem visit_eq (settings : Settings) (e : Element) :
    visit settings e = forM (movesOf e) (Move.perform settings) := by
  match e with
  | ⟨name, attributes, text?, children, line⟩ =>
    have hall := visitAll_eq settings children
    unfold visit
    dsimp only
    split
    · exact hall
    · simp [movesOf, hall, Move.perform]
    · simp [movesOf, hall, Move.perform]
    · simp [movesOf, hall, Move.perform]
    · rw [movesOf_leaf ‹_› ‹_› ‹_› ‹_›]
      simp [Move.perform]

/-- To visit elements is to make their moves. -/
theorem visitAll_eq (settings : Settings) (es : List Element) :
    visitAll settings es = forM (movesOfAll es) (Move.perform settings) := by
  match es with
  | [] => rfl
  | e :: es =>
    unfold visitAll movesOfAll
    rw [visit_eq settings e, visitAll_eq settings es, List.forM_append]

end

/-! ## Trails -/

/-- A move with what was known before and after it. -/
structure Moment where
  before : Reading
  move : Move
  after : Reading

/-- The moments of some moves from a reading and a journal, up to the first move that fails. -/
def trailFrom (settings : Settings) : List Move → Reading → Journal → List Moment
  | [], _, _ => []
  | m :: ms, r, j =>
    match ((m.perform settings).run r).run.run j with
    | (.ok (_, s), j') => ⟨r, m, s⟩ :: trailFrom settings ms s j'
    | (.error _, _) => []

/-- The moments of the reading of a document. -/
def trail (settings : Settings) (root : Element) : List Moment :=
  trailFrom settings (movesOf root) {} [.event (.begun root.name root.size)]

/-- The moments lead from one reading to another, each where the one before it ended. -/
inductive Follows (settings : Settings) : Reading → List Moment → Reading → Prop
  | nil (r : Reading) : Follows settings r [] r
  | cons {m : Moment} {ms : List Moment} {t : Reading}
      (step : Ends (m.move.perform settings) m.before () m.after)
      (rest : Follows settings m.after ms t) : Follows settings m.before (m :: ms) t

namespace Follows

variable {settings : Settings} {r s t : Reading} {m : Moment} {ms ns : List Moment}

/-- A trail that goes on is a move and then the rest. -/
theorem of_cons (h : Follows settings r (m :: ms) t) :
    m.before = r ∧ Ends (m.move.perform settings) r () m.after ∧ Follows settings m.after ms t := by
  cases h with
  | cons step rest => exact ⟨rfl, step, rest⟩

/-- A trail of no moves stays where it is. -/
theorem of_nil (h : Follows settings r [] t) : t = r := by
  cases h
  rfl

/-- A trail may be taken apart anywhere. -/
theorem of_append (h : Follows settings r (ms ++ ns) t) :
    ∃ s, Follows settings r ms s ∧ Follows settings s ns t := by
  induction ms generalizing r with
  | nil => exact ⟨r, .nil r, h⟩
  | cons m ms ih =>
    obtain ⟨rfl, hstep, hrest⟩ := h.of_cons
    obtain ⟨s, hms, hns⟩ := ih hrest
    exact ⟨s, .cons hstep hms, hns⟩

/-- What every move keeps, a trail keeps. -/
theorem keeps {P : Reading → Prop} (h : Follows settings r ms t) (hr : P r)
    (step : ∀ m ∈ ms, P m.before → Ends (m.move.perform settings) m.before () m.after →
      P m.after) : P t := by
  induction h with
  | nil => exact hr
  | cons hstep _ ih =>
    exact ih (step _ List.mem_cons_self hr hstep)
      fun m hm => step m (List.mem_cons_of_mem _ hm)

/-- Every move of a trail ended well. -/
theorem ends (h : Follows settings r ms t) (hm : m ∈ ms) :
    Ends (m.move.perform settings) m.before () m.after := by
  induction h with
  | nil => exact absurd hm List.not_mem_nil
  | cons hstep _ ih =>
    rcases List.mem_cons.mp hm with rfl | hm
    · exact hstep
    · exact ih hm

end Follows

/-- A run of two steps from a journal is a run of the first and then one of the second. -/
theorem of_run_bind {α β : Type} {x : Step α} {f : α → Step β} {r t : Reading} {b : β}
    {j j' : Journal} (h : ((x >>= f).run r).run.run j = (.ok (b, t), j')) :
    ∃ a s j₁, (x.run r).run.run j = (.ok (a, s), j₁) ∧
      ((f a).run s).run.run j₁ = (.ok (b, t), j') := by
  rw [StateT.run_bind, ExceptT.run_bind, StateT.run_bind] at h
  rcases hx : (x.run r).run.run j with ⟨_ | ⟨a, s⟩, j₁⟩
  · rw [hx] at h
    exact nomatch h
  · rw [hx] at h
    exact ⟨a, s, j₁, rfl, h⟩

/-- Moves that are made to their end have a trail, which is all of them. -/
theorem follows_trailFrom {settings : Settings} {ms : List Move} {r s : Reading} {j j' : Journal}
    {u : Unit} (h : ((forM ms (Move.perform settings) : Step Unit).run r).run.run j =
      (.ok (u, s), j')) :
    Follows settings r (trailFrom settings ms r j) s ∧
      (trailFrom settings ms r j).map Moment.move = ms := by
  induction ms generalizing r j with
  | nil =>
    have hpure : Ends (Pure.pure ()) r u s := ⟨j, j', h⟩
    rw [hpure.pure.2]
    exact ⟨.nil r, rfl⟩
  | cons m ms ih =>
    rw [List.forM_cons] at h
    obtain ⟨_, s₁, j₁, hm, hms⟩ := of_run_bind h
    obtain ⟨hfollows, hmoves⟩ := ih hms
    have hstep : Ends (m.perform settings) r () s₁ := ⟨j, j₁, hm⟩
    unfold trailFrom
    rw [hm]
    exact ⟨Follows.cons (m := ⟨r, m, s₁⟩) hstep hfollows, congrArg (m :: ·) hmoves⟩

/-! ## Part lists and the end of a document -/

/-- What happens to the part list leaves the parts and all music as they are. -/
structure SameMusic (r s : Reading) : Prop where
  parts : s.parts = r.parts
  partId : s.partId? = r.partId?
  passage : s.passage = r.passage

namespace SameMusic

variable {r s t : Reading}

/-- A reading has the same music as itself. -/
theorem refl (r : Reading) : SameMusic r r := ⟨rfl, rfl, rfl⟩

/-- What has the same music after two steps has the same music after both together. -/
theorem trans (h : SameMusic r s) (h' : SameMusic s t) : SameMusic r t :=
  ⟨h'.parts.trans h.parts, h'.partId.trans h.partId, h'.passage.trans h.passage⟩

/-- A change of the part list leaves all music as it is. -/
theorem changePartList {f : PartList → PartList} {u : Unit}
    (h : Ends (Partwise.changePartList f) r u s) : SameMusic r s := by
  rw [Ends.modify h]
  exact ⟨rfl, rfl, rfl⟩

/-- That a group is closed leaves all music as it is. -/
theorem closeGroup {draft : GroupDraft} {u : Unit}
    (h : Ends (Partwise.closeGroup draft) r u s) : SameMusic r s := by
  obtain ⟨_, _, htell, hplace⟩ := h.bind
  cases htell.tell
  exact changePartList hplace

/-- The innermost group is closed, if one is open. -/
theorem closeInnermost {line : Nat} {u : Unit}
    (h : Ends (Partwise.closeInnermost line) r u s) : SameMusic r s := by
  obtain ⟨_, _, hget, hmatch⟩ := h.bind
  obtain ⟨rfl, rfl⟩ := hget.get
  dsimp only at hmatch
  split at hmatch
  · obtain ⟨_, _, hdrop, hrest⟩ := hmatch.bind
    refine (changePartList hdrop).trans ?_
    split at hrest
    · obtain ⟨_, _, hfind, hclose⟩ := hrest.bind
      cases hfind.find
      exact closeGroup hclose
    · exact closeGroup hrest
  · rw [hmatch.pure.2]
    exact refl _

/-- That all open groups are closed leaves all music as it is. -/
theorem closeGroups {line : Nat} {u : Unit}
    (h : Ends (Partwise.closeGroups line) r u s) : SameMusic r s := by
  obtain ⟨_, _, hget, hclose⟩ := h.bind
  obtain ⟨rfl, rfl⟩ := hget.get
  exact hclose.forM (P := SameMusic _) (refl _) fun _ _ _ _ hsame hrun =>
    hsame.trans (closeInnermost hrun)

end SameMusic

/-- A document with a score was read by a run that ended well. -/
theorem Document.of_run {settings : Settings} {root : Element} {score : Score}
    (h : (Document.run settings root).score = .ok score) :
    ∃ final j, ((do
        tell (.begun root.name root.size)
        visit settings root
        complete : Step Score).run {}).run.run [] = (.ok (score, final), j) ∧
      (Document.run settings root).journal = j := by
  unfold Document.run at h ⊢
  dsimp only at h ⊢
  split at h
  next result journal hrun =>
  cases result with
  | error failure => exact nomatch h
  | ok pair =>
    cases h
    exact ⟨pair.2, journal, hrun, rfl⟩

/-- The last entry of the journal leaves the score as it is. -/
@[simp] theorem Outcome.score_closed (o : Outcome) : o.closed.score = o.score := by
  unfold Outcome.closed
  split <;> simp_all

/-- A transcript is of the score that was read. -/
theorem Outcome.score_of_transcript {o : Outcome} {t : Transcript} (h : o.transcript = .ok t) :
    o.score = .ok t.score := by
  unfold Outcome.transcript at h
  generalize o.score = x at h ⊢
  cases x with
  | error => exact nomatch h
  | ok score =>
    cases h
    rfl

/-- **A document that is read** has a trail of all its moves, from a reading that knows nothing to
one that is completed to the score. -/
theorem Document.follows_trail {settings : Settings} {root : Element} {score : Score}
    (h : (Document.read settings root).score = .ok score) :
    ∃ last final, Follows settings {} (trail settings root) last ∧
      (trail settings root).map Moment.move = movesOf root ∧ Ends complete last score final := by
  unfold Document.read at h
  split at h
  · rw [Outcome.score_closed] at h
    obtain ⟨final, j, hrun, _⟩ := Document.of_run h
    obtain ⟨_, r₁, j₁, htell, hrest⟩ := of_run_bind hrun
    obtain ⟨_, last, j₂, hvisit, hcomplete⟩ := of_run_bind hrest
    cases htell
    rw [visit_eq] at hvisit
    obtain ⟨hfollows, hall⟩ := follows_trailFrom hvisit
    exact ⟨last, final, hfollows, hall, j₂, j, hcomplete⟩
  · exact nomatch h

end Partwise
