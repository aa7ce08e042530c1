import Mathlib.Data.List.Perm.Basic
import Partwise.Proofs.Music.Conservation
import Partwise.Proofs.Reading.Confinement

/-!
# Reading · Independence: parts do not influence each other

What is read in a part concerns this part alone, and at its beginning the passage is cleared. So a
part comes to the same wherever it stands in the document, whatever parts were read before it, and
it says the same (`Turns.of_run`). Parts are kept in the order of their declarations, so in the end
their order in the document makes no difference
(`Document.parts_independent`). -/

namespace Partwise

open Markup

variable {settings : Settings}

/-! ## Kinds of elements -/

namespace Markup.Element

/-- The id that a part element names. -/
def partId (e : Element) : String := (e.attr? "id").getD ""

/-- The element with other elements in it. -/
def holding (e : Element) (es : List Element) : Element := { e with children := es }

/-- A part with nothing but music in it: measures, and no elements of the header or the part
list. -/
structure IsPart (e : Element) : Prop where
  name : e.name = "part"
  music : ∀ m ∈ movesOfAll e.children, m.IsMusic

instance (e : Element) : Decidable e.IsPart :=
  decidable_of_iff (e.name = "part" ∧ ∀ m ∈ movesOfAll e.children, m.IsMusic)
    ⟨fun h => ⟨h.1, h.2⟩, fun h => ⟨h.name, h.music⟩⟩

end Markup.Element

/-! ## One part -/

/-- The reading at another place of the document. -/
def Reading.standing (r : Reading) (id? : Option String) (passage : Passage) : Reading :=
  { r with partId? := id?, passage }

namespace Reading

variable {r : Reading} {id? id₁? : Option String} {q q₁ : Passage}

/-- The parts of a score are the same wherever the reading stands. -/
@[simp] theorem parts_standing : (r.standing id? q).parts = r.parts := rfl

/-- Only the last place at which a reading is put counts. -/
@[simp] theorem standing_standing : (r.standing id? q).standing id₁? q₁ = r.standing id₁? q₁ := rfl

end Reading

/-- Wherever the part `p` is declared, the element turns it into `p'` and says the same. -/
def Turns (settings : Settings) (e : Element) (p p' : Part) (said : Journal) : Prop :=
  p'.id = p.id ∧ ∃ q, ∀ r j, r.partOf e.partId = some p → (r.parts.map Part.id).Nodup →
    ((visit settings e).run r).run.run j =
      (.ok ((), (r.setPart p').standing none q), said ++ j)

/-- What is done at the end of a part, before it is left. -/
def closePart (e : Element) : Step Unit := do
  settle e.line
  checkBars e.line none
  endRepeats e.line
  changePart e.line fun part => part.mapVoices Voice.flush

/-- To leave a part touches that part alone. -/
theorem Confined.closePart {e : Element} : Confined .part (Partwise.closePart e) := by
  refine discipline.discipline.settle.bind fun _ => discipline.discipline.checkBars.bind fun _ =>
    discipline.endRepeats.bind fun _ => changePart fun p => ?_
  rfl

/-- A part element enters its part, reads what is in it and leaves it. -/
theorem visit_part {e : Element} (hname : e.name = "part") :
    visit settings e = (do
      enterPart e
      (do visitAll settings e.children; closePart e : Step Unit)
      modify fun r => { r with partId? := none }) := by
  match e with
  | ⟨name, attributes, text?, children, line⟩ =>
    cases hname
    unfold visit
    simp only [leavePart, closePart, bind_assoc]

section
variable {e : Element} {r s : Reading} {j j' : Journal} {p p' : Part} {said : Journal}

/-- A first step that ends well hands over to the second. -/
theorem run_bind_of_ok {α β : Type} {x : Step α} {f : α → Step β} {a : α}
    (h : (x.run r).run.run j = (.ok (a, s), j')) :
    ((x >>= f).run r).run.run j = ((f a).run s).run.run j' := by
  rw [StateT.run_bind, ExceptT.run_bind, StateT.run_bind, h]
  rfl

/-- A part that is declared is entered, with nothing left of the passage. -/
theorem run_enterPart (h : r.partOf e.partId = some p) :
    ((enterPart e).run r).run.run j =
      (.ok ((), r.standing (some e.partId) {}),
        [.event (.partEntered e.line e.partId)] ++ j) := by
  have hany : (r.parts.any fun part => part.id = e.partId) = true := by
    rw [List.any_eq_true]
    exact ⟨p, Reading.mem_of_partOf h, by simpa using Reading.id_of_partOf h⟩
  show ((if (r.parts.any fun part => part.id = e.partId) = true then _ else _ : Step Unit).run
    r).run.run j = _
  rw [if_pos hany]
  rfl

/-- A part that is entered is declared. -/
theorem declared_of_enterPart (h : Ends (enterPart e) r () s) : ∃ p, r.partOf e.partId = some p := by
  obtain ⟨_, _, hget, hif⟩ := h.bind
  obtain ⟨rfl, rfl⟩ := hget.get
  split at hif
  · next hany =>
    obtain ⟨p, hp, hid⟩ := List.any_eq_true.mp hany
    have hfound : (r.partOf e.partId).isSome = true :=
      List.find?_isSome.mpr ⟨p, hp, hid⟩
    exact Option.isSome_iff_exists.mp hfound
  · exact absurd hif not_ends_throw

/-- **A part element** that is read somewhere is read everywhere, and comes to the same. -/
theorem Turns.of_run (he : e.IsPart) (hr : (r.parts.map Part.id).Nodup)
    (h : ((visit settings e).run r).run.run j = (.ok ((), s), j')) :
    ∃ p p' said, r.partOf e.partId = some p ∧ Turns settings e p p' said := by
  rw [visit_part he.name] at h
  obtain ⟨_, _, j₁, henter, hrest⟩ := of_run_bind h
  obtain ⟨p, hp⟩ := declared_of_enterPart ⟨_, _, henter⟩
  rw [run_enterPart hp] at henter
  cases henter
  obtain ⟨_, _, _, hread, _⟩ := of_run_bind hrest
  have hinside : Confined .part (do visitAll settings e.children; closePart e : Step Unit) :=
    (Confined.visitMusic he.music).bind fun _ => Confined.closePart
  obtain ⟨outcome, said, hkeeps, hrun⟩ := hinside (p, {})
  have hstands : ∀ t : Reading, t.partOf e.partId = some p → (t.parts.map Part.id).Nodup →
      (t.standing (some e.partId) {}).Stands (p, {}) :=
    fun t ht hdistinct => ⟨ht, rfl, hdistinct⟩
  rw [hrun _ _ (hstands r hp hr)] at hread
  cases outcome with
  | error failure => exact nomatch hread
  | ok result =>
    obtain ⟨_, p', q⟩ := result
    refine ⟨p, p', said ++ [.event (.partEntered e.line e.partId)], hp, hkeeps () (p', q) rfl, q, ?_⟩
    intro t i ht hdistinct
    rw [visit_part he.name, run_bind_of_ok (run_enterPart ht), List.append_assoc]
    exact run_bind_of_ok (hrun _ _ (hstands t ht hdistinct))

end

/-! ## Parts one after the other -/

/-- The reading with parts put in their places, one after the other. -/
def Reading.setParts (r : Reading) (ps : List Part) : Reading := ps.foldl Reading.setPart r

namespace Reading

variable {r : Reading} {p q : Part} {ps qs : List Part}

/-- Where the reading stands makes no difference to the parts. -/
theorem setParts_standing {id? : Option String} {q : Passage} (ps : List Part) :
    (r.standing id? q).setParts ps = (r.setParts ps).standing id? q := by
  induction ps generalizing r with
  | nil => rfl
  | cons p ps ih => exact ih (r := r.setPart p)

/-- Parts with different ids do not stand in each other's way. -/
theorem setPart_comm (hid : p.id ≠ q.id) :
    (r.setPart p).setPart q = (r.setPart q).setPart p := by
  simp only [setPart, List.map_map, Reading.mk.injEq, true_and, and_true]
  apply List.map_congr_left
  intro part _
  by_cases hp : part.id = p.id
  · simp [hp, hid]
  · by_cases hq : part.id = q.id <;> simp [hp, hq, hid.symm]

/-- The order in which parts with different ids are put in their places makes no difference. -/
theorem setParts_perm (hperm : ps.Perm qs) (hdistinct : (ps.map Part.id).Nodup) :
    r.setParts ps = r.setParts qs := by
  refine hperm.foldl_eq' ?_ r
  intro p hp q hq t
  by_cases hpq : p = q
  · rw [hpq]
  · exact setPart_comm fun hid => hpq (List.inj_on_of_nodup_map hdistinct hp hq hid)

end Reading

section
variable {r s : Reading} {j j' : Journal} {es : List Element}

/-- A part that is turned into another one leaves the parts of other elements alone. -/
theorem Turns.partOf_other {d e : Element} {p p' : Part} {said : Journal}
    (h : Turns settings d p p' said) (hp : r.partOf d.partId = some p)
    (hne : e.partId ≠ d.partId) : (r.setPart p').partOf e.partId = r.partOf e.partId := by
  rw [Reading.partOf_setPart, if_neg]
  rwa [h.1, Reading.id_of_partOf hp]

/-- What each part element turns its part into and what it says, in a reading that has them all. -/
structure Performs (settings : Settings) (r : Reading) (es : List Element) (music : Element → Part)
    (said : Element → Journal) : Prop where
  distinct : (es.map Element.partId).Nodup
  turns : ∀ e ∈ es, ∃ p, r.partOf e.partId = some p ∧ Turns settings e p (music e) (said e)

/-- Part elements that are read one after the other each find the part that was declared. -/
theorem Turns.of_run_all (hparts : ∀ e ∈ es, e.IsPart) (hids : (es.map Element.partId).Nodup)
    (hr : (r.parts.map Part.id).Nodup)
    (h : ((visitAll settings es).run r).run.run j = (.ok ((), s), j')) :
    ∀ e ∈ es, ∃ p p' said, r.partOf e.partId = some p ∧ Turns settings e p p' said := by
  induction es generalizing r j with
  | nil => exact nofun
  | cons d es ih =>
    unfold visitAll at h
    obtain ⟨_, t, j₁, hd, hes⟩ := of_run_bind h
    obtain ⟨p, p', said, hp, hturns⟩ := Turns.of_run (hparts d List.mem_cons_self) hr hd
    rw [List.map_cons, List.nodup_cons] at hids
    obtain ⟨q, hrun⟩ := hturns.2
    rw [hrun r j hp hr] at hd
    cases hd
    intro e he
    rcases List.mem_cons.mp he with rfl | htail
    · exact ⟨p, p', said, hp, hturns⟩
    · obtain ⟨p₁, p₁', said₁, hp₁, hturns₁⟩ :=
        ih (fun e he => hparts e (List.mem_cons_of_mem d he)) hids.2 (by simpa using hr) hes e htail
      have hne : e.partId ≠ d.partId := fun heq => hids.1 (heq ▸ List.mem_map_of_mem htail)
      exact ⟨p₁, p₁', said₁, (hturns.partOf_other hp hne).symm.trans hp₁, hturns₁⟩

/-- Part elements that were read once have each their music and what they say. -/
theorem Performs.of_run (hparts : ∀ e ∈ es, e.IsPart) (hids : (es.map Element.partId).Nodup)
    (hr : (r.parts.map Part.id).Nodup)
    (h : ((visitAll settings es).run r).run.run j = (.ok ((), s), j')) :
    ∃ music said, Performs settings r es music said := by
  have : Nonempty Part := ⟨{ id := "", line := 0 }⟩
  choose! p music said hturns using Turns.of_run_all hparts hids hr h
  exact ⟨music, said, hids, fun e he => ⟨p e, hturns e he⟩⟩

/-- The parts are put in their places, and each element says what it says. -/
theorem Performs.run {music : Element → Part} {said : Element → Journal}
    (h : Performs settings r es music said) (hr : (r.parts.map Part.id).Nodup) (j : Journal) :
    ∃ id? q, ((visitAll settings es).run r).run.run j =
      (.ok ((), (r.setParts (es.map music)).standing id? q),
        es.reverse.flatMap said ++ j) := by
  induction es generalizing r j with
  | nil => exact ⟨r.partId?, r.passage, rfl⟩
  | cons e es ih =>
    obtain ⟨p, hp, hturns⟩ := h.turns e List.mem_cons_self
    obtain ⟨hid, hids⟩ := List.nodup_cons.mp h.distinct
    obtain ⟨q, hrun⟩ := hturns.2
    have hrest : Performs settings ((r.setPart (music e)).standing none q) es music said := by
      refine ⟨hids, fun d hd => ?_⟩
      obtain ⟨p₁, hp₁, hturns₁⟩ := h.turns d (List.mem_cons_of_mem e hd)
      have hne : d.partId ≠ e.partId := fun heq => hid (heq ▸ List.mem_map_of_mem hd)
      exact ⟨p₁, (hturns.partOf_other hp hne).trans hp₁, hturns₁⟩
    obtain ⟨id?, q', hrun'⟩ := ih hrest (by simpa using hr) (said e ++ j)
    refine ⟨id?, q', ?_⟩
    unfold visitAll
    rw [run_bind_of_ok (hrun r j hp hr), hrun', Reading.setParts_standing, List.reverse_cons,
      List.flatMap_append, List.append_assoc]
    simp [Reading.setParts]

end

/-! ## The end of a document -/

/-- The window on all that a score is made of. -/
def Window.score : Window (Identification × PartList × List Part) where
  Shows r v := r.identification = v.1 ∧ r.partList = v.2.1 ∧ r.parts = v.2.2
  Keeps _ _ := True
  put r v := { r with identification := v.1, partList := v.2.1, parts := v.2.2 }
  keeps_refl _ := trivial
  keeps_trans _ _ := trivial
  put_shown := by
    rintro r v ⟨hidentification, hlist, hparts⟩
    rw [← hidentification, ← hlist, ← hparts]
  shows_put _ _ := ⟨rfl, rfl, rfl⟩
  put_put _ := rfl

namespace Confined

/-- A change of the part list touches the score alone. -/
theorem changePartList (f : PartList → PartList) : Confined .score (Partwise.changePartList f) := by
  refine change (fun v => (v.1, f v.2.1, v.2.2)) (fun _ => trivial) ?_
  rintro r v ⟨hidentification, hlist, hparts⟩
  simp only [Window.score, ← hidentification, ← hlist, ← hparts]

/-- To close a group touches the score alone. -/
theorem closeGroup {draft : GroupDraft} : Confined .score (Partwise.closeGroup draft) :=
  (lift (Steady.tell _).blind).bind fun _ => changePartList _

/-- To close the innermost group touches the score alone. -/
theorem closeInnermost {line : Nat} : Confined .score (Partwise.closeInnermost line) := by
  refine get (fun hr hs => by simp only [hr.2.1, hs.2.1]) fun r => ?_
  dsimp only
  split
  · refine (changePartList _).bind fun _ => ?_
    split
    · exact (lift (.find ..)).bind fun _ => closeGroup
    · exact closeGroup
  · exact pure _

/-- To close all groups touches the score alone. -/
theorem closeGroups {line : Nat} : Confined .score (Partwise.closeGroups line) :=
  get (fun hr hs => by simp only [hr.2.1, hs.2.1]) fun _ => forM fun _ _ => closeInnermost

/-- The score is put together in sight of the parts and their groups only. -/
theorem complete : Confined .score Partwise.complete := by
  refine closeGroups.bind fun _ => get (fun hr hs => ?_) fun r => ?_
  · rw [hr.1, hr.2.1, hr.2.2, hs.1, hs.2.1, hs.2.2]
  · split
    · exact pure _
    · exact throw _

end Confined

/-! ## Documents -/

namespace Journal

/-- What was found in one journal on top of another. -/
theorem marks_append (j j' : Journal) :
    (j ++ j').diagnostics.marks = j'.diagnostics.marks ++ j.diagnostics.marks := by
  simp [diagnostics]

/-- What was found in journals one on top of the other. -/
theorem marks_flatMap (said : Element → Journal) (es : List Element) :
    (diagnostics (es.reverse.flatMap said)).marks =
      es.flatMap fun e => (said e).diagnostics.marks := by
  induction es with
  | nil => rfl
  | cons e es ih =>
    rw [List.reverse_cons, List.flatMap_append, marks_append, ih]
    simp

end Journal

/-- The elements inside the root are read one after the other. -/
theorem visit_score {e : Element} (hname : e.name = "score-partwise") :
    visit settings e = visitAll settings e.children := by
  match e with
  | ⟨name, attributes, text?, children, line⟩ =>
    cases hname
    rw [visit]

/-- The elements of two lists are read list by list. -/
theorem visitAll_append (es es' : List Element) :
    visitAll settings (es ++ es') = (do visitAll settings es; visitAll settings es') := by
  induction es with
  | nil => rfl
  | cons e es ih =>
    simp only [List.cons_append, visitAll, ih, bind_assoc]

/-- The size of a root does not depend on the order of the elements inside it. -/
theorem Markup.Element.size_perm {e : Element} {es es' : List Element} (h : es.Perm es') :
    (e.holding es).size = (e.holding es').size := by
  have : LeftCommutative fun (child : Element) total => child.size + total :=
    ⟨fun a b total => Nat.add_left_comm _ _ _⟩
  rw [size_eq, size_eq, holding, holding, h.foldr_eq]

/-- How a reading that ended well came out. -/
theorem Document.run_eq {root : Element} {score : Score} {s : Reading} {j : Journal}
    (h : ((do
        tell (.begun root.name root.size)
        visit settings root
        complete : Step Score).run {}).run.run [] = (.ok (score, s), j)) :
    Document.run settings root = { score := .ok score, journal := j } := by
  unfold Document.run
  dsimp only
  rw [h]
  rfl

/-- A document is read whose root ends with parts. -/
theorem Document.run_of_parts {root : Element} {head order : List Element} {score : Score}
    {r s t : Reading} {j₁ j₂ j₃ : Journal}
    (hname : (root.holding (head ++ order)).name = "score-partwise")
    (hhead : ((visitAll settings head).run {}).run.run
      [.event (.begun root.name (root.holding (head ++ order)).size)] = (.ok ((), r), j₁))
    (hparts : ((visitAll settings order).run r).run.run j₁ = (.ok ((), s), j₂))
    (hcomplete : (complete.run s).run.run j₂ = (.ok (score, t), j₃)) :
    Document.run settings (root.holding (head ++ order)) = { score := .ok score, journal := j₃ } := by
  refine Document.run_eq (s := t) ?_
  have hall : ((visitAll settings (head ++ order)).run {}).run.run
      [.event (.begun root.name (root.holding (head ++ order)).size)] = (.ok ((), s), j₂) := by
    rw [visitAll_append, run_bind_of_ok hhead, hparts]
  rw [run_bind_of_ok (s := {}) rfl, visit_score hname]
  exact (run_bind_of_ok hall).trans hcomplete

/-- What part elements do, they do in any order. -/
theorem Performs.perm {r : Reading} {es es' : List Element} {music : Element → Part}
    {said : Element → Journal} (h : Performs settings r es music said) (hperm : es'.Perm es) :
    Performs settings r es' music said :=
  ⟨(hperm.map _).nodup_iff.mpr h.distinct, fun e he => h.turns e (hperm.subset he)⟩

/-- The parts of part elements are told apart by their ids. -/
theorem Performs.ids_music {r : Reading} {es : List Element} {music : Element → Part}
    {said : Element → Journal} (h : Performs settings r es music said) :
    (es.map music).map Part.id = es.map Element.partId := by
  rw [List.map_map]
  apply List.map_congr_left
  intro e he
  obtain ⟨p, hp, hid, _⟩ := h.turns e he
  rw [Function.comp, hid, Reading.id_of_partOf hp]

/-- **Parts do not influence each other.** Where a document is read whose root ends with parts of
different ids, these may stand in any order: the score is the same, and what is found are the same
blocks of marks, one for each part, between what is found before and after all of them. -/
theorem Document.parts_independent {root : Element} {head parts : List Element} {score : Score}
    (hparts : ∀ e ∈ parts, e.IsPart) (hids : (parts.map Element.partId).Nodup)
    (hscore : (Document.read settings (root.holding (head ++ parts))).score = .ok score) :
    ∃ (before after : List Diagnostic) (block : Element → List Diagnostic),
      ∀ order, order.Perm parts →
        (Document.read settings (root.holding (head ++ order))).score = .ok score ∧
        (Document.read settings (root.holding (head ++ order))).diagnostics.marks =
          before ++ order.flatMap block ++ after := by
  have hname : ∀ es, (root.holding es).name = "score-partwise" := by
    intro es
    by_contra hne
    have hroot : (root.holding (head ++ parts)).name ≠ "score-partwise" := hne
    simp [Document.read, hroot, Outcome.refused] at hscore
  rw [Document.read, if_pos (hname _), Outcome.score_closed] at hscore
  obtain ⟨last, j, hrun, _⟩ := Document.of_run hscore
  obtain ⟨_, r, j₁, htell, hrest₁⟩ := of_run_bind hrun
  cases htell
  obtain ⟨_, s, j₂, hvisit, hcomplete⟩ := of_run_bind hrest₁
  rw [visit_score (hname _)] at hvisit
  obtain ⟨_, r, j₃, hhead, hread⟩ := of_run_bind (visitAll_append head parts ▸ hvisit)
  have hdistinct : (r.parts.map Part.id).Nodup := by
    rw [visitAll_eq] at hhead
    exact ((follows_trailFrom hhead).1.sound Reading.sound_empty).ids
  obtain ⟨music, said, hperforms⟩ := Performs.of_run hparts hids hdistinct hread
  -- how the document ends is decided by the parts with their music, wherever the reading stands
  let full := r.setParts (parts.map music)
  obtain ⟨outcome, saidEnd, _, hend⟩ :=
    Confined.complete (full.identification, full.partList, full.parts)
  obtain ⟨id?, q, hread'⟩ := hperforms.run hdistinct j₃
  rw [hread'] at hread
  cases hread
  rw [hend (full.standing id? q) _ ⟨rfl, rfl, rfl⟩] at hcomplete
  refine ⟨(Journal.diagnostics j₃).marks, (Journal.diagnostics saidEnd).marks,
    fun e => (Journal.diagnostics (said e)).marks, ?_⟩
  intro order hperm
  obtain ⟨id₁?, q₁, hread₁⟩ := (hperforms.perm hperm).run hdistinct j₃
  have hfull : r.setParts (order.map music) = full :=
    Reading.setParts_perm (hperm.map music) ((hperforms.perm hperm).ids_music ▸
      (hperforms.perm hperm).distinct)
  rw [hfull] at hread₁
  have hcomplete₁ := hend (full.standing id₁? q₁) (order.reverse.flatMap said ++ j₃) ⟨rfl, rfl, rfl⟩
  rcases outcome with failure | ⟨_, w⟩
  · exact nomatch hcomplete
  · cases hcomplete
    have hsize := Element.size_perm (e := root) (hperm.append_left head)
    have hrun₁ := Document.run_of_parts (hname _) (hsize ▸ hhead) hread₁ hcomplete₁
    rw [Document.read, if_pos (hname _), hrun₁]
    refine ⟨rfl, ?_⟩
    show (Journal.diagnostics (_ :: (saidEnd ++ (order.reverse.flatMap said ++ j₃)))).marks = _
    rw [← List.singleton_append, Journal.marks_append, Journal.marks_append, Journal.marks_append,
      Journal.marks_flatMap]
    exact List.append_nil _

/-- A part of a single measure. -/
def partElement (id : String) (es : List Element) : Element :=
  { name := "part"
    attributes := [("id", id)]
    children := [{ name := "measure", attributes := [("number", "1")], children := es }] }

/-- A part that ends with a repeat, a tuplet and a mark of which none is finished. -/
def unfinishedPart : Element :=
  partElement "P"
    [{ name := "barline"
       attributes := [("location", "left")]
       children := [{ name := "repeat", attributes := [("direction", "forward")] }] },
      noteElement 1 "C" "1" "2"
        [{ name := "notations", children := [{ name := "tuplet", attributes := [("type", "start")] }] }],
      { name := "direction", line := 2
        children := [{ name := "direction-type", children := [textElement "words" "dolce"] }] }]

/-- A part that goes back before the start of its measure. -/
def hastyPart : Element :=
  partElement "Q" [noteElement 3 "E" "1" "2" [], { backupElement "4" with line := 4 }]

/-- The declarations of two parts. -/
def declarations : List Element :=
  [{ name := "part-list"
     children := [{ name := "score-part", attributes := [("id", "P")] },
       { name := "score-part", attributes := [("id", "Q")] }] }]

/-- A document of two parts. -/
def twoParts (order : List Element) : Element :=
  Element.holding { name := "score-partwise" } (declarations ++ order)

/-- The unfinished part may stand before or after the other one. -/
theorem Document.parts_independent_unfinished : ∃ score before after block,
    (∀ order ∈ [[unfinishedPart, hastyPart], [hastyPart, unfinishedPart]],
      (Document.read {} (twoParts order)).score = .ok score ∧
        (Document.read {} (twoParts order)).diagnostics.marks =
          before ++ order.flatMap block ++ after) ∧
      (Document.read {} (twoParts [hastyPart, unfinishedPart])).diagnostics.marks.map
          Diagnostic.kind =
        ["backup_before_measure_start", "unterminated_tuplet", "attachments_dropped",
          "unterminated_repeat"] := by
  have hread : ∃ score,
      (Document.read {} (twoParts [unfinishedPart, hastyPart])).score = .ok score := by
    have hsome : (Document.read {} (twoParts [unfinishedPart, hastyPart])).score.toOption.isSome =
        true := by
      decide +kernel
    revert hsome
    cases (Document.read {} (twoParts [unfinishedPart, hastyPart])).score with
    | error failure => exact nofun
    | ok score => exact fun _ => ⟨score, rfl⟩
  obtain ⟨score, hscore⟩ := hread
  obtain ⟨before, after, block, hall⟩ :=
    @Document.parts_independent {} { name := "score-partwise" } declarations
      [unfinishedPart, hastyPart] score (by decide +kernel) (by decide +kernel) hscore
  refine ⟨score, before, after, block, ?_, by decide +kernel⟩
  intro order horder
  refine hall order ?_
  rcases List.mem_pair.mp horder with rfl | rfl
  · exact List.Perm.refl _
  · exact List.Perm.swap ..

end Partwise
