import Partwise.Proofs.Reading.Assembling
import Partwise.Proofs.Reading.Brackets
import Partwise.Proofs.Reading.Saying

/-!
# Reading · Listing: documents whose part list writes down a forest

The part list of a document is read as `aside_partList` says, wherever it stands among the elements
of the root. What comes before and after it declares nothing, so the forest stays as it is (`Keeps
.declared`), and nothing is found about part lists there (`Says.listed`). In the end the forest
takes in the parts with all their music: these are the groups of the score
(`Document.groups_written`).
-/

namespace Partwise

open Markup

variable {α : Type} {r s t : Reading} {settings : Settings} {line : Nat}

/-! ## What is found about part lists -/

/-- The diagnostic is about what a part list declares. -/
def Diagnostic.isOfPartList (d : Diagnostic) : Bool :=
  ["part_group_not_open", "part_group_not_closed", "duplicate_part_declaration",
    "unknown_part_group_type"].contains d.kind

/-- The diagnostics of a journal that are about part lists. -/
def Journal.listed (j : Journal) : List Diagnostic :=
  j.diagnostics.marks.filter Diagnostic.isOfPartList

/-- The kind of a finding says whether it is about part lists. -/
theorem Finding.isOfPartList_onLine (f : Finding) (line : Nat) :
    (f.onLine line).isOfPartList = f.isOfPartList := by
  cases f with
  | unknownWord list word => cases list <;> rfl
  | _ => rfl

theorem Journal.listed_append (said j : Journal) :
    Journal.listed (said ++ j) = Journal.listed j ++ Journal.listed said := by
  simp [listed, diagnostics]

/-- The entry is not about part lists. -/
def Entry.IsUnlisted (entry : Entry) : Prop := Journal.listed [entry] = []

/-- A finding is about part lists if its kind is. -/
theorem Entry.isUnlisted_found {finding : Finding} (h : finding.isOfPartList = false) (line : Nat) :
    (Entry.found line finding).IsUnlisted := by
  have hnone : (finding.onLine line).isOfPartList = false :=
    (finding.isOfPartList_onLine line).trans h
  simp [IsUnlisted, Journal.listed, Journal.diagnostics, diagnostic?, hnone]

/-- Plain entries are not about part lists. -/
theorem Entry.isUnlisted_of_isPlain {entry : Entry} (h : entry.isPlain = true) :
    entry.IsUnlisted := by
  cases entry with
  | event => rfl
  | found line finding =>
    refine isUnlisted_found ?_ line
    unfold isPlain at h
    split at h <;> simp_all

theorem Journal.listed_eq_nil {said : Journal} (h : ∀ entry ∈ said, entry.IsUnlisted) :
    Journal.listed said = [] := by
  induction said with
  | nil => rfl
  | cons entry said ih =>
    rw [← List.singleton_append, listed_append, h entry List.mem_cons_self,
      ih fun entry hentry => h entry (List.mem_cons_of_mem _ hentry), List.append_nil]

/-- What says nothing of part lists finds nothing about them. -/
theorem Says.listed {x : Step α} {a : α} {j j' : Journal} (hx : Says Entry.IsUnlisted x)
    (h : Runs x r j a s j') : Journal.listed j' = Journal.listed j := by
  obtain ⟨said, rfl, hsaid⟩ := hx _ _ _ _ _ h
  rw [Journal.listed_append, Journal.listed_eq_nil hsaid, List.append_nil]

/-- Music is no matter of part lists. -/
theorem unlisted_discipline : PartDiscipline fun _ x => Says Entry.IsUnlisted x :=
  Says.discipline (fun _ => Entry.isUnlisted_of_isPlain) (fun _ _ => rfl) fun _ _ _ => rfl

/-! ## Moves that declare nothing -/

/-- The move is one in a part list. -/
def Move.isOfPartList : Move → Bool
  | leavePartList _ => true
  | leaf e => e.name = "part-group" || e.name = "score-part"
  | _ => false

/-- All other moves keep what was declared and say nothing of part lists. -/
theorem Move.keeps_unlisted {m : Move} (hm : m.isOfPartList = false) :
    Keeps .declared (m.perform settings) ∧ Says Entry.IsUnlisted (m.perform settings) := by
  have hmusic := unlisted_discipline
  have hsettled := hmusic.discipline
  cases m with
  | enterPart e =>
    refine ⟨Keeps.declared_enterPart, .look fun r => ?_⟩
    split
    · exact .bind (.tell (fun _ => Entry.isUnlisted_of_isPlain) _) fun _ => .modify
    · exact .throw _
  | leavePart e =>
    exact ⟨Keeps.declared_leavePart, hmusic.bind hsettled.settle fun _ =>
      hmusic.bind hsettled.checkBars fun _ => hmusic.bind hmusic.endRepeats fun _ =>
      hmusic.bind (hmusic.changePart fun _ => rfl) fun _ => .modify⟩
  | enterMeasure e => exact ⟨Keeps.discipline.discipline.enterMeasure, hsettled.enterMeasure⟩
  | leaveMeasure e =>
    exact ⟨Keeps.discipline.discipline.leaveMeasure (.of_lift Keeps.lift),
      hsettled.leaveMeasure fun _ _ _ _ _ _ => .find rfl⟩
  | leavePartList line => exact nomatch hm
  | leaf e =>
    obtain ⟨hgroup, hpart⟩ : e.name ≠ "part-group" ∧ e.name ≠ "score-part" := by
      simpa [isOfPartList] using hm
    refine ⟨Keeps.declared_readLeaf hgroup hpart, ?_⟩
    show Says Entry.IsUnlisted (readLeaf settings e)
    by_cases hheader : e.name ∈ headerNames
    · simp only [headerNames, List.mem_cons, List.not_mem_nil, or_false, hgroup, hpart] at hheader
      unfold readLeaf
      rcases hheader with hname | hname | hname | hname <;> simp only [hname] <;>
        exact Says.modify
    · exact hmusic.readMusic hheader fun _ => Says.allowsBackup fun _ _ _ _ => rfl

/-- Elements that declare nothing leave what is declared as it is, and say nothing of the part list.
-/
theorem visitAll_keeps_unlisted {es : List Element}
    (hes : ∀ m ∈ movesOfAll es, m.isOfPartList = false) :
    Keeps .declared (visitAll settings es) ∧ Says Entry.IsUnlisted (visitAll settings es) := by
  rw [visitAll_eq]
  generalize movesOfAll es = ms at hes
  induction ms with
  | nil => exact ⟨.pure _, .pure _⟩
  | cons m ms ih =>
    obtain ⟨hkeeps, hunlisted⟩ := Move.keeps_unlisted (hes m List.mem_cons_self)
    obtain ⟨hkeeps', hunlisted'⟩ := ih fun m hm => hes m (List.mem_cons_of_mem _ hm)
    rw [List.forM_cons]
    exact ⟨hkeeps.bind fun _ => hkeeps', hunlisted.bind fun _ => hunlisted'⟩

/-! ## Documents -/

/-- The root is a partwise score, and its only part list writes down the trees. No part is declared
twice. -/
structure Markup.Element.WritesDown (root : Element) (before : List Element) (list : Element)
    (ts : List PartTree) (after : List Element) : Prop where
  name : root.name = "score-partwise"
  children : root.children = before ++ list :: after
  listName : list.name = "part-list"
  listed : list.children = elementsOfTrees ts
  wellWritten : AllWrittenWell ts
  distinct : ((declarationsOfTrees ts).map Element.declaredId).Nodup
  only : ∀ m ∈ movesOfAll before ++ movesOfAll after, m.isOfPartList = false

/-- After a part list all its groups are closed. -/
theorem visit_partList {e : Element} (hname : e.name = "part-list") :
    visit settings e = (do visitAll settings e.children; closeGroups e.line) := by
  match e with
  | ⟨name, attributes, text?, children, line⟩ =>
    cases hname
    rw [visit]

/-- A run of a step that goes without saying comes to what the step comes to. -/
theorem Runs.of_aside {S : Standard} {x : Step α} {P : α → Reading → Prop} {a : α}
    {j j' : Journal} (h : Runs x r j a s j') (hx : S.Aside x r P) :
    P a s ∧ ∃ said, j' = said ++ j ∧ S.heard said = [] := by
  obtain ⟨b, t, said, hrun, hsaid, hP⟩ := hx j
  rw [Runs, hrun] at h
  cases h
  exact ⟨hP, said, rfl, hsaid⟩

/-- Nothing that counts for `listing` is nothing at all. -/
theorem heard_listing (j : Journal) : listing.heard j = j.diagnostics.marks :=
  List.filter_true _

/-- Declared parts are there under their ids, whatever music they have. -/
theorem stocked_of_ids {parts : List Part} {declarations : List Element}
    (hids : parts.map Part.id = declarations.map Element.declaredId) :
    ∃ part, Stocked part parts declarations ∧
      ∀ e ∈ declarations, (part e).id = e.declaredId := by
  have hthere : ∀ e ∈ declarations, ∃ p, parts.find? (fun p => p.id = e.declaredId) = some p := by
    intro e he
    obtain ⟨p, hp, hid⟩ := List.mem_map.mp (hids ▸ List.mem_map_of_mem he)
    exact Option.isSome_iff_exists.mp (List.find?_isSome.mpr ⟨p, hp, decide_eq_true hid⟩)
  refine ⟨fun e => (parts.find? fun p => p.id = e.declaredId).getD e.declaredPart, ?_, ?_⟩
  · intro e he
    obtain ⟨p, hp⟩ := hthere e he
    simp only [hp, Option.getD_some]
  · intro e he
    obtain ⟨p, hp⟩ := hthere e he
    simp only [hp, Option.getD_some]
    simpa using List.find?_some hp

/-- Declared parts are found as they were declared. -/
theorem stocked_declaredPart {declarations : List Element}
    (hdistinct : (declarations.map Element.declaredId).Nodup) :
    Stocked Element.declaredPart (declarations.map Element.declaredPart) declarations := by
  induction declarations with
  | nil => exact nofun
  | cons first rest ih =>
    obtain ⟨hfirst, hrest⟩ := List.nodup_cons.mp hdistinct
    intro e he
    rcases List.mem_cons.mp he with rfl | he
    · exact List.find?_cons_of_pos (decide_eq_true rfl)
    · have hne : first.declaredPart.id ≠ e.declaredId := fun heq =>
        hfirst (List.mem_map.mpr ⟨e, he, heq.symm⟩)
      rw [List.map_cons, List.find?_cons_of_neg (by simpa using hne)]
      exact ih hrest e he

/-- A reading without open groups is completed to the groups that its parts are assembled to. -/
theorem aside_complete {groups : List PartGroup} (hnone : r.partList.openGroups = [])
    (hgroups : assembleGroups r.parts r.partList.rootGroups = .ok groups) :
    listing.Aside complete r fun score _ => score = ⟨r.identification, groups⟩ := by
  refine (aside_closeNone hnone).bind ?_
  rintro _ _ rfl
  refine .get ?_
  rw [hgroups]
  exact .pure rfl

namespace Markup.Element.WritesDown

variable {root list : Element} {before after : List Element} {ts : List PartTree}

/-- The part list is read without a finding, as long as nothing was declared before it. -/
theorem aside_list (h : root.WritesDown before list ts after)
    (hnone : r.partList.openGroups = []) (hempty : r.parts.map Part.id = []) :
    listing.Aside (visit settings list) r fun _ t => ∃ declared, t = r.rooted ts declared := by
  rw [visit_partList h.listName, h.listed]
  refine aside_partList ts h.wellWritten h.distinct (fun id _ => ?_) hnone
  rw [hempty]
  exact List.not_mem_nil

/-- A part list that is written down alone is read to its forest, without a finding. -/
theorem aside_score (h : root.WritesDown [] list ts []) :
    listing.Aside (do visit settings root; complete) {} fun score _ =>
      score = ⟨{}, groupsOfTrees Element.declaredPart ts⟩ := by
  rw [visit_score h.name, h.children]
  refine Standard.Aside.bind (P := fun _ t => ∃ declared, t = Reading.rooted {} ts declared) ?_ ?_
  · exact (h.aside_list rfl rfl).bind fun _ _ ht => .pure ht
  · rintro _ _ ⟨declared, rfl⟩
    exact aside_complete rfl (assembles_roots 0 ts h.distinct (stocked_declaredPart h.distinct))

/-- **However the document goes on**, the forest takes in the parts, and nothing is found about
it. -/
theorem of_run (h : root.WritesDown before list ts after) {score : Score} {j j' : Journal}
    (hrun : Runs (do visit settings root; complete) {} j score s j') :
    (∃ part : Element → Part, (∀ e ∈ declarationsOfTrees ts, (part e).id = e.declaredId) ∧
      score.groups = groupsOfTrees part ts) ∧ Journal.listed j' = Journal.listed j := by
  rw [visit_score h.name, h.children, visitAll_append] at hrun
  obtain ⟨_, t, j₃, hvisits, hcomplete⟩ := hrun.bind
  obtain ⟨_, r₁, j₁, hbefore, hrest⟩ := hvisits.bind
  obtain ⟨_, r₂, j₂, hlist, hafter⟩ := hrest.bind
  obtain ⟨hkeeps, hunlisted⟩ := @visitAll_keeps_unlisted settings before
    fun m hm => h.only m (List.mem_append_left _ hm)
  obtain ⟨hlist₁, hids₁⟩ := Prod.mk.inj (hkeeps _ _ _ hbefore.ends)
  have hnone : r₁.partList.openGroups = [] := by rw [hlist₁]
  -- so the part list is read as if it came first
  obtain ⟨⟨declared, rfl⟩, said, rfl, hsilent⟩ := hlist.of_aside (h.aside_list hnone hids₁)
  obtain ⟨hkeeps', hunlisted'⟩ := @visitAll_keeps_unlisted settings after
    fun m hm => h.only m (List.mem_append_right _ hm)
  obtain ⟨hlist₂, hids₂⟩ := Prod.mk.inj (hkeeps' _ _ _ hafter.ends)
  have hids : t.parts.map Part.id = (declarationsOfTrees ts).map Element.declaredId := by
    rw [hids₂, Reading.rooted, List.map_append, hids₁, ids_declaredPart]
    rfl
  have hroots : t.partList.rootGroups = rootsOfTrees 0 ts := by
    rw [hlist₂, Reading.rooted, hlist₁]
    rfl
  obtain ⟨part, hstocked, hpart⟩ := stocked_of_ids hids
  have hgroups : assembleGroups t.parts t.partList.rootGroups = .ok (groupsOfTrees part ts) := by
    rw [hroots]
    exact assembles_roots 0 ts h.distinct hstocked
  obtain ⟨rfl, said', rfl, hsilent'⟩ :=
    hcomplete.of_aside (aside_complete (by rw [hlist₂]; rfl) hgroups)
  have hquiet : ∀ {said : Journal}, listing.heard said = [] → Journal.listed said = [] := by
    intro said hsaid
    rw [heard_listing] at hsaid
    rw [Journal.listed, hsaid]
    rfl
  refine ⟨⟨part, hpart, rfl⟩, ?_⟩
  rw [Journal.listed_append, hunlisted'.listed hafter, Journal.listed_append,
    hunlisted.listed hbefore, hquiet hsilent, hquiet hsilent', List.append_nil, List.append_nil]

end Markup.Element.WritesDown

/-- The last entry of the journal is no finding. -/
theorem Outcome.marks_closed (o : Outcome) : o.closed.diagnostics.marks = o.diagnostics.marks := by
  unfold closed diagnostics
  split <;> exact (Journal.marks_append [_] _).trans (List.append_nil _)

/-- **A part list that is nested like brackets** is read to the forest that it writes down, with the
parts of the document in it, and nothing is found about part lists. A document that has nothing else
is read to that forest, and nothing is found at all. -/
theorem Document.groups_written {root list : Element} {before after : List Element}
    {ts : List PartTree} (h : root.WritesDown before list ts after) :
    (∀ score, (Document.read settings root).score = .ok score →
      (∃ part : Element → Part, (∀ e ∈ declarationsOfTrees ts, (part e).id = e.declaredId) ∧
        score.groups = groupsOfTrees part ts) ∧
      ∀ d ∈ (Document.read settings root).diagnostics.marks, d.isOfPartList = false) ∧
    (before = [] → after = [] →
      (Document.read settings root).score =
        .ok { identification := {}, groups := groupsOfTrees Element.declaredPart ts } ∧
      (Document.read settings root).diagnostics.marks = []) := by
  rw [Document.read, if_pos h.name, Outcome.score_closed]
  constructor
  · intro score hscore
    obtain ⟨final, j, hrun, hjournal⟩ := Document.of_run hscore
    obtain ⟨_, r₀, j₀, htell, hread⟩ := of_run_bind hrun
    cases htell
    obtain ⟨hgroups, hlisted⟩ := h.of_run hread
    refine ⟨hgroups, fun d hd => ?_⟩
    rw [Outcome.marks_closed, Outcome.diagnostics, hjournal] at hd
    have hnone : Journal.listed j = [] := hlisted
    exact Bool.eq_false_iff.mpr (List.filter_eq_nil_iff.mp hnone d hd)
  · rintro rfl rfl
    obtain ⟨score, final, said, hrun, hsilent, rfl⟩ :=
      (h.aside_score : listing.Aside (do visit settings root; complete) {} _)
        [.event (.begun root.name root.size)]
    have hread := Document.run_eq (hrun : ((do
      tell (.begun root.name root.size)
      visit settings root
      complete : Step Score).run {}).run.run [] = _)
    rw [Outcome.marks_closed, hread]
    refine ⟨rfl, (Journal.marks_append said _).trans ?_⟩
    rw [← heard_listing said, hsilent]
    rfl

/-- Two groups with the same number inside each other, with a part after them that is in no group,
and another group. -/
def reusedNumbers : List PartTree :=
  let start (number : String) :=
    Document.groupElement "start" number [textElement "group-symbol" "brace"]
  let stop (number : String) := Document.groupElement "stop" number []
  let part (id : String) := PartTree.part (Document.partElement id)
  [.group (start "1") [part "A", .group (start "1") [part "B"] (stop "1"), part "C"] (stop "1"),
    part "D", .group (start "1") [part "E"] (stop "1")]

/-- The inner group is stopped first. The part in no group takes the group after it into an implicit
one. -/
theorem Document.groups_written_reusedNumbers : ∃ score,
    (Document.read {} (onlyPartList (elementsOfTrees reusedNumbers))).score = .ok score ∧
      score.groups = groupsOfTrees Element.declaredPart reusedNumbers ∧
      score.groups.map (fun g => (g.id, g.isImplicit, g.members.length)) =
        [("1", false, 3), ("implicit", true, 2)] ∧
      (Document.read {} (onlyPartList (elementsOfTrees reusedNumbers))).diagnostics.marks = [] := by
  have hstart : Element.OpensGroup
      (Document.groupElement "start" "1" [textElement "group-symbol" "brace"]) := by
    refine ⟨rfl, rfl, ?_, ?_⟩
    · rintro _ ⟨⟩
      rfl
    · rintro _ _ ⟨⟩ ⟨⟩
      rfl
  have hstop : (Document.groupElement "stop" "1" []).ClosesGroup "1" := ⟨rfl, rfl, rfl⟩
  have hpart : ∀ id, (PartTree.part (Document.partElement id)).WrittenWell := fun _ => ⟨rfl, rfl⟩
  have hwritten : (onlyPartList (elementsOfTrees reusedNumbers)).WritesDown []
      { name := "part-list", children := elementsOfTrees reusedNumbers } reusedNumbers [] := {
    name := rfl
    children := rfl
    listName := rfl
    listed := rfl
    wellWritten := ⟨⟨hstart, hstop, hpart _, ⟨hstart, hstop, hpart _, trivial⟩, hpart _, trivial⟩,
      hpart _, ⟨hstart, hstop, hpart _, trivial⟩, trivial⟩
    distinct := by decide
    only := nofun }
  obtain ⟨hread, hsilent⟩ := (@Document.groups_written {} _ _ _ _ _ hwritten).2 rfl rfl
  exact ⟨_, hread, rfl, by decide, hsilent⟩

end Partwise
