import Partwise.Proofs.Music.Conservation
import Partwise.Proofs.Reading.Enlisting
import Partwise.Proofs.Reading.Failing

/-!
# Reading · Assembling: the forest of a score is what was declared

A score is assembled of the groups that a part list has in the end. Each group becomes one with the
same heading and the same members (`GroupDraft.Becomes`), so what holds of the part list holds of
the forest: it has every group that was started and every part that was declared, each once and in
order (`Score.Holds`, `Document.forest`).

Assembly takes parts out of those that were declared, and it fails when one is not there any more.
It never is: the groups hold the id of each part once, and no other step of a reading fails for that
reason.
-/

namespace Partwise

open Markup

variable {r s : Reading} {u : Unit}

/-! ## Assembly never fails -/

mutual

/-- A group is assembled when all its parts are there, each once. -/
theorem GroupDraft.assembles {parts : List Part} (draft : GroupDraft)
    (hparts : (parts.map Part.id).Nodup) (hids : draft.ids.Nodup)
    (hthere : ∀ id ∈ draft.ids, id ∈ parts.map Part.id) :
    ∃ result, draft.assemble parts = .ok result := by
  match draft with
  | ⟨heading, members, _⟩ =>
    obtain ⟨⟨gathered, left⟩, hmembers⟩ :=
      assembles_members heading.line members hparts hids hthere
    exact ⟨_, by rw [GroupDraft.assemble, hmembers]; rfl⟩

/-- A member is assembled when all its parts are there, each once. -/
theorem DraftMember.assembles (line : Nat) {parts : List Part} (m : DraftMember)
    (hparts : (parts.map Part.id).Nodup) (hids : m.ids.Nodup)
    (hthere : ∀ id ∈ m.ids, id ∈ parts.map Part.id) :
    ∃ result, m.assemble line parts = .ok result := by
  match m with
  | .part id _ =>
    obtain ⟨part, hpart, hid⟩ := List.mem_map.mp (hthere id (List.mem_singleton_self id))
    unfold DraftMember.assemble
    split
    · exact ⟨_, rfl⟩
    · next hnone => exact absurd hid (by simpa using List.find?_eq_none.mp hnone part hpart)
  | .group draft =>
    obtain ⟨⟨group, left⟩, hgroup⟩ := GroupDraft.assembles draft hparts hids hthere
    exact ⟨_, by rw [DraftMember.assemble, hgroup]; rfl⟩

/-- Members are assembled when all their parts are there, each once. -/
theorem assembles_members (line : Nat) {parts : List Part} (ms : List DraftMember)
    (hparts : (parts.map Part.id).Nodup) (hids : (idsOfDrafts ms).Nodup)
    (hthere : ∀ id ∈ idsOfDrafts ms, id ∈ parts.map Part.id) :
    ∃ result, assembleMembers line parts ms = .ok result := by
  match ms with
  | [] => exact ⟨_, rfl⟩
  | m :: ms =>
    rw [idsOfDrafts] at hids hthere
    obtain ⟨hfirst, hothers, hapart⟩ := List.nodup_append.mp hids
    obtain ⟨⟨member, left⟩, hmember⟩ := DraftMember.assembles line m hparts hfirst
      fun id hid => hthere id (List.mem_append_left _ hid)
    have hassembled := DraftMember.assembled hparts hmember
    obtain ⟨⟨gathered, left'⟩, hmembers⟩ := assembles_members line ms
      (hassembled.distinct hparts) hothers fun id hid =>
        hassembled.mem_left (hthere id (List.mem_append_right _ hid))
          fun hplaced => hapart id hplaced id hid rfl
    exact ⟨_, by rw [assembleMembers, hmember]; dsimp only [bind, Except.bind]; rw [hmembers]⟩

end

/-- The groups are assembled when all their parts are there, each once. -/
theorem assembles_groups {parts : List Part} (drafts : List GroupDraft)
    (hparts : (parts.map Part.id).Nodup) (hids : (drafts.flatMap GroupDraft.ids).Nodup)
    (hthere : ∀ id ∈ drafts.flatMap GroupDraft.ids, id ∈ parts.map Part.id) :
    ∃ groups, assembleGroups parts drafts = .ok groups := by
  induction drafts generalizing parts with
  | nil => exact ⟨[], rfl⟩
  | cons draft drafts ih =>
    rw [List.flatMap_cons] at hids hthere
    obtain ⟨hfirst, hothers, hapart⟩ := List.nodup_append.mp hids
    obtain ⟨⟨group, left⟩, hgroup⟩ := GroupDraft.assembles draft hparts hfirst
      fun id hid => hthere id (List.mem_append_left _ hid)
    have hassembled := GroupDraft.assembled hparts hgroup
    obtain ⟨groups, hgroups⟩ := ih (hassembled.distinct hparts) hothers fun id hid =>
      hassembled.mem_left (hthere id (List.mem_append_right _ hid))
        fun hplaced => hapart id hplaced id hid rfl
    exact ⟨_, by rw [assembleGroups, hgroup]; dsimp only [bind, Except.bind]; rw [hgroups]⟩

/-- **A reading that knows where its parts are** is completed. -/
theorem Reading.Listed.completes (hr : r.Listed) (hids : (r.parts.map Part.id).Nodup) (j : Journal) :
    ∃ score s j', (complete.run r).run.run j = (.ok (score, s), j') := by
  rcases hrun : (complete.run r).run.run j with ⟨failure | ⟨score, s⟩, j'⟩
  · exfalso
    rcases of_failed_bind hrun with h | ⟨_, s, j₁, hrun, h⟩
    · have hnever : FailsAs (fun _ => False) (Partwise.closeGroups 0) :=
        FailsAs.listManner.closeGroups
      exact hnever _ _ _ _ h
    · have hclose : Ends (Partwise.closeGroups 0) r () s := ⟨j, j₁, hrun⟩
      obtain ⟨hlisted, hnone⟩ := hr.closeGroups hclose
      rw [Reading.Listed, PartList.ids, hnone, List.flatMap_nil, List.nil_append,
        (SameMusic.closeGroups hclose).parts] at hlisted
      obtain ⟨groups, hgroups⟩ := assembles_groups s.partList.rootGroups hids
        (hlisted.nodup_iff.mpr hids) fun id hid => hlisted.mem_iff.mp hid
      rw [← (SameMusic.closeGroups hclose).parts] at hgroups
      change ((get >>= fun r => _ : Step Score).run s).run.run j₁ = _ at h
      simp only [StateT.run_bind, StateT.run_get, pure_bind, hgroups, StateT.run_pure] at h
      cases h
  · exact ⟨score, s, j', rfl⟩

/-! ## The forest -/

mutual

/-- A group and the groups inside it. -/
def PartGroup.nodes : PartGroup → List PartGroup
  | ⟨id, name?, abbreviation?, symbol, orderingKey?, barline, isImplicit, members, line⟩ =>
    ⟨id, name?, abbreviation?, symbol, orderingKey?, barline, isImplicit, members, line⟩ ::
      nodesInMembers members

/-- The groups in a member of a group. -/
def GroupMember.nodes : GroupMember → List PartGroup
  | .group g => g.nodes
  | .part _ => []

/-- The groups in some members. -/
def nodesInMembers : List GroupMember → List PartGroup
  | [] => []
  | m :: ms => m.nodes ++ nodesInMembers ms

end

/-- All groups of a score. -/
def Score.nodes (score : Score) : List PartGroup := score.groups.flatMap PartGroup.nodes

/-- What a member of a group is declared as. -/
def GroupMember.declaration : GroupMember → Declaration
  | .group g => .group g.bare
  | .part p => .part p.id

/-- The group of a draft has its heading and its members. -/
structure GroupDraft.Becomes (d : GroupDraft) (g : PartGroup) : Prop where
  heading : g.bare = d.heading.bare
  members : g.members.map GroupMember.declaration = (d.members.map DraftMember.entry).map Prod.snd

mutual

/-- An assembled group has the heading of its draft, and the groups inside become those inside the
draft. -/
theorem GroupDraft.becomes {parts left : List Part} {draft : GroupDraft} {group : PartGroup}
    (h : draft.assemble parts = .ok (group, left)) :
    group.bare = draft.heading.bare ∧
      List.Forall₂ GroupDraft.Becomes draft.within group.nodes := by
  match draft with
  | ⟨heading, members, _⟩ =>
    unfold GroupDraft.assemble at h
    obtain ⟨⟨gathered, rest⟩, hmembers, hok⟩ := of_bind_eq_ok h
    cases hok
    obtain ⟨hnodes, hdeclared⟩ := becomes_members hmembers
    exact ⟨rfl, .cons ⟨rfl, hdeclared⟩ hnodes⟩

/-- The groups inside an assembled member become those inside its draft. -/
theorem DraftMember.becomes {line : Nat} {parts left : List Part} {m : DraftMember}
    {member : GroupMember} (h : m.assemble line parts = .ok (member, left)) :
    List.Forall₂ GroupDraft.Becomes m.within member.nodes ∧
      member.declaration = m.entry.2 := by
  match m with
  | .part id _ =>
    unfold DraftMember.assemble at h
    split at h
    · next part hpart =>
      cases h
      have hid : part.id = id := by simpa using List.find?_some hpart
      exact ⟨.nil, congrArg Declaration.part hid⟩
    · exact nomatch h
  | .group draft =>
    unfold DraftMember.assemble at h
    obtain ⟨⟨group, rest⟩, hgroup, hok⟩ := of_bind_eq_ok h
    cases hok
    obtain ⟨hbare, hnodes⟩ := GroupDraft.becomes hgroup
    exact ⟨hnodes, congrArg Declaration.group hbare⟩

/-- The groups inside assembled members become those inside their drafts. -/
theorem becomes_members {line : Nat} {parts left : List Part} {ms : List DraftMember}
    {members : List GroupMember} (h : assembleMembers line parts ms = .ok (members, left)) :
    List.Forall₂ GroupDraft.Becomes (withinDrafts ms) (nodesInMembers members) ∧
      members.map GroupMember.declaration = (ms.map DraftMember.entry).map Prod.snd := by
  match ms with
  | [] =>
    cases h
    exact ⟨.nil, rfl⟩
  | m :: ms =>
    unfold assembleMembers at h
    obtain ⟨⟨member, rest⟩, hmember, hbind⟩ := of_bind_eq_ok h
    obtain ⟨⟨gathered, rest'⟩, hmembers, hok⟩ := of_bind_eq_ok hbind
    cases hok
    obtain ⟨hfirst, hdeclared⟩ := DraftMember.becomes hmember
    obtain ⟨hothers, hdeclareds⟩ := becomes_members hmembers
    exact ⟨List.rel_append hfirst hothers, by
      rw [List.map_cons, hdeclared, hdeclareds]
      rfl⟩

end

/-- The groups inside assembled groups become those inside their drafts. -/
theorem becomes_groups {parts : List Part} {drafts : List GroupDraft} {groups : List PartGroup}
    (h : assembleGroups parts drafts = .ok groups) :
    List.Forall₂ GroupDraft.Becomes (drafts.flatMap GroupDraft.within)
      (groups.flatMap PartGroup.nodes) := by
  induction drafts generalizing parts groups with
  | nil =>
    cases h
    exact .nil
  | cons draft drafts ih =>
    unfold assembleGroups at h
    obtain ⟨⟨group, left⟩, hgroup, hbind⟩ := of_bind_eq_ok h
    obtain ⟨rest, hrest, hok⟩ := of_bind_eq_ok hbind
    cases hok
    exact List.rel_append (GroupDraft.becomes hgroup).2 (ih hrest)

/-- **The forest of a score has all that a document declares**, and each thing once and in order. -/
structure Score.Holds (score : Score) (ms : List Move) : Prop where
  /-- There is one part for each declared id, however often it is declared. -/
  parts_distinct : (score.parts.map Part.id).Nodup
  mem_parts : ∀ id, id ∈ score.parts.map Part.id ↔ ∃ m ∈ ms, m.declaration? = some (.part id)
  /-- Implicit groups apart, there is one group for each start of a group. -/
  groups : ((score.nodes.filter fun g => !g.isImplicit).map PartGroup.bare).Perm
    (ms.filterMap fun m => m.declaration?.bind Declaration.group?)
  /-- Members stand in the order in which they were declared or started. -/
  members : ∀ g ∈ score.nodes, (g.members.map GroupMember.declaration).Sublist (declarationsOf ms)
  /-- Where all declarations are in one part list, there is at most one implicit group. -/
  implicit : DeclaredTogether ms → (score.nodes.filter PartGroup.isImplicit).length ≤ 1

/-- Groups that are those of some drafts have their headings. -/
theorem bare_of_becomes {drafts : List GroupDraft} {nodes : List PartGroup}
    (h : List.Forall₂ GroupDraft.Becomes drafts nodes) :
    nodes.map PartGroup.bare = drafts.map fun d => d.heading.bare := by
  induction h with
  | nil => rfl
  | cons hfirst _ ih => rw [List.map_cons, List.map_cons, hfirst.heading, ih]

theorem mem_of_becomes {drafts : List GroupDraft} {nodes : List PartGroup} {g : PartGroup}
    (h : List.Forall₂ GroupDraft.Becomes drafts nodes) (hg : g ∈ nodes) :
    ∃ d ∈ drafts, d.Becomes g := by
  induction h with
  | nil => exact nomatch hg
  | @cons d _ _ _ hfirst _ ih =>
    rcases List.mem_cons.mp hg with rfl | hg
    · exact ⟨d, List.mem_cons_self, hfirst⟩
    · obtain ⟨d, hd, hsame⟩ := ih hg
      exact ⟨d, List.mem_cons_of_mem _ hd, hsame⟩

/-- No member of a group is implicit. -/
theorem PartList.Logged.members_explicit {l : PartList} {log : List Declaration} (h : l.Logged log)
    {d : GroupDraft} {g : PartGroup} (hd : d ∈ l.drafts) (hsame : d.Becomes g) :
    (g.members.map GroupMember.declaration).filter (fun d => !d.isImplicit) =
      g.members.map GroupMember.declaration := by
  refine List.filter_eq_self.mpr fun e he => ?_
  rw [hsame.members, List.map_map] at he
  obtain ⟨m, hm, rfl⟩ := List.mem_map.mp he
  cases m with
  | part id _ => rfl
  | group inner =>
    have hexplicit := (h.tidy.orderly d hd).explicit inner hm
    simp [DraftMember.entry, GroupDraft.entry, Declaration.isImplicit, PartGroup.bare, hexplicit]

/-- The groups of a part list are those that were declared. -/
theorem PartList.Logged.groups_perm {l : PartList} {log : List Declaration} (h : l.Logged log) :
    (l.drafts.map fun d => d.heading.bare).Perm (log.filterMap Declaration.group?) := by
  have hgroups : ∀ ds : List GroupDraft, (ds.map fun d => d.heading.bare) =
      ((ds.flatMap GroupDraft.entries).map Prod.snd).filterMap Declaration.group? := by
    intro ds
    have hparts : ∀ ms : List DraftMember,
        ((ms.filterMap DraftMember.partEntry?).map Prod.snd).filterMap Declaration.group? = [] := by
      intro ms
      induction ms with
      | nil => rfl
      | cons m ms ih => cases m <;> exact ih
    induction ds with
    | nil => rfl
    | cons d ds ih =>
      have hthis : (d.entries.map Prod.snd).filterMap Declaration.group? = [d.heading.bare] :=
        congrArg (d.heading.bare :: ·) (hparts d.members)
      rw [List.flatMap_cons, List.map_append, List.filterMap_append, hthis, ← ih]
      rfl
  rw [hgroups]
  have hlog := (h.entries.map Prod.snd).filterMap Declaration.group?
  rwa [map_numbered] at hlog

/-- The groups of the implicit declarations, or those of all others. -/
theorem groups_filter (p : Bool → Bool) (log : List Declaration) :
    (log.filterMap Declaration.group?).filter (fun g => p g.isImplicit) =
      (log.filter fun d => p d.isImplicit).filterMap Declaration.group? := by
  induction log with
  | nil => rfl
  | cons d log ih =>
    cases d with
    | part id =>
      rw [List.filter_cons]
      split <;> exact ih
    | group heading =>
      have hcons : (Declaration.group heading :: log).filterMap Declaration.group? =
          heading :: log.filterMap Declaration.group? := rfl
      have hhead : (Declaration.group heading).isImplicit = heading.isImplicit := rfl
      rw [hcons, List.filter_cons, List.filter_cons, hhead, ih]
      split <;> rfl

/-- Implicit declarations are all of groups. -/
theorem length_implicit (log : List Declaration) :
    ((log.filter Declaration.isImplicit).filterMap Declaration.group?).length =
      (log.filter Declaration.isImplicit).length := by
  induction log with
  | nil => rfl
  | cons d log ih =>
    cases d with
    | part id => exact ih
    | group heading =>
      rw [List.filter_cons]
      split
      · exact congrArg (· + 1) ih
      · exact ih

/-- A reading that has enlisted what is declared is completed to a score that holds it. -/
theorem Reading.Enlisted.holds {done : List Move} {log : List Declaration}
    (hr : r.Enlisted done log) (hlisted : r.Listed) {score : Score}
    (h : Ends complete r score s) (himplicit : DeclaredTogether done →
      (log.filter Declaration.isImplicit).length ≤ 1) : score.Holds done := by
  have hperm := hlisted.parts_perm hr.distinct h
  obtain ⟨hclose, hgroups⟩ := h.complete
  have henlists := Enlists.closeGroups (K := fun _ _ => True) (fun _ => trivial) hclose
  have hlogged := hr.logged.evolve henlists.evolves
  rw [List.append_nil] at hlogged
  have hbecomes := becomes_groups hgroups
  have hdrafts : s.partList.drafts = s.partList.rootGroups.flatMap GroupDraft.within := by
    rw [PartList.drafts, (hlisted.closeGroups hclose).2, List.nil_append]
  rw [← hdrafts] at hbecomes
  -- of the declarations in the log, those of implicit groups do not stand in the document
  have hnodes : ∀ p : Bool → Bool,
      ((score.nodes.filter fun g => p g.isImplicit).map PartGroup.bare).Perm
        ((log.filter fun d => p d.isImplicit).filterMap Declaration.group?) := by
    intro p
    have hall : (score.nodes.map PartGroup.bare).Perm (log.filterMap Declaration.group?) :=
      (List.Perm.of_eq (bare_of_becomes hbecomes)).trans hlogged.groups_perm
    have hsome := hall.filter fun g => p g.isImplicit
    rwa [List.filter_map, groups_filter] at hsome
  refine ⟨?_, fun id => ?_, ?_, fun g hg => ?_, fun htogether => ?_⟩
  · exact (hperm.map Part.id).nodup_iff.mpr hr.distinct
  · rw [(hperm.map Part.id).mem_iff, hr.mem_parts, mem_declarationsOf]
  · rw [← groups_declarationsOf, ← hr.counts]
    exact hnodes not
  · obtain ⟨d, hd, hsame⟩ := mem_of_becomes hbecomes hg
    have hsublist := hlogged.members_sublist hd
    rw [← hsame.members] at hsublist
    rw [← hr.counts, ← hlogged.members_explicit hd hsame]
    exact hsublist.filter _
  · have hlength := (hnodes id).length_eq
    rw [List.length_map] at hlength
    exact Nat.le_trans (Nat.le_of_eq (hlength.trans (length_implicit log)))
      (himplicit htogether)

/-! ## Documents -/

/-- A document with a single part list has its declarations together if none comes after that
list. -/
theorem DeclaredTogether.of_split (before after : List Move) (line : Nat)
    (hbefore : ∀ m ∈ before, ∀ line, m ≠ .leavePartList line)
    (hafter : ∀ m ∈ after, m.declaresPart = false) :
    DeclaredTogether (before ++ .leavePartList line :: after) := by
  intro before' line' after' h
  right
  rcases List.append_eq_append_iff.mp h with ⟨rest, rfl, hrest⟩ | ⟨rest, rfl, hrest⟩
  · cases rest with
    | nil =>
      cases hrest
      exact hafter
    | cons m rest =>
      obtain ⟨rfl, rfl⟩ := List.cons.inj hrest
      exact fun m hm => hafter m (by simp [hm])
  · cases rest with
    | nil =>
      cases hrest
      exact hafter
    | cons m rest =>
      obtain ⟨rfl, _⟩ := List.cons.inj hrest
      exact absurd rfl (hbefore (.leavePartList line') (by simp) line')

namespace Document

variable {settings : Settings} {root : Element}

/-- **Where a document is not read to its end**, it is to blame itself, or a movement back in time
overflows. -/
theorem due {failure : Failure} (h : (read settings root).score = .error failure) :
    failure.Due ∨ ∃ line last e rest, failure = .overflow line ∧ e.name = "backup" ∧
      FailsIn settings root failure (readBackup settings e) last ∧
      movesOf root = (trail settings root).map Moment.move ++ .leaf e :: rest := by
  rcases of_failed h with rfl | ⟨last, m, rest, hfails, hmoves⟩ | ⟨last, hfails, _⟩
  · exact .inl trivial
  · obtain ⟨hfollows, j, j', hfailed⟩ := hfails
    by_cases hback : m.GoesBack
    · obtain ⟨e, rfl, hname⟩ := hback
      have hread : Move.perform settings (.leaf e) = readBackup settings e := readLeaf_backup hname
      have hmay : FailsAs (fun f => f.Due ∨ ∃ line, f = .overflow line)
          (Move.perform settings (.leaf e)) :=
        .perform (fun _ => .inl) _ fun _ line => .inr ⟨line, rfl⟩
      rcases hmay last j _ _ hfailed with hdue | hover
      · exact .inl hdue
      · obtain ⟨line, rfl⟩ := hover
        rw [hread] at hfailed
        exact .inr ⟨line, last, e, rest, rfl, hname, ⟨hfollows, j, j', hfailed⟩, hmoves⟩
    · have hmay : FailsAs Failure.Due (m.perform settings) :=
        .perform (fun _ hdue => hdue) m fun h => absurd h hback
      exact .inl (hmay last j _ _ hfailed)
  · obtain ⟨hfollows, j, j', hfailed⟩ := hfails
    obtain ⟨_, henlisted⟩ := hfollows.enlisted .empty
    have hlisted : last.Listed := hfollows.keeps (P := Reading.Listed) (.refl _)
      fun m _ hr hstep => hr.perform hstep
    obtain ⟨_, _, _, hcompletes⟩ := hlisted.completes henlisted.distinct j
    rw [hcompletes] at hfailed
    exact nomatch hfailed

/-- **Whatever is started, stopped and declared**, nothing of it is lost and nothing comes twice: no
reading ends because a part was placed twice or lost, and a score has every part and every group
that its document declares, once and in order. -/
theorem forest (settings : Settings) (root : Element) :
    (∀ line id, (read settings root).score ≠ .error (.inconsistent line (.partPlacedTwice id))) ∧
      ∀ score, (read settings root).score = .ok score → score.Holds (movesOf root) := by
  refine ⟨fun line id h => ?_, fun score h => ?_⟩
  · rcases due h with hdue | ⟨_, _, _, _, hover, _⟩
    · exact hdue
    · exact nomatch hover
  obtain ⟨last, final, hfollows, hmoves, hcomplete⟩ := follows_trail h
  have hlisted : last.Listed := hfollows.keeps (P := Reading.Listed) (.refl _)
    fun m _ hr hstep => hr.perform hstep
  by_cases htogether : DeclaredTogether (movesOf root)
  · obtain ⟨log, henlisted, hsheltered⟩ := hfollows.sheltered .empty .empty
      (by rwa [List.nil_append, hmoves])
    rw [List.nil_append, hmoves] at henlisted hsheltered
    exact henlisted.holds hlisted hcomplete fun _ => hsheltered.atMostOne
  · obtain ⟨log, henlisted⟩ := hfollows.enlisted .empty
    rw [List.nil_append, hmoves] at henlisted
    exact henlisted.holds hlisted hcomplete fun h => absurd h htogether

/-! ### A part list with groups that overlap -/

/-- An element that starts or stops a group. -/
def groupElement (type number : String) (children : List Element) : Element :=
  { name := "part-group", attributes := [("type", type), ("number", number)], children }

/-- An element that declares a part. -/
def partElement (id : String) : Element := { name := "score-part", attributes := [("id", id)] }

/-- A document that has nothing but a part list. -/
def onlyPartList (children : List Element) : Element :=
  { name := "score-partwise", children := [{ name := "part-list", children }] }

/-- The second group gets outside of the first, which is stopped before it; a part is declared
twice, and another one outside of both groups. -/
def overlappingGroups : Element :=
  let symbol (key : String) : Element :=
    { name := "group-symbol", text? := some "brace", attributes := [("default-x", key)] }
  onlyPartList [groupElement "start" "2" [symbol "-6"], groupElement "start" "1" [symbol "-20"],
    partElement "A", groupElement "stop" "2" [], partElement "B", partElement "A",
    groupElement "stop" "1" [], partElement "C"]

/-- The three parts are there in order, in the two groups and an implicit one. -/
theorem forest_overlapping : ∃ score, (read {} overlappingGroups).score = .ok score ∧
    score.Holds (movesOf overlappingGroups) ∧
      (score.nodes.filter PartGroup.isImplicit).length ≤ 1 ∧
        score.parts.map Part.id = ["A", "B", "C"] ∧
          score.nodes.map PartGroup.id = ["1", "2", "implicit"] := by
  have hthere : hasScore overlappingGroups (fun score =>
      score.parts.map Part.id = ["A", "B", "C"] &&
        score.nodes.map PartGroup.id = ["1", "2", "implicit"]) = true := by
    decide +kernel
  obtain ⟨score, hread, hforest⟩ := exists_score hthere
  simp only [Bool.and_eq_true, decide_eq_true_eq] at hforest
  have hholds := (forest {} overlappingGroups).2 score hread
  refine ⟨score, hread, hholds, hholds.implicit ?_, hforest⟩
  refine DeclaredTogether.of_split (movesOf overlappingGroups).dropLast [] 0 ?_ nofun
  intro m hm line
  simp only [overlappingGroups, onlyPartList, groupElement, partElement, movesOf, movesOfAll] at hm
  rintro rfl
  simp at hm

end Document

end Partwise
