import Mathlib.Data.List.Perm.Basic
import Partwise.Proofs.Reading.Confinement
import Partwise.Proofs.Reading.Keeping

/-!
# Reading · Forest: every declared part is in the score

A part list is read into groups that are open and groups that are closed. Whatever is started,
stopped or declared, the groups hold the id of every declared part exactly once (`Reading.Listed`),
and nothing else in a document touches them. So the groups of a score are assembled of all parts
that were declared, and of each of them once (`Reading.Listed.parts_perm`).
-/

namespace Partwise

open Markup

variable {r s : Reading} {u : Unit}

/-! ## The ids in a part list -/

mutual

/-- The ids of the parts in a group. -/
def GroupDraft.ids : GroupDraft → List String
  | ⟨_, members, _⟩ => idsOfDrafts members

/-- The ids of the parts in a member of a group. -/
def DraftMember.ids : DraftMember → List String
  | .part id _ => [id]
  | .group draft => draft.ids

/-- The ids of the parts in some members. -/
def idsOfDrafts : List DraftMember → List String
  | [] => []
  | m :: ms => m.ids ++ idsOfDrafts ms

end

/-- The ids in a group are those of its members. -/
theorem GroupDraft.ids_eq (draft : GroupDraft) : draft.ids = idsOfDrafts draft.members := by
  cases draft
  rfl

/-- The ids of members among which another one comes in are theirs and its own. -/
theorem ids_insertMember (m : DraftMember) (ms : List DraftMember) :
    (idsOfDrafts (insertMember m ms)).Perm (m.ids ++ idsOfDrafts ms) := by
  induction ms with
  | nil => exact .refl _
  | cons other others ih =>
    unfold insertMember
    split
    · exact .refl _
    · refine (ih.append_left other.ids).trans ?_
      rw [idsOfDrafts, ← List.append_assoc, ← List.append_assoc]
      exact List.perm_append_comm.append_right _

namespace PartList

variable {l : PartList}

/-- The ids of the parts in all groups, open or closed. -/
def ids (l : PartList) : List String :=
  l.openGroups.flatMap GroupDraft.ids ++ l.rootGroups.flatMap GroupDraft.ids

/-- The ids of a part list are its own and those of a member that comes into the innermost open
group. -/
theorem ids_insertInnermost {m : DraftMember} (h : l.openGroups ≠ []) :
    (l.insertInnermost m).ids.Perm (m.ids ++ l.ids) := by
  obtain ⟨outer, innermost, hopen⟩ := (List.eq_nil_or_concat' l.openGroups).resolve_left h
  have hinserted : (l.insertInnermost m).openGroups =
      outer ++ [{ innermost with members := insertMember m innermost.members }] := by
    simp [insertInnermost, hopen]
  rw [ids, ids, hinserted, hopen, ← List.append_assoc]
  refine List.Perm.append_right _ ?_
  rw [List.flatMap_append, List.flatMap_append, List.flatMap_singleton, List.flatMap_singleton,
    GroupDraft.ids_eq, innermost.ids_eq]
  refine ((ids_insertMember m _).append_left _).trans ?_
  rw [← List.append_assoc, ← List.append_assoc]
  exact List.perm_append_comm.append_right _

/-- As many groups are open after a member came into one of them. -/
theorem length_insertInnermost {m : DraftMember} :
    (l.insertInnermost m).openGroups.length = l.openGroups.length := by
  rcases List.eq_nil_or_concat' l.openGroups with hnone | ⟨outer, innermost, hopen⟩
  · simp [insertInnermost, hnone]
  · simp [insertInnermost, hopen]

/-- A group opens, still without parts. -/
theorem ids_openGroup {group : PartGroup} : (l.openGroup group).ids.Perm l.ids := by
  unfold openGroup
  extract_lets draft around
  have haround : around ≤ l.openGroups.length := by
    unfold around
    split
    · exact Nat.le_refl _
    · next key _ =>
      cases hfound : l.openGroups.findIdx? (inside key) with
      | none => exact Nat.le_refl _
      | some i =>
        obtain ⟨hi, _⟩ := List.findIdx?_eq_some_iff_getElem.mp hfound
        exact Nat.le_of_lt hi
  refine List.Perm.append_right _ ?_
  exact (List.perm_insertIdx draft l.openGroups haround).flatMap_right GroupDraft.ids

/-- After a group has opened, one is open. -/
theorem openGroup_ne_nil {group : PartGroup} (h : l.openGroups = []) :
    (l.openGroup group).openGroups ≠ [] := by
  unfold openGroup
  split <;> simp [h]

/-- The ids of a part list are its own and those of a closed group that goes where it belongs. -/
theorem ids_place {draft : GroupDraft} : (l.place draft).ids.Perm (draft.ids ++ l.ids) := by
  unfold place
  split
  · simp only [ids, List.flatMap_append, List.flatMap_singleton]
    rw [← List.append_assoc]
    exact List.perm_append_comm
  · next hopen => exact ids_insertInnermost (by simpa using hopen)

/-- A closed group leaves as many groups open as are. -/
theorem length_place {draft : GroupDraft} :
    (l.place draft).openGroups.length = l.openGroups.length := by
  unfold place
  split
  · rfl
  · exact length_insertInnermost

/-- The ids of a part list are those of a group that is taken out and those of the rest. -/
theorem ids_takeGroup {number : String} {draft : GroupDraft} {rest : PartList}
    (h : l.takeGroup? number = some (draft, rest)) : (draft.ids ++ rest.ids).Perm l.ids := by
  obtain ⟨i, _, hrest⟩ := Option.bind_eq_some_iff.mp h
  obtain ⟨found, hfound, hsome⟩ := Option.bind_eq_some_iff.mp hrest
  cases hsome
  obtain ⟨hlt, rfl⟩ := List.getElem?_eq_some_iff.mp hfound
  rw [ids, ids, ← List.append_assoc]
  refine List.Perm.append_right _ ?_
  exact (List.getElem_cons_eraseIdx_perm hlt).flatMap_right GroupDraft.ids

/-- A part is declared into the innermost open group. -/
theorem ids_declarePart {id : String} (h : l.openGroups ≠ []) :
    (l.declarePart id).ids.Perm (id :: l.ids) :=
  @ids_insertInnermost { l with declared := l.declared + 1 } (.part id (l.declared + 1)) h

/-- The ids of a part list stay the same when the innermost open group is closed. -/
theorem ids_closeLast {draft : GroupDraft} (h : l.openGroups.getLast? = some draft) :
    (({ l with openGroups := l.openGroups.dropLast } : PartList).place draft).ids.Perm l.ids := by
  refine ids_place.trans ?_
  have hopen : l.openGroups = l.openGroups.dropLast ++ [draft] :=
    (List.dropLast_append_getLast? draft h).symm
  rw [ids, ids, ← List.append_assoc]
  refine List.Perm.append_right _ ?_
  conv_rhs => rw [hopen]
  rw [List.flatMap_append, List.flatMap_singleton]
  exact List.perm_append_comm

end PartList

/-! ## Readings -/

/-- The part list holds the id of every declared part once. -/
def Reading.Listed (r : Reading) : Prop := r.partList.ids.Perm (r.parts.map Part.id)

namespace Reading.Listed

/-- A change of the part list that keeps the ids. -/
theorem changePartList (hr : r.Listed) {f : PartList → PartList}
    (h : Ends (Partwise.changePartList f) r u s) (hf : (f r.partList).ids.Perm r.partList.ids) :
    s.Listed := by
  rw [h.modify]
  exact hf.trans hr

/-- All parts stay listed while a step only speaks or decodes. -/
theorem lift (hr : r.Listed) {α : Type} {x : Journaled α} {a : α} (h : Ends (liftM x) r a s) :
    s.Listed := by
  rw [h.lift.2]
  exact hr

/-- All parts stay listed when a group starts or stops. -/
theorem readPartGroup (hr : r.Listed) {e : Element}
    (h : Ends (Partwise.readPartGroup e) r u s) : s.Listed := by
  unfold Partwise.readPartGroup at h
  extract_lets number at h
  split at h
  · obtain ⟨group, r₁, hread, hrest₁⟩ := h.bind
    obtain ⟨_, r₂, htell, hopen⟩ := hrest₁.bind
    exact ((hr.lift hread).lift htell).changePartList hopen PartList.ids_openGroup
  · obtain ⟨_, _, hget, hrest₁⟩ := h.bind
    obtain ⟨rfl, rfl⟩ := hget.get
    split at hrest₁
    · next draft rest htaken =>
      obtain ⟨_, r₁, htake, hclose⟩ := hrest₁.bind
      obtain ⟨_, r₂, htell, hplace⟩ := hclose.bind
      have hids : (rest.place draft).ids.Perm _ :=
        PartList.ids_place.trans (PartList.ids_takeGroup htaken)
      rw [hplace.modify, htell.tell, htake.modify]
      exact hids.trans hr
    · exact hr.lift hrest₁
  · exact hr.lift h

/-- All parts stay listed when one is declared. -/
theorem readScorePart (hr : r.Listed) {e : Element}
    (h : Ends (Partwise.readScorePart e) r u s) : s.Listed := by
  unfold Partwise.readScorePart at h
  split at h
  · next id _ =>
    obtain ⟨_, _, hget, hrest₁⟩ := h.bind
    obtain ⟨rfl, rfl⟩ := hget.get
    split at hrest₁
    · exact hr.lift hrest₁
    · obtain ⟨_, _, hget', hrest₂⟩ := hrest₁.bind
      obtain ⟨rfl, rfl⟩ := hget'.get
      extract_lets declare at hrest₂
      obtain ⟨r₁, hlisted, hopen, hdeclare⟩ : ∃ r₁, r₁.Listed ∧ r₁.partList.openGroups ≠ [] ∧
          Ends (declare ()) r₁ u s := by
        split at hrest₂
        · next hnone =>
          obtain ⟨_, r₁, hopen, hdeclare⟩ := hrest₂.bind
          refine ⟨r₁, hr.changePartList hopen PartList.ids_openGroup, ?_, hdeclare⟩
          rw [hopen.modify]
          exact PartList.openGroup_ne_nil (List.isEmpty_iff.mp hnone)
        · next hsome => exact ⟨r, hr, by simpa using hsome, hrest₂⟩
      obtain ⟨_, r₂, hlist, hrest₃⟩ := hdeclare.bind
      obtain ⟨_, r₃, htell, hadd⟩ := hrest₃.bind
      rw [hadd.modify, htell.tell, hlist.modify]
      refine (PartList.ids_declarePart hopen).trans ((hlisted.cons id).trans ?_)
      rw [List.map_append]
      exact (List.perm_append_singleton _ _).symm
  · exact absurd h not_ends_throw

/-- The innermost open group is closed, and then one group less is open. -/
theorem closeInnermost (hr : r.Listed) {line : Nat}
    (h : Ends (Partwise.closeInnermost line) r u s) :
    s.Listed ∧ s.partList.openGroups.length = r.partList.openGroups.length - 1 := by
  obtain ⟨_, _, hget, hmatch⟩ := h.bind
  obtain ⟨rfl, rfl⟩ := hget.get
  dsimp only at hmatch
  split at hmatch
  · next draft hlast =>
    obtain ⟨_, r₁, hdrop, hrest⟩ := hmatch.bind
    obtain ⟨r₂, hsame, hclose⟩ : ∃ r₂, r₂ = r₁ ∧ Ends (closeGroup draft) r₂ u s := by
      split at hrest
      · obtain ⟨_, r₂, hfind, hclose⟩ := hrest.bind
        exact ⟨r₂, hfind.find, hclose⟩
      · exact ⟨r₁, rfl, hrest⟩
    obtain ⟨_, r₃, htell, hplace⟩ := hclose.bind
    rw [hplace.modify, htell.tell, hsame, hdrop.modify]
    refine ⟨(PartList.ids_closeLast hlast).trans hr, ?_⟩
    dsimp only
    rw [PartList.length_place, List.length_dropLast]
  · next hnone =>
    have hnone : r.partList.openGroups.getLast? = none := Option.eq_none_iff_forall_ne_some.mpr hnone
    rw [hmatch.pure.2]
    exact ⟨hr, by simp [List.getLast?_eq_none_iff.mp hnone]⟩

/-- Groups are closed one after the other. -/
theorem closeEach {γ : Type} {xs : List γ} {line : Nat} (hr : r.Listed)
    (h : Ends (xs.forM fun _ => Partwise.closeInnermost line) r u s) :
    s.Listed ∧ s.partList.openGroups.length = r.partList.openGroups.length - xs.length := by
  induction xs generalizing r with
  | nil =>
    have hnil : Ends (Pure.pure ()) r u s := h
    rw [hnil.pure.2]
    exact ⟨hr, rfl⟩
  | cons x xs ih =>
    obtain ⟨_, r₁, hone, hrest⟩ := Ends.bind h
    obtain ⟨hlisted, hlength⟩ := hr.closeInnermost hone
    obtain ⟨hall, hlengths⟩ := ih hlisted hrest
    refine ⟨hall, ?_⟩
    rw [hlengths, hlength, List.length_cons]
    omega

/-- All parts stay listed when all open groups are closed, and none is open then. -/
theorem closeGroups (hr : r.Listed) {line : Nat} (h : Ends (Partwise.closeGroups line) r u s) :
    s.Listed ∧ s.partList.openGroups = [] := by
  obtain ⟨_, _, hget, hclose⟩ := h.bind
  obtain ⟨rfl, rfl⟩ := hget.get
  obtain ⟨hlisted, hlength⟩ := hr.closeEach hclose
  refine ⟨hlisted, List.length_eq_zero_iff.mp ?_⟩
  rw [hlength, List.length_range, Nat.sub_self]

end Reading.Listed

/-! ## Music -/

/-- The part list and the ids of the parts that were declared. -/
def Sight.declared : Sight (PartList × List String) where
  see r := (r.partList, r.parts.map Part.id)
  see_setPart r p := by rw [Reading.ids_setPart]; rfl

namespace Keeps

/-- To keep what was declared is a discipline. -/
theorem discipline : PartDiscipline fun _ x => Keeps .declared x where
  pure := pure
  throw failure _ := throw failure
  lift _ := lift _
  bind := bind
  look _ := look
  currentPart := currentPart
  voiceAt := voiceAt
  changePassage _ := changePassage fun _ => rfl
  changeMarks := changePassage fun _ => rfl
  drop := lift _
  hollow := lift _
  changePart _ := changePart

/-- A part that is left stays declared. -/
theorem declared_leavePart {e : Element} : Keeps .declared (Partwise.leavePart e) :=
  bind discipline.discipline.settle fun _ => bind discipline.discipline.checkBars fun _ =>
    bind discipline.endRepeats fun _ => bind changePart fun _ => modify fun _ => rfl

/-- To enter a part declares nothing. -/
theorem declared_enterPart {e : Element} : Keeps .declared (Partwise.enterPart e) := by
  refine look fun r => ?_
  split
  · exact bind (lift _) fun _ => modify fun _ => rfl
  · exact throw _

/-- Only groups and parts are declared. -/
theorem declared_readLeaf {settings : Settings} {e : Element} (hgroup : e.name ≠ "part-group")
    (hpart : e.name ≠ "score-part") : Keeps .declared (Partwise.readLeaf settings e) := by
  have hidentify (f : Identification → Identification) : Keeps .declared (identify f) :=
    modify fun _ => rfl
  by_cases hheader : e.name ∈ headerNames
  · simp only [headerNames, List.mem_cons, List.not_mem_nil, or_false, hgroup, hpart] at hheader
    unfold Partwise.readLeaf
    rcases hheader with hname | hname | hname | hname <;> simp only [hname] <;> exact hidentify _
  · exact discipline.readMusic hheader fun _ => .of_lift lift

end Keeps

namespace Reading.Listed

/-- What was declared is listed as long as it is kept. -/
theorem of_keeps (hr : r.Listed) {x : Step Unit} (hx : Keeps .declared x) (h : Ends x r u s) :
    s.Listed := by
  have hsame := hx r u s h
  rw [Sight.declared, Prod.mk.injEq] at hsame
  rw [Reading.Listed, hsame.1, hsame.2]
  exact hr

/-- An element is read that is not looked into any further. -/
theorem readLeaf (hr : r.Listed) {settings : Settings} {e : Element}
    (h : Ends (Partwise.readLeaf settings e) r u s) : s.Listed := by
  by_cases hgroup : e.name = "part-group"
  · simp only [Partwise.readLeaf, hgroup] at h
    exact hr.readPartGroup h
  · by_cases hpart : e.name = "score-part"
    · simp only [Partwise.readLeaf, hpart] at h
      exact hr.readScorePart h
    · exact hr.of_keeps (Keeps.declared_readLeaf hgroup hpart) h

/-- **Every move** keeps the part list complete. -/
theorem perform (hr : r.Listed) {settings : Settings} {m : Move}
    (h : Ends (m.perform settings) r u s) : s.Listed := by
  cases m with
  | enterPart e => exact hr.of_keeps Keeps.declared_enterPart h
  | leavePart e => exact hr.of_keeps Keeps.declared_leavePart h
  | enterMeasure e => exact hr.of_keeps Keeps.discipline.discipline.enterMeasure h
  | leaveMeasure e => exact hr.of_keeps (Keeps.discipline.discipline.leaveMeasure (.of_lift Keeps.lift)) h
  | leavePartList line => exact (hr.closeGroups h).1
  | leaf e => exact hr.readLeaf h

end Reading.Listed

/-! ## Groups that are assembled -/

/-- Parts with some ids are placed, in the order of the ids, and others are left over. -/
structure Assembled (parts : List Part) (ids : List String) (placed left : List Part) : Prop where
  ids_eq : placed.map Part.id = ids
  perm : (placed ++ left).Perm parts

namespace Assembled

variable {parts placed left placed' left' : List Part} {ids ids' : List String}

/-- What is left over has different ids, too. -/
theorem distinct (h : Assembled parts ids placed left) (hparts : (parts.map Part.id).Nodup) :
    (left.map Part.id).Nodup := by
  have hall := (h.perm.map Part.id).nodup_iff.mpr hparts
  rw [List.map_append] at hall
  exact hall.of_append_right

/-- A part that is not placed is left over. -/
theorem mem_left (h : Assembled parts ids placed left) {id : String}
    (hid : id ∈ parts.map Part.id) (hplaced : id ∉ ids) : id ∈ left.map Part.id := by
  have hall := (h.perm.map Part.id).mem_iff.mpr hid
  rw [List.map_append, h.ids_eq] at hall
  exact (List.mem_append.mp hall).resolve_left hplaced

/-- Nothing is assembled of nothing, and all parts are left. -/
theorem nil : Assembled parts [] [] parts := ⟨rfl, .refl _⟩

/-- What is assembled one after the other is assembled together. -/
theorem append (h : Assembled parts ids placed left) (h' : Assembled left ids' placed' left') :
    Assembled parts (ids ++ ids') (placed ++ placed') left' := by
  refine ⟨by rw [List.map_append, h.ids_eq, h'.ids_eq], ?_⟩
  rw [List.append_assoc]
  exact (h'.perm.append_left placed).trans h.perm

/-- A part is placed, and all others are left over. -/
theorem single {part : Part} {id : String} (hparts : (parts.map Part.id).Nodup)
    (h : parts.find? (fun p => p.id = id) = some part) :
    Assembled parts [id] [part] (parts.filter fun p => p.id ≠ id) := by
  have hid : part.id = id := by simpa using List.find?_some h
  refine ⟨by rw [List.map_singleton, hid], ?_⟩
  induction parts with
  | nil => exact nomatch h
  | cons p ps ih =>
    rw [List.map_cons, List.nodup_cons] at hparts
    by_cases hp : p.id = id
    · rw [List.find?_cons_of_pos (by simpa using hp)] at h
      cases h
      have hothers : ∀ q ∈ ps, q.id ≠ id := fun q hq heq =>
        hparts.1 (List.mem_map.mpr ⟨q, hq, heq.trans hp.symm⟩)
      have hfilter : ((part :: ps).filter fun q => q.id ≠ id) = ps := by
        rw [List.filter_cons_of_neg (by simpa using hp), List.filter_eq_self.mpr]
        simpa using hothers
      rw [hfilter]
      exact .refl _
    · rw [List.find?_cons_of_neg (by simpa using hp)] at h
      rw [List.filter_cons_of_pos (by simpa using hp)]
      exact (List.Perm.swap p part _).trans ((ih hparts.2 h).cons p)

end Assembled

/-- A run of two decisions is a run of each. -/
theorem of_bind_eq_ok {ε α β : Type} {x : Except ε α} {f : α → Except ε β} {b : β}
    (h : (x >>= f) = .ok b) : ∃ a, x = .ok a ∧ f a = .ok b := by
  cases x with
  | error failure => exact nomatch h
  | ok a => exact ⟨a, rfl, h⟩

mutual

/-- A group is assembled of the parts with its ids. -/
theorem GroupDraft.assembled {parts left : List Part} {draft : GroupDraft} {group : PartGroup}
    (hparts : (parts.map Part.id).Nodup) (h : draft.assemble parts = .ok (group, left)) :
    Assembled parts draft.ids group.parts left := by
  match draft with
  | ⟨heading, members, _⟩ =>
    unfold GroupDraft.assemble at h
    obtain ⟨⟨gathered, rest⟩, hmembers, hok⟩ := of_bind_eq_ok h
    cases hok
    exact assembled_members hparts hmembers

/-- A member is assembled of the parts with its ids. -/
theorem DraftMember.assembled {line : Nat} {parts left : List Part} {draft : DraftMember}
    {member : GroupMember} (hparts : (parts.map Part.id).Nodup)
    (h : draft.assemble line parts = .ok (member, left)) :
    Assembled parts draft.ids member.parts left := by
  match draft with
  | .part id _ =>
    unfold DraftMember.assemble at h
    split at h
    · next part hpart =>
      cases h
      exact .single hparts hpart
    · exact nomatch h
  | .group draft =>
    unfold DraftMember.assemble at h
    obtain ⟨⟨group, rest⟩, hgroup, hok⟩ := of_bind_eq_ok h
    cases hok
    exact GroupDraft.assembled hparts hgroup

/-- Members are assembled of the parts with their ids. -/
theorem assembled_members {line : Nat} {parts left : List Part} {drafts : List DraftMember}
    {members : List GroupMember} (hparts : (parts.map Part.id).Nodup)
    (h : assembleMembers line parts drafts = .ok (members, left)) :
    Assembled parts (idsOfDrafts drafts) (partsOfMembers members) left := by
  match drafts with
  | [] =>
    cases h
    exact .nil
  | m :: ms =>
    unfold assembleMembers at h
    obtain ⟨⟨member, rest⟩, hmember, hbind⟩ := of_bind_eq_ok h
    obtain ⟨⟨gathered, rest'⟩, hmembers, hok⟩ := of_bind_eq_ok hbind
    cases hok
    have hfirst := DraftMember.assembled hparts hmember
    exact hfirst.append (assembled_members (hfirst.distinct hparts) hmembers)

end

/-- The groups of a score are assembled of the parts with their ids. -/
theorem assembled_groups {parts : List Part} {drafts : List GroupDraft} {groups : List PartGroup}
    (hparts : (parts.map Part.id).Nodup) (h : assembleGroups parts drafts = .ok groups) :
    ∃ left, Assembled parts (drafts.flatMap GroupDraft.ids) (groups.flatMap PartGroup.parts) left := by
  induction drafts generalizing parts groups with
  | nil =>
    cases h
    exact ⟨parts, .nil⟩
  | cons draft drafts ih =>
    unfold assembleGroups at h
    obtain ⟨⟨group, left⟩, hgroup, hbind⟩ := of_bind_eq_ok h
    obtain ⟨rest, hrest, hok⟩ := of_bind_eq_ok hbind
    cases hok
    have hfirst := GroupDraft.assembled hparts hgroup
    obtain ⟨left', hothers⟩ := ih (hfirst.distinct hparts) hrest
    exact ⟨left', hfirst.append hothers⟩

/-- A reading that is completed closes all groups, and what they become is the score. -/
theorem Ends.complete {score : Score} (h : Ends Partwise.complete r score s) :
    Ends (closeGroups 0) r () s ∧ assembleGroups s.parts s.partList.rootGroups = .ok score.groups := by
  obtain ⟨_, r₁, hclose, hrest⟩ := h.bind
  obtain ⟨_, _, hget, hmatch⟩ := hrest.bind
  obtain ⟨rfl, rfl⟩ := hget.get
  split at hmatch
  · next groups hgroups =>
    obtain ⟨rfl, rfl⟩ := hmatch.pure
    exact ⟨hclose, hgroups⟩
  · exact absurd hmatch not_ends_throw

/-- **The score that a reading is completed to** holds every declared part once. -/
theorem Reading.Listed.parts_perm (hr : r.Listed) (hids : (r.parts.map Part.id).Nodup)
    {score : Score} (h : Ends Partwise.complete r score s) : score.parts.Perm r.parts := by
  obtain ⟨hclose, hgroups⟩ := h.complete
  obtain ⟨hlisted, hnone⟩ := hr.closeGroups hclose
  rw [Reading.Listed, PartList.ids, hnone] at hlisted
  have hparts := (SameMusic.closeGroups hclose).parts
  rw [hparts] at hgroups hlisted
  obtain ⟨left, hassembled⟩ := assembled_groups hids hgroups
  -- all ids are among the closed groups, so nothing is left over
  have hall := (hassembled.perm.map Part.id).length_eq
  have hlength := hlisted.length_eq
  rw [List.flatMap_nil, List.nil_append, ← hassembled.ids_eq] at hlength
  have hleft : left = [] := by
    simp only [List.length_map, List.length_append] at hall hlength
    exact List.length_eq_zero_iff.mp (by omega)
  have hperm := hassembled.perm
  rwa [hleft, List.append_nil] at hperm

end Partwise
