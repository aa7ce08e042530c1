import Partwise.Proofs.Reading.Assembling

/-!
# Reading · Fitting: when the parts of a score stand in the order of their declarations

Each group keeps its members in the order in which they were declared or started, but a group that
is stopped goes into the innermost open group, and that one need not have been around it. The two
fit together if the parts of the stopped group come after those of the members that the other group
got before it was started, and before those of the members that it got later (`DraftMember.Fits`).

A group whose parts are out of order stays so in whatever takes it in, so one misfit is enough, and
nothing else can go wrong: after each change of a part list its groups are in order if and only if
they were before and the change moved no group to where it does not fit (`PartList.straight_place`).
Moves made one after the other keep this (`Follows.straight_iff`), and in the end it is the order of
the score that is at
stake. -/

namespace Partwise

open Markup

variable {r s : Reading} {u : Unit}

/-! ## Parts with their places -/

/-- A part with its place in the sequence of declarations. -/
abbrev NumberedPart := Nat × String

mutual

/-- The parts in a group, in the order of the group. -/
def GroupDraft.roll : GroupDraft → List NumberedPart
  | ⟨_, members, _⟩ => rollOfDrafts members

/-- The parts in a member of a group. -/
def DraftMember.roll : DraftMember → List NumberedPart
  | .part id sequence => [(sequence, id)]
  | .group draft => draft.roll

/-- The parts in some members. -/
def rollOfDrafts : List DraftMember → List NumberedPart
  | [] => []
  | m :: ms => m.roll ++ rollOfDrafts ms

end

/-- The parts among members are told member by member. -/
theorem rollOfDrafts_eq (ms : List DraftMember) :
    rollOfDrafts ms = ms.flatMap DraftMember.roll := by
  induction ms with
  | nil => rfl
  | cons m ms ih => rw [rollOfDrafts, ih, List.flatMap_cons]

/-- The parts in a member that is a group are those of the group. -/
@[simp] theorem DraftMember.roll_group (d : GroupDraft) : (DraftMember.group d).roll = d.roll := rfl

/-- The parts of a group are those among its members. -/
theorem GroupDraft.roll_eq (d : GroupDraft) : d.roll = d.members.flatMap DraftMember.roll := by
  cases d
  rw [roll, rollOfDrafts_eq]

mutual

/-- The ids of the parts in a group are those of its parts with their places. -/
theorem GroupDraft.ids_eq_roll (d : GroupDraft) : d.ids = d.roll.map Prod.snd := by
  match d with
  | ⟨_, members, _⟩ => exact ids_eq_roll_drafts members

/-- The ids of the parts in a member are those of its parts with their places. -/
theorem DraftMember.ids_eq_roll (m : DraftMember) : m.ids = m.roll.map Prod.snd := by
  match m with
  | .part _ _ => rfl
  | .group draft => exact GroupDraft.ids_eq_roll draft

/-- The ids of the parts in some members are those of their parts with their places. -/
theorem ids_eq_roll_drafts (ms : List DraftMember) :
    idsOfDrafts ms = (rollOfDrafts ms).map Prod.snd := by
  match ms with
  | [] => rfl
  | m :: ms =>
    rw [idsOfDrafts, rollOfDrafts, List.map_append, DraftMember.ids_eq_roll m,
      ids_eq_roll_drafts ms]

end

/-- The part that a numbered declaration declares. -/
def Numbered.part? (e : Numbered) : Option NumberedPart := e.2.part?.map fun id => (e.1, id)

mutual

/-- The parts in a group are those that its declarations declare. -/
theorem GroupDraft.roll_perm (d : GroupDraft) :
    ((d.within.flatMap GroupDraft.entries).filterMap Numbered.part?).Perm d.roll := by
  match d with
  | ⟨heading, members, sequence⟩ =>
    rw [GroupDraft.within, List.flatMap_cons, GroupDraft.entries, List.cons_append]
    exact roll_perm_drafts members

/-- The parts in some members are those that their declarations declare. -/
theorem roll_perm_drafts (ms : List DraftMember) :
    ((ms.filterMap DraftMember.partEntry? ++
      (withinDrafts ms).flatMap GroupDraft.entries).filterMap Numbered.part?).Perm
        (rollOfDrafts ms) := by
  match ms with
  | [] => exact .nil
  | .part id sequence :: ms => exact (roll_perm_drafts ms).cons (sequence, id)
  | .group inner :: ms =>
    have hfirst := GroupDraft.roll_perm inner
    have hrest := roll_perm_drafts ms
    rw [withinDrafts, DraftMember.within, List.flatMap_append, rollOfDrafts, DraftMember.roll]
    refine List.Perm.trans ?_ (hfirst.append hrest)
    rw [← List.filterMap_append, ← List.append_assoc, ← List.append_assoc]
    exact (List.perm_append_comm.append_right _).filterMap _

end

/-! ### The order of declarations -/

/-- All parts of the first list were declared before all of the second. -/
def Precedes (ps qs : List NumberedPart) : Prop := ∀ p ∈ ps, ∀ q ∈ qs, p.1 < q.1

/-- The parts stand in the order of their declarations. -/
def InSequence (ps : List NumberedPart) : Prop := ps.Pairwise fun p q => p.1 < q.1

/-- Two lists in sequence are so together if all of the first comes before all of the second. -/
theorem inSequence_append {ps qs : List NumberedPart} :
    InSequence (ps ++ qs) ↔ InSequence ps ∧ InSequence qs ∧ Precedes ps qs :=
  List.pairwise_append

/-- Two lists come before a third one together if each of them does. -/
theorem precedes_append_left {ps qs rs : List NumberedPart} :
    Precedes (ps ++ qs) rs ↔ Precedes ps rs ∧ Precedes qs rs :=
  List.forall_mem_append

/-- A list comes before two others together if it comes before each of them. -/
theorem precedes_append_right {ps qs rs : List NumberedPart} :
    Precedes ps (qs ++ rs) ↔ Precedes ps qs ∧ Precedes ps rs := by
  simp only [Precedes, List.forall_mem_append, forall_and]

/-- Parts in two orders, of which one is that of their declarations, stand in that order if and only
if the ids do. -/
theorem InSequence.iff_eq {ps qs : List NumberedPart} (hps : InSequence ps) (hperm : qs.Perm ps)
    (hids : (ps.map Prod.snd).Nodup) : qs.map Prod.snd = ps.map Prod.snd ↔ InSequence qs := by
  constructor
  · intro hsame
    have heq : qs = ps := by
      refine List.ext_getElem hperm.length_eq fun i hi hi' => ?_
      have hid : (qs[i]).2 = (ps[i]).2 := by
        have hget := congrArg (fun xs => xs[i]?) hsame
        simpa [List.getElem?_map, hi, hi'] using hget
      exact List.inj_on_of_nodup_map hids (hperm.mem_iff.mp (List.getElem_mem hi))
        (List.getElem_mem hi') hid
    rw [heq]
    exact hps
  · intro hqs
    have heq : qs = ps := hperm.eq_of_pairwise
      (fun p q _ _ hlt hgt => absurd hlt (Nat.lt_asymm hgt)) hqs hps
    rw [heq]

/-- The declarations of parts, numbered, stand in their order. -/
theorem inSequence_numbered (log : List Declaration) :
    InSequence ((numbered log).filterMap Numbered.part?) := by
  refine List.pairwise_filterMap.mpr ((numbered_ascending log).imp fun {e f} hlt p hp q hq => ?_)
  obtain ⟨_, _, rfl⟩ := Option.map_eq_some_iff.mp hp
  obtain ⟨_, _, rfl⟩ := Option.map_eq_some_iff.mp hq
  exact hlt

/-- The ids that are declared are those of the parts. -/
theorem map_part_numbered (log : List Declaration) :
    ((numbered log).filterMap Numbered.part?).map Prod.snd = log.filterMap Declaration.part? := by
  have hpart : ∀ e : Numbered, (Numbered.part? e).map Prod.snd = e.2.part? := by
    intro e
    simp [Numbered.part?, Function.comp_def]
  rw [List.map_filterMap, funext hpart]
  conv_rhs => rw [← map_numbered log, List.filterMap_map]
  rfl

/-- No place in a log is beyond its last declaration. -/
theorem le_of_mem_numbered {log : List Declaration} {e : Numbered} (he : e ∈ numbered log) :
    e.1 ≤ log.length := by
  obtain ⟨⟨d, n⟩, hmem, rfl⟩ := List.mem_map.mp he
  have hplace := (List.mem_zipIdx hmem).2.1
  dsimp only
  omega

/-! ## Members that come in -/

/-- A member comes in after those that are not younger and before those that are. -/
theorem insertMember_split (m : DraftMember) {ms : List DraftMember}
    (h : ms.Pairwise fun m n => m.sequence ≤ n.sequence) :
    ∃ before after, ms = before ++ after ∧ insertMember m ms = before ++ m :: after ∧
      (∀ other ∈ before, other.sequence ≤ m.sequence) ∧
        ∀ other ∈ after, m.sequence < other.sequence := by
  induction ms with
  | nil => exact ⟨[], [], rfl, rfl, nofun, nofun⟩
  | cons other others ih =>
    obtain ⟨hother, hothers⟩ := List.pairwise_cons.mp h
    unfold insertMember
    split
    · next hlt =>
      have hlt : m.sequence < other.sequence := Nat.blt_eq.mp hlt
      refine ⟨[], other :: others, rfl, rfl, nofun, fun o ho => ?_⟩
      rcases List.mem_cons.mp ho with rfl | ho
      · exact hlt
      · exact Nat.lt_of_lt_of_le hlt (hother o ho)
    · next hge =>
      obtain ⟨before, after, hsplit, hinsert, hbefore, hafter⟩ := ih hothers
      refine ⟨other :: before, after, ?_, ?_, fun o ho => ?_, hafter⟩
      · rw [hsplit, List.cons_append]
      · rw [hinsert, List.cons_append]
      · rcases List.mem_cons.mp ho with rfl | ho
        · exact Nat.le_of_not_lt fun hlt => hge (Nat.blt_eq.mpr hlt)
        · exact hbefore o ho

/-- A member comes in last if it is younger than all others. -/
theorem insertMember_last {m : DraftMember} {ms : List DraftMember}
    (h : ∀ other ∈ ms, other.sequence < m.sequence) : insertMember m ms = ms ++ [m] := by
  induction ms with
  | nil => rfl
  | cons other others ih =>
    have hother := h other List.mem_cons_self
    unfold insertMember
    split
    · next hlt => exact absurd (Nat.blt_eq.mp hlt) (Nat.lt_asymm hother)
    · rw [ih fun o ho => h o (List.mem_cons_of_mem _ ho), List.cons_append]

/-- A group with one more member. -/
def GroupDraft.take (d : GroupDraft) (m : DraftMember) : GroupDraft :=
  { d with members := insertMember m d.members }

/-- The parts of a member come last if it is younger than all others. -/
theorem GroupDraft.roll_take_last {m : DraftMember} {d : GroupDraft}
    (h : ∀ other ∈ d.members, other.sequence < m.sequence) : (d.take m).roll = d.roll ++ m.roll := by
  rw [roll_eq, d.roll_eq, take, insertMember_last h, List.flatMap_append, List.flatMap_singleton]

/-- The parts of a member come first if it is older than all others with parts. -/
theorem GroupDraft.roll_take_first {m : DraftMember} {d : GroupDraft}
    (hsorted : d.members.Pairwise fun m n => m.sequence ≤ n.sequence)
    (h : ∀ other ∈ d.members, other.roll ≠ [] → m.sequence < other.sequence) :
    (d.take m).roll = m.roll ++ d.roll := by
  obtain ⟨before, after, hsplit, hinsert, hbefore, _⟩ := insertMember_split m hsorted
  have hnone : before.flatMap DraftMember.roll = [] := by
    refine List.flatMap_eq_nil_iff.mpr fun other hother => ?_
    by_contra hparts
    have hlt := h other (hsplit ▸ List.mem_append_left _ hother) hparts
    exact absurd hlt (Nat.not_lt_of_le (hbefore other hother))
  rw [roll_eq, d.roll_eq, take, hinsert, hsplit]
  simp [hnone]

/-- A member without parts brings none. -/
theorem GroupDraft.roll_take_empty {m : DraftMember} {d : GroupDraft}
    (hsorted : d.members.Pairwise fun m n => m.sequence ≤ n.sequence) (hm : m.roll = []) :
    (d.take m).roll = d.roll := by
  obtain ⟨before, after, hsplit, hinsert, _⟩ := insertMember_split m hsorted
  rw [roll_eq, d.roll_eq, take, hinsert, hsplit]
  simp [hm]

/-- **A member fits into a group**: its parts come after those of older members and before those of
younger ones. -/
structure DraftMember.Fits (m : DraftMember) (d : GroupDraft) : Prop where
  older : ∀ other ∈ d.members, other.sequence ≤ m.sequence → Precedes other.roll m.roll
  younger : ∀ other ∈ d.members, m.sequence < other.sequence → Precedes m.roll other.roll

/-- A group that takes a member in has its parts in order, after some others, if and only if its own
and those of the member were in order and the member fits. -/
theorem GroupDraft.inSequence_take {d : GroupDraft} (m : DraftMember) (roots : List NumberedPart)
    (hsorted : d.members.Pairwise fun m n => m.sequence ≤ n.sequence) :
    InSequence (roots ++ (d.take m).roll) ↔
      InSequence (roots ++ d.roll) ∧ InSequence (roots ++ m.roll) ∧ m.Fits d := by
  obtain ⟨before, after, hsplit, hinsert, hbefore, hafter⟩ := insertMember_split m hsorted
  have hroll : d.roll = before.flatMap DraftMember.roll ++ after.flatMap DraftMember.roll := by
    rw [d.roll_eq, hsplit, List.flatMap_append]
  have htaken : (d.take m).roll = before.flatMap DraftMember.roll ++
      (m.roll ++ after.flatMap DraftMember.roll) := by
    rw [GroupDraft.roll_eq, GroupDraft.take, hinsert, List.flatMap_append, List.flatMap_cons]
  have hfits : m.Fits d ↔ Precedes (before.flatMap DraftMember.roll) m.roll ∧
      Precedes m.roll (after.flatMap DraftMember.roll) := by
    constructor
    · intro h
      refine ⟨fun p hp q hq => ?_, fun p hp q hq => ?_⟩
      · obtain ⟨other, hother, hp⟩ := List.mem_flatMap.mp hp
        exact h.older other (hsplit ▸ List.mem_append_left _ hother) (hbefore other hother) p hp q
          hq
      · obtain ⟨other, hother, hq⟩ := List.mem_flatMap.mp hq
        exact h.younger other (hsplit ▸ List.mem_append_right _ hother) (hafter other hother) p hp q
          hq
    · intro h
      refine ⟨fun other hother hle p hp q hq => ?_, fun other hother hlt p hp q hq => ?_⟩
      · rcases List.mem_append.mp (hsplit ▸ hother) with hother | hother
        · exact h.1 p (List.mem_flatMap.mpr ⟨other, hother, hp⟩) q hq
        · exact absurd (hafter other hother) (Nat.not_lt_of_le hle)
      · rcases List.mem_append.mp (hsplit ▸ hother) with hother | hother
        · exact absurd hlt (Nat.not_lt_of_le (hbefore other hother))
        · exact h.2 p hp q (List.mem_flatMap.mpr ⟨other, hother, hq⟩)
  rw [hroll, htaken, hfits]
  simp only [inSequence_append, precedes_append_right]
  tauto

namespace PartList

variable {l l' : PartList} {log ds : List Declaration} {K : GroupDraft → List GroupDraft → Prop}

/-! ## What a log tells of places -/

/-- The parts in all groups: first those of closed groups, then those of the open ones from the
outermost to the innermost. -/
def roll (l : PartList) : List NumberedPart :=
  (l.rootGroups ++ l.openGroups).flatMap GroupDraft.roll

/-- When the innermost group takes a member in, the parts of all others stay before its own. -/
theorem roll_insertInnermost {outer : List GroupDraft} {innermost : GroupDraft} (m : DraftMember)
    (hopen : l.openGroups = outer ++ [innermost]) :
    (l.insertInnermost m).roll =
      (l.rootGroups ++ outer).flatMap GroupDraft.roll ++ (innermost.take m).roll := by
  rw [roll, insertInnermost_eq m hopen, ← List.append_assoc, List.flatMap_append,
    List.flatMap_singleton]
  rfl

/-- Outside of all open groups a group is put behind the closed ones. -/
theorem place_outermost {draft : GroupDraft} (h : l.openGroups = []) :
    l.place draft = { l with rootGroups := l.rootGroups ++ [draft] } := by
  rw [place, if_pos (by simp [h])]

/-- Where a group is open, another one is put into the innermost. -/
theorem place_innermost {draft : GroupDraft} (h : l.openGroups ≠ []) :
    l.place draft = l.insertInnermost (.group draft) := by
  rw [place, if_neg (by simp [h])]

/-- The parts of a part list are those that were declared. -/
theorem Logged.roll_perm (h : l.Logged log) :
    l.roll.Perm ((numbered log).filterMap Numbered.part?) := by
  have hgroups : ∀ gs : List GroupDraft, (((gs.flatMap GroupDraft.within).flatMap
      GroupDraft.entries).filterMap Numbered.part?).Perm (gs.flatMap GroupDraft.roll) := by
    intro gs
    induction gs with
    | nil => exact .nil
    | cons g gs ih =>
      rw [List.flatMap_cons, List.flatMap_append, List.filterMap_append, List.flatMap_cons]
      exact g.roll_perm.append ih
  have hall := (hgroups (l.openGroups ++ l.rootGroups)).symm.trans (h.entries.filterMap _)
  exact (List.perm_append_comm.flatMap_right _).trans hall

/-- No part was declared later than all declarations. -/
theorem Logged.le_declared (h : l.Logged log) {p : NumberedPart} (hp : p ∈ l.roll) :
    p.1 ≤ l.declared := by
  obtain ⟨e, he, hpart⟩ := List.mem_filterMap.mp (h.roll_perm.mem_iff.mp hp)
  obtain ⟨_, _, rfl⟩ := Option.map_eq_some_iff.mp hpart
  rw [h.count]
  exact le_of_mem_numbered he

/-- An open group is among the groups of the part list. -/
theorem mem_drafts_of_open {d : GroupDraft} (hd : d ∈ l.openGroups) : d ∈ l.drafts := by
  refine List.mem_flatMap.mpr ⟨d, List.mem_append_left _ hd, ?_⟩
  rw [d.within_eq]
  exact List.mem_cons_self

/-- The members of an open group stand in the order of their declarations. -/
theorem Logged.sorted (h : l.Logged log) {d : GroupDraft} (hd : d ∈ l.openGroups) :
    d.members.Pairwise fun m n => m.sequence ≤ n.sequence :=
  (h.tidy.orderly d (mem_drafts_of_open hd)).sorted

/-- Open groups and their members were declared among all that was. -/
theorem Logged.upTo (h : l.Logged log) {d : GroupDraft} (hd : d ∈ l.openGroups) :
    d.sequence ≤ l.declared ∧ ∀ m ∈ d.members, m.sequence ≤ l.declared := by
  have hentries : ∀ e ∈ d.within.flatMap GroupDraft.entries, e.1 ≤ l.declared := by
    intro e he
    have hlog := h.entries.mem_iff.mp ((entries_of_mem (mem_drafts_of_open hd)).subset he)
    rw [h.count]
    exact le_of_mem_numbered hlog
  refine ⟨hentries d.entry ?_, fun m hm => ?_⟩
  · rw [d.within_eq]
    exact List.mem_cons_self
  · have hmember := hentries m.entry (d.members_entries.subset (List.mem_map_of_mem hm))
    cases m <;> exact hmember

/-! ## Open groups inside each other -/

/-- What is in an open group was there when the groups inside it were started. -/
def Nested (l : PartList) : Prop :=
  l.openGroups.Pairwise fun outer inner => ∀ m ∈ outer.members, m.sequence < inner.sequence

/-- The innermost group takes a member in; no group is inside it. -/
theorem Nested.insertInnermost (h : l.Nested) (m : DraftMember) : (l.insertInnermost m).Nested := by
  rcases List.eq_nil_or_concat' l.openGroups with hnone | ⟨outer, innermost, hopen⟩
  · simp [Nested, PartList.insertInnermost, hnone]
  · unfold Nested at h ⊢
    rw [hopen] at h
    rw [insertInnermost_eq m hopen]
    obtain ⟨houter, _, hacross⟩ := List.pairwise_append.mp h
    refine List.pairwise_append.mpr ⟨houter, List.pairwise_singleton _ _, fun o ho i hi => ?_⟩
    rw [List.mem_singleton.mp hi]
    exact hacross o ho innermost List.mem_cons_self

/-- Groups stay inside each other when one is moved to where it belongs. -/
theorem Nested.moved {outer inner : List GroupDraft} {draft : GroupDraft} (h : l.Nested)
    (hopen : l.openGroups = outer ++ draft :: inner) :
    ((l.without outer inner).place draft).Nested := by
  have hothers : (l.without outer inner).Nested := by
    unfold Nested at h
    rw [hopen] at h
    exact h.sublist (List.Sublist.append_left (List.sublist_cons_self _ _) outer)
  unfold place
  split
  · exact hothers
  · exact hothers.insertInnermost _

/-- **Every change** leaves groups inside each other as they were. -/
theorem Nested.change (h : l.Nested) (hlogged : l.Logged log) (hchange : Changes K l ds l') :
    l'.Nested := by
  cases hchange with
  | opened group _ _ =>
    obtain ⟨outer, inner, hold, hnew, _⟩ := l.openGroup_eq group
    have hupTo := fun d => hlogged.upTo (d := d)
    unfold Nested at h ⊢
    rw [hold] at h hupTo
    rw [hnew]
    obtain ⟨houter, hinner, hacross⟩ := List.pairwise_append.mp h
    refine List.pairwise_append.mpr
      ⟨houter, List.pairwise_cons.mpr ⟨fun _ _ => nofun, hinner⟩, fun o ho i hi m hm => ?_⟩
    rcases List.mem_cons.mp hi with rfl | hi
    · exact Nat.lt_succ_of_le ((hupTo o (List.mem_append_left _ ho)).2 m hm)
    · exact hacross o ho i hi m hm
  | declared id _ => exact Nested.insertInnermost (l := { l with declared := l.declared + 1 }) h _
  | moved outer inner draft hopen _ _ => exact h.moved hopen

/-- Changes one after the other keep the log, and they leave groups inside each other as they
were. -/
theorem Logged.evolve_nested (h : l.Logged log) (hnested : l.Nested)
    (hevolves : Evolves K l ds l') :
    l'.Logged (log ++ ds) ∧ l'.Nested :=
  hevolves.keeps (P := fun log l => l.Logged log ∧ l.Nested) ⟨h, hnested⟩
    fun h hchange => ⟨h.1.change hchange, h.2.change h.1 hchange⟩

/-! ### Groups that are closed from within -/

/-- The innermost group goes into the one around it, behind all that is there. -/
theorem roll_close {outer : List GroupDraft} {draft : GroupDraft} (h : l.Nested)
    (hopen : l.openGroups = outer ++ [draft]) :
    ((l.without outer []).place draft).roll = l.roll := by
  have hothers : (l.without outer []).openGroups = outer := List.append_nil _
  have hroots : (l.without outer []).rootGroups = l.rootGroups := rfl
  rcases List.eq_nil_or_concat' outer with rfl | ⟨around, parent, rfl⟩
  · rw [place_outermost hothers, roll, roll, hopen, hothers, hroots]
    simp
  · have hyounger : ∀ m ∈ parent.members, m.sequence < draft.sequence := by
      unfold Nested at h
      rw [hopen] at h
      exact (List.pairwise_append.mp h).2.2 parent (by simp) draft (by simp)
    rw [place_innermost (by simp [hothers]), roll_insertInnermost _ hothers, hroots,
      GroupDraft.roll_take_last (m := .group draft) hyounger, roll, hopen]
    simp

/-- Groups are closed, always the innermost one. -/
theorem Evolves.roll_eq (h : Evolves (fun _ inner => inner = []) l [] l') (hnested : l.Nested) :
    l'.roll = l.roll := by
  generalize hnone : ([] : List Declaration) = none at h
  induction h with
  | refl l => rfl
  | step first rest ih =>
    obtain ⟨hds, hds'⟩ := List.append_eq_nil_iff.mp hnone.symm
    cases first with
    | opened | declared => exact absurd hds (List.cons_ne_nil _ _)
    | moved outer inner draft hopen _ hinner =>
      subst hinner
      rw [ih (hnested.moved hopen) hds'.symm, roll_close hnested hopen]

/-! ## Groups in order -/

/-- In each group the parts stand in the order of their declarations, and those of closed groups
come before all others and in order. -/
structure Straight (l : PartList) : Prop where
  closed : InSequence (l.rootGroups.flatMap GroupDraft.roll)
  opened : ∀ d ∈ l.openGroups, InSequence (l.rootGroups.flatMap GroupDraft.roll ++ d.roll)

/-- The parts of an open group were declared before those of the groups inside it. -/
def Aligned (l : PartList) : Prop :=
  l.openGroups.Pairwise fun outer inner => Precedes outer.roll inner.roll

/-- All parts stand in order if they do in each group and the groups are aligned. -/
theorem inSequence_roll : InSequence l.roll ↔ l.Straight ∧ l.Aligned := by
  have hopen : InSequence (l.openGroups.flatMap GroupDraft.roll) ↔
      (∀ d ∈ l.openGroups, InSequence d.roll) ∧ l.Aligned := List.pairwise_flatMap
  have hacross : Precedes (l.rootGroups.flatMap GroupDraft.roll)
      (l.openGroups.flatMap GroupDraft.roll) ↔ ∀ d ∈ l.openGroups,
        Precedes (l.rootGroups.flatMap GroupDraft.roll) d.roll := by
    constructor
    · intro h d hd p hp q hq
      exact h p hp q (List.mem_flatMap.mpr ⟨d, hd, hq⟩)
    · intro h p hp q hq
      obtain ⟨d, hd, hq⟩ := List.mem_flatMap.mp hq
      exact h d hd p hp q hq
  rw [roll, List.flatMap_append, inSequence_append, hopen, hacross]
  constructor
  · rintro ⟨hroots, ⟨heach, haligned⟩, hacross⟩
    exact ⟨⟨hroots, fun d hd => inSequence_append.mpr ⟨hroots, heach d hd, hacross d hd⟩⟩, haligned⟩
  · rintro ⟨⟨hroots, heach⟩, haligned⟩
    exact ⟨hroots, ⟨fun d hd => (inSequence_append.mp (heach d hd)).2.1, haligned⟩,
      fun d hd => (inSequence_append.mp (heach d hd)).2.2⟩

/-- Without open groups all that counts is the order of the parts of closed ones. -/
theorem straight_of_closed (h : l.openGroups = []) :
    l.Straight ↔ InSequence (l.rootGroups.flatMap GroupDraft.roll) := by
  refine ⟨Straight.closed, fun hclosed => ⟨hclosed, fun d hd => ?_⟩⟩
  rw [h] at hd
  exact absurd hd List.not_mem_nil

/-- One open group more is in order if its parts come in order after those of closed groups. -/
theorem straight_iff_without {outer inner : List GroupDraft} {draft : GroupDraft}
    (hopen : l.openGroups = outer ++ inner) (hopen' : l'.openGroups = outer ++ draft :: inner)
    (hroots : l'.rootGroups = l.rootGroups) :
    l'.Straight ↔ l.Straight ∧ InSequence (l.rootGroups.flatMap GroupDraft.roll ++ draft.roll) := by
  have hmem : ∀ d, d ∈ l'.openGroups ↔ d = draft ∨ d ∈ l.openGroups := by
    intro d
    rw [hopen, hopen', List.mem_append, List.mem_append, List.mem_cons]
    tauto
  constructor
  · rintro ⟨hclosed, hopened⟩
    rw [hroots] at hclosed hopened
    exact ⟨⟨hclosed, fun d hd => hopened d ((hmem d).mpr (.inr hd))⟩,
      hopened draft ((hmem draft).mpr (.inl rfl))⟩
  · rintro ⟨⟨hclosed, hopened⟩, hdraft⟩
    refine ⟨hroots ▸ hclosed, fun d hd => ?_⟩
    rw [hroots]
    rcases (hmem d).mp hd with rfl | hd
    · exact hdraft
    · exact hopened d hd

/-- A group that opens has no parts, so it leaves it as it was whether parts are in order. -/
theorem straight_openGroup (group : PartGroup) : (l.openGroup group).Straight ↔ l.Straight := by
  obtain ⟨outer, inner, hold, hnew, _⟩ := l.openGroup_eq group
  have hempty : GroupDraft.roll ⟨group, [], l.declared + 1⟩ = [] := rfl
  rw [straight_iff_without hold hnew rfl, hempty, List.append_nil]
  exact and_iff_left_of_imp Straight.closed

/-- The innermost group takes a member in: it is in order then if the member is and fits. -/
theorem straight_insertInnermost {outer : List GroupDraft} {innermost : GroupDraft}
    (m : DraftMember) (hopen : l.openGroups = outer ++ [innermost])
    (hsorted : innermost.members.Pairwise fun m n => m.sequence ≤ n.sequence) :
    (l.insertInnermost m).Straight ↔ l.Straight ∧
      InSequence (l.rootGroups.flatMap GroupDraft.roll ++ m.roll) ∧ m.Fits innermost := by
  have hroots : (l.insertInnermost m).rootGroups = l.rootGroups := rfl
  have htake := innermost.inSequence_take m (l.rootGroups.flatMap GroupDraft.roll) hsorted
  have hnew : (l.insertInnermost m).openGroups = outer ++ [innermost.take m] :=
    insertInnermost_eq m hopen
  constructor
  · rintro ⟨hclosed, hopened⟩
    rw [hnew, hroots] at hopened
    obtain ⟨hinnermost, hm, hfits⟩ := htake.mp (hopened _ (by simp))
    refine ⟨⟨hclosed, fun d hd => ?_⟩, hm, hfits⟩
    rw [hopen] at hd
    rcases List.mem_append.mp hd with hd | hd
    · exact hopened d (List.mem_append_left _ hd)
    · rw [List.mem_singleton.mp hd]
      exact hinnermost
  · rintro ⟨⟨hclosed, hopened⟩, hm, hfits⟩
    refine ⟨hclosed, fun d hd => ?_⟩
    rw [hopen] at hopened
    rw [hnew] at hd
    rw [hroots]
    rcases List.mem_append.mp hd with hd | hd
    · exact hopened d (List.mem_append_left _ hd)
    · rw [List.mem_singleton.mp hd]
      exact htake.mpr ⟨hopened _ (by simp), hm, hfits⟩

/-- A part that is declared comes last, so it leaves it as it was whether parts are in order. -/
theorem straight_declarePart (hlogged : l.Logged log) (id : String) (hopen : l.openGroups ≠ []) :
    (l.declarePart id).Straight ↔ l.Straight := by
  obtain ⟨outer, innermost, hsplit⟩ := (List.eq_nil_or_concat' l.openGroups).resolve_left hopen
  have hmem : innermost ∈ l.openGroups := by simp [hsplit]
  have hlast : Precedes l.roll [(l.declared + 1, id)] := by
    intro p hp q hq
    rw [List.mem_singleton.mp hq]
    exact Nat.lt_succ_of_le (hlogged.le_declared hp)
  have hrootsLast : Precedes (l.rootGroups.flatMap GroupDraft.roll) [(l.declared + 1, id)] := by
    rw [roll, List.flatMap_append, precedes_append_left] at hlast
    exact hlast.1
  have hfits : (DraftMember.part id (l.declared + 1)).Fits innermost := by
    refine ⟨fun other hother _ p hp => hlast p ?_, fun other hother hlt => ?_⟩
    · refine List.mem_flatMap.mpr ⟨innermost, List.mem_append_right _ hmem, ?_⟩
      rw [innermost.roll_eq]
      exact List.mem_flatMap.mpr ⟨other, hother, hp⟩
    · have hle := (hlogged.upTo hmem).2 other hother
      exact absurd (Nat.lt_of_succ_lt hlt) (Nat.not_lt_of_le hle)
  have hinsert := straight_insertInnermost (l := { l with declared := l.declared + 1 })
    (.part id (l.declared + 1)) hsplit (hlogged.sorted hmem)
  constructor
  · intro h
    obtain ⟨hclosed, hopened⟩ := (hinsert.mp h).1
    exact ⟨hclosed, hopened⟩
  · intro h
    refine hinsert.mpr ⟨⟨h.closed, h.opened⟩, ?_, hfits⟩
    exact inSequence_append.mpr ⟨h.closed, List.pairwise_singleton _ _, hrootsLast⟩

/-- A group that is closed outside of all others comes behind the closed ones. -/
theorem straight_place_outermost {draft : GroupDraft} (hnone : l.openGroups = []) :
    (l.place draft).Straight ↔
      InSequence (l.rootGroups.flatMap GroupDraft.roll ++ draft.roll) := by
  have hclosed : (l.place draft).openGroups = [] := by rw [place_outermost hnone, hnone]
  rw [straight_of_closed hclosed, place_outermost hnone, List.flatMap_append,
    List.flatMap_singleton]

/-- **A group that is moved** leaves all groups in order if and only if they were and it fits into
the innermost of the other open groups. -/
theorem straight_place {outer inner : List GroupDraft} {draft : GroupDraft} (hlogged : l.Logged log)
    (hopen : l.openGroups = outer ++ draft :: inner) :
    ((l.without outer inner).place draft).Straight ↔ l.Straight ∧
      ∀ parent ∈ (outer ++ inner).getLast?, (DraftMember.group draft).Fits parent := by
  have hothers : (l.without outer inner).openGroups = outer ++ inner := rfl
  rw [straight_iff_without hothers hopen rfl]
  rcases List.eq_nil_or_concat' (outer ++ inner) with hnone | ⟨around, parent, hsplit⟩
  · have hclosed := hothers.trans hnone
    rw [straight_place_outermost hclosed, straight_of_closed hclosed, hnone]
    simp only [List.getLast?_nil, Option.mem_def, reduceCtorEq, false_imp_iff, implies_true,
      and_true]
    exact (and_iff_right_of_imp fun hdraft => (inSequence_append.mp hdraft).1).symm
  · have hparent : parent ∈ l.openGroups := by
      rw [hopen]
      refine (List.Sublist.append_left (List.sublist_cons_self _ _) outer).subset ?_
      simp [hsplit]
    rw [place_innermost (by simp [hothers, hsplit]), straight_insertInnermost (.group draft)
      (hothers.trans hsplit) (hlogged.sorted hparent), and_assoc, hsplit, List.getLast?_concat]
    simp only [DraftMember.roll_group, Option.mem_def, Option.some.injEq, forall_eq']

/-- No change but a move of a group brings groups out of order or into it. -/
theorem Evolves.straight_iff (h : Evolves (fun _ _ => False) l ds l') (hlogged : l.Logged log) :
    l'.Straight ↔ l.Straight := by
  induction h generalizing log with
  | refl l => exact Iff.rfl
  | step first _ ih =>
    rw [ih (hlogged.change first)]
    cases first with
    | opened group _ _ => exact straight_openGroup group
    | declared id hopen => exact straight_declarePart hlogged id hopen
    | moved _ _ _ _ _ never => exact never.elim

end PartList

/-! ## Moves -/

/-- The move puts no group where it does not fit: a group that it stops fits into the innermost of
the others, and those that are closed with a part list hold their parts one after the other. -/
structure Move.KeepsOrder (m : Move) (l : PartList) : Prop where
  stops : ∀ e outer draft inner, m = .leaf e → l.Stops e outer draft inner →
    ∀ parent ∈ (outer ++ inner).getLast?, (DraftMember.group draft).Fits parent
  closes : ∀ line, m = .leavePartList line → l.Aligned

/-- An element stops one group only. -/
theorem PartList.Stops.unique {l : PartList} {e : Element}
    {outer inner outer' inner' : List GroupDraft} {draft draft' : GroupDraft}
    (h : l.Stops e outer draft inner) (h' : l.Stops e outer' draft' inner') :
    draft' = draft ∧ outer' ++ inner' = outer ++ inner := by
  have hsame := h'.taken.symm.trans h.taken
  rw [Option.some.injEq, Prod.mk.injEq] at hsame
  exact ⟨hsame.1, congrArg PartList.openGroups hsame.2⟩

/-- The group that an element stops is moved to where it belongs. -/
theorem PartList.Stops.moves {settings : Settings} {e : Element} {outer inner : List GroupDraft}
    {draft : GroupDraft} (hstops : r.partList.Stops e outer draft inner)
    (h : Ends ((Move.leaf e).perform settings) r () s) :
    s.partList = (r.partList.without outer inner).place draft := by
  have h : Ends (readLeaf settings e) r () s := h
  simp only [readLeaf, hstops.name] at h
  unfold readPartGroup at h
  extract_lets number at h
  have hnumber : number = e.groupNumber := rfl
  simp only [hstops.stop, Option.getD_some] at h
  obtain ⟨_, _, hget, hrest⟩ := h.bind
  obtain ⟨rfl, rfl⟩ := hget.get
  simp only [hnumber, hstops.taken] at hrest
  obtain ⟨_, r₁, htake, hclose⟩ := hrest.bind
  obtain ⟨_, r₂, htell, hplace⟩ := hclose.bind
  rw [hplace.modify, htell.tell, htake.modify]

/-- Groups that are all closed hold the same parts in the same order as before. -/
theorem Ends.closeGroups_roll {line : Nat} (h : Ends (closeGroups line) r u s)
    (hnested : r.partList.Nested) : s.partList.roll = r.partList.roll := by
  have henlists := Reading.Enlists.closeGroups (K := fun _ inner => inner = []) (fun _ => rfl) h
  exact henlists.evolves.roll_eq hnested

/-- What is known of a reading before one looks at the order of parts. -/
structure Reading.Listing (done : List Move) (log : List Declaration) (r : Reading) : Prop where
  enlisted : r.Enlisted done log
  listed : r.Listed
  nested : r.partList.Nested

namespace Reading.Listing

variable {settings : Settings} {m : Move} {done : List Move} {log : List Declaration}

/-- Before any declaration the part list is listed by an empty log. -/
theorem empty : Listing [] [] {} := ⟨.empty, .refl _, .nil⟩

/-- The list of a reading goes on with what one more move declares. -/
theorem move (hr : r.Listing done log) (h : Ends (m.perform settings) r () s) :
    ∃ log', s.Listing (done ++ [m]) log' := by
  obtain ⟨ds, henlists, hdeclares⟩ := Enlists.perform (K := fun _ _ => True)
    (fun _ _ _ _ _ _ => trivial) (fun _ _ _ => trivial) h
  have hevolved := hr.enlisted.logged.evolve_nested hr.nested henlists.evolves
  exact ⟨log ++ ds, hr.enlisted.move henlists hdeclares, hr.listed.perform h, hevolved.2⟩

/-- Where all groups are closed, they are in order if and only if all parts were. -/
theorem straight_close (hr : r.Listing done log) {line : Nat} (h : Ends (closeGroups line) r u s) :
    s.partList.Straight ↔ r.partList.Straight ∧ r.partList.Aligned := by
  have hnone := (hr.listed.closeGroups h).2
  have haligned : s.partList.Aligned := by
    rw [PartList.Aligned, hnone]
    exact .nil
  have hsame := h.closeGroups_roll hr.nested
  rw [← PartList.inSequence_roll, ← hsame, PartList.inSequence_roll, and_iff_left haligned]

/-- **After a move** groups are in order if and only if they were and the move kept them so. -/
theorem straight_move (hr : r.Listing done log) (h : Ends (m.perform settings) r () s) :
    s.partList.Straight ↔ r.partList.Straight ∧ m.KeepsOrder r.partList := by
  by_cases hleave : ∃ line, m = .leavePartList line
  · obtain ⟨line, rfl⟩ := hleave
    have h : Ends (closeGroups line) r () s := h
    rw [hr.straight_close h]
    refine and_congr_right fun _ => ?_
    exact ⟨fun haligned => ⟨nofun, fun _ _ => haligned⟩, fun hkeeps => hkeeps.closes line rfl⟩
  · by_cases hstop : ∃ e outer draft inner, m = .leaf e ∧ r.partList.Stops e outer draft inner
    · obtain ⟨e, outer, draft, inner, rfl, hstops⟩ := hstop
      rw [hstops.moves h, PartList.straight_place hr.enlisted.logged hstops.split]
      refine and_congr_right fun _ => ?_
      constructor
      · intro hfits
        refine ⟨fun e' outer' draft' inner' heq hstops' => ?_, nofun⟩
        cases heq
        obtain ⟨rfl, hothers⟩ := hstops.unique hstops'
        rw [hothers]
        exact hfits
      · exact fun hkeeps => hkeeps.stops e outer draft inner rfl hstops
    · have hnever : m.Meets (fun _ _ => False) r.partList :=
        fun e outer draft inner hm hstops => hstop ⟨e, outer, draft, inner, hm, hstops⟩
      obtain ⟨_, henlists, _⟩ := Enlists.perform hnever (fun line hm => absurd ⟨line, hm⟩ hleave) h
      have hkeeps : m.KeepsOrder r.partList :=
        ⟨fun e outer draft inner hm hstops => absurd ⟨e, outer, draft, inner, hm, hstops⟩ hstop,
          fun line hm => absurd ⟨line, hm⟩ hleave⟩
      rw [henlists.evolves.straight_iff hr.enlisted.logged, and_iff_left hkeeps]

/-- **The score that a reading is completed to** has its parts in the order of their declarations if
and only if all groups are in order and those that are still open are aligned. -/
theorem inOrder_iff (hr : r.Listing done log) {score : Score} (h : Ends complete r score s) :
    score.parts.map Part.id = (declarationsOf done).filterMap Declaration.part? ↔
      r.partList.Straight ∧ r.partList.Aligned := by
  obtain ⟨hclose, hgroups⟩ := h.complete
  have hroll : s.partList.rootGroups.flatMap GroupDraft.roll = r.partList.roll := by
    rw [← hclose.closeGroups_roll hr.nested, PartList.roll, (hr.listed.closeGroups hclose).2,
      List.append_nil]
  rw [(SameMusic.closeGroups hclose).parts] at hgroups
  obtain ⟨left, hassembled⟩ := assembled_groups hr.enlisted.distinct hgroups
  have hscore : score.parts.map Part.id = r.partList.roll.map Prod.snd := by
    rw [← hroll, List.map_flatMap, ← funext GroupDraft.ids_eq_roll]
    exact hassembled.ids_eq
  have hdeclared : (declarationsOf done).filterMap Declaration.part? =
      ((numbered log).filterMap Numbered.part?).map Prod.snd := by
    rw [map_part_numbered, ← hr.enlisted.parts, hr.enlisted.parts_eq]
  have hdistinct : (((numbered log).filterMap Numbered.part?).map Prod.snd).Nodup := by
    rw [map_part_numbered, ← hr.enlisted.parts]
    exact hr.enlisted.distinct
  rw [hscore, hdeclared, ← PartList.inSequence_roll]
  exact (inSequence_numbered log).iff_eq hr.enlisted.logged.roll_perm hdistinct

end Reading.Listing

/-- **Moves one after the other** leave groups in order if and only if they were and each move kept
them so. -/
theorem Follows.straight_iff {settings : Settings} {ms : List Moment} {done : List Move}
    {log : List Declaration} (h : Follows settings r ms s) (hr : r.Listing done log) :
    (∃ log', s.Listing (done ++ ms.map Moment.move) log') ∧ (s.partList.Straight ↔
      r.partList.Straight ∧ ∀ m ∈ ms, m.move.KeepsOrder m.before.partList) := by
  induction h generalizing done log with
  | nil r => exact ⟨⟨log, by simpa using hr⟩, by simp⟩
  | @cons m ms t hstep _ ih =>
    obtain ⟨log', hlisting⟩ := hr.move hstep
    obtain ⟨hlast, hiff⟩ := ih hlisting
    refine ⟨by simpa using hlast, ?_⟩
    rw [hiff, hr.straight_move hstep, List.forall_mem_cons, and_assoc]

end Partwise
