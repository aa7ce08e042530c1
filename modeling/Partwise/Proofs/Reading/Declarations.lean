import Mathlib.Data.List.Flatten
import Partwise.Proofs.Reading.Forest

/-!
# Reading · Declarations: what becomes of the groups of a part list

Groups are opened at places that their ordering keys choose, taken out of the middle by a number,
and put into whatever group is innermost at that moment; all the while parts are declared. Only
three things ever happen to a part list, and `PartList.Changes` says what they are: a group is
opened, a part is declared, or a group is moved from among the open ones to where it belongs. Every
move of a reading is a sequence of them (`Move.evolves`).

What was declared so far is a log, and a part list has it all (`PartList.Logged`): each entry once,
under the number it has in the log, and the members of each group in ascending order. The three
changes keep this, so a reading does.
-/

namespace Partwise

open Markup

/-! ## Declarations -/

/-- The group without its members. -/
def PartGroup.bare (g : PartGroup) : PartGroup := { g with members := [] }

/-- What a part list declares: a part, or a group that it starts. -/
inductive Declaration where
  | part (id : String)
  | group (heading : PartGroup)
deriving DecidableEq

namespace Declaration

/-- The part that is declared. -/
def part? : Declaration → Option String
  | part id => some id
  | group _ => none

/-- The group that is started. -/
def group? : Declaration → Option PartGroup
  | part _ => none
  | group heading => some heading

/-- The declaration does not stand in the document; it is that of a group for parts outside all
groups. -/
def isImplicit : Declaration → Bool
  | part _ => false
  | group heading => heading.isImplicit

end Declaration

/-- Declarations with one more. Of several declarations of one part the first counts. -/
def heed (ds : List Declaration) : Declaration → List Declaration
  | .part id => if .part id ∈ ds then ds else ds ++ [.part id]
  | .group heading => ds ++ [.group heading]

/-- The element starts a group. -/
def Markup.Element.startsGroup (e : Element) : Bool :=
  e.name = "part-group" && e.attr? "type" = some "start"

/-- What a move declares. -/
def Move.declaration? : Move → Option Declaration
  | leaf e =>
    if e.name = "score-part" then (e.attr? "id").map .part
    else if e.startsGroup then
      (result (PartGroup.ofElement e ((e.attr? "number").getD "1"))).map .group
    else none
  | _ => none

/-- The declarations of some moves that count. -/
def declarationsOf (ms : List Move) : List Declaration :=
  (ms.filterMap Move.declaration?).foldl heed []

/-! ## Groups under construction -/

mutual

/-- A group and the groups inside it. -/
def GroupDraft.within : GroupDraft → List GroupDraft
  | ⟨heading, members, sequence⟩ => ⟨heading, members, sequence⟩ :: withinDrafts members

/-- The groups in a member of a group. -/
def DraftMember.within : DraftMember → List GroupDraft
  | .part _ _ => []
  | .group draft => draft.within

/-- The groups in some members. -/
def withinDrafts : List DraftMember → List GroupDraft
  | [] => []
  | m :: ms => m.within ++ withinDrafts ms

end

/-- The groups among members are told member by member. -/
theorem withinDrafts_eq (ms : List DraftMember) : withinDrafts ms = ms.flatMap DraftMember.within := by
  induction ms with
  | nil => rfl
  | cons m ms ih => rw [withinDrafts, ih, List.flatMap_cons]

/-- Within a group are the group itself and the groups among its members. -/
theorem GroupDraft.within_eq (d : GroupDraft) :
    d.within = d :: d.members.flatMap DraftMember.within := by
  cases d
  rw [within, withinDrafts_eq]

mutual

/-- The groups inside a group are those inside each group that has it. -/
theorem GroupDraft.within_sublist {d g : GroupDraft} (h : d ∈ g.within) :
    d.within.Sublist g.within := by
  match g with
  | ⟨heading, members, sequence⟩ =>
    rw [GroupDraft.within] at h
    rcases List.mem_cons.mp h with rfl | h
    · exact .refl _
    · rw [GroupDraft.within]
      exact (within_sublist_drafts h).cons _

/-- The groups within a group that stands in a member stand there in the same order. -/
theorem DraftMember.within_sublist {d : GroupDraft} {m : DraftMember} (h : d ∈ m.within) :
    d.within.Sublist m.within := by
  match m with
  | .part _ _ => exact nomatch h
  | .group g => exact GroupDraft.within_sublist (g := g) h

/-- The groups within a group that stands among some members stand there in the same order. -/
theorem within_sublist_drafts {d : GroupDraft} {ms : List DraftMember} (h : d ∈ withinDrafts ms) :
    d.within.Sublist (withinDrafts ms) := by
  match ms with
  | [] => exact nomatch h
  | m :: ms =>
    rw [withinDrafts] at h ⊢
    rcases List.mem_append.mp h with h | h
    · exact (DraftMember.within_sublist h).trans (List.sublist_append_left _ _)
    · exact (within_sublist_drafts h).trans (List.sublist_append_right _ _)

end

/-- A declaration with its place in the sequence of declarations. -/
abbrev Numbered := Nat × Declaration

/-- The declaration of a group, numbered. -/
def GroupDraft.entry (d : GroupDraft) : Numbered := (d.sequence, .group d.heading.bare)

/-- The declaration of a member, numbered. -/
def DraftMember.entry : DraftMember → Numbered
  | part id sequence => (sequence, .part id)
  | group draft => draft.entry

/-- The declaration of a part, numbered, and nothing for a group. -/
def DraftMember.partEntry? : DraftMember → Option Numbered
  | part id sequence => some (sequence, .part id)
  | group _ => none

/-- The declarations of a group and of the parts that are its members. -/
def GroupDraft.entries (d : GroupDraft) : List Numbered :=
  d.entry :: d.members.filterMap DraftMember.partEntry?

/-- All declarations in a member. -/
def DraftMember.entries (m : DraftMember) : List Numbered :=
  m.partEntry?.toList ++ m.within.flatMap GroupDraft.entries

/-- The members stand in the order of their declarations, and none of them is an implicit group. -/
structure GroupDraft.Orderly (d : GroupDraft) : Prop where
  sorted : d.members.Pairwise fun m n => m.sequence ≤ n.sequence
  explicit : ∀ inner, .group inner ∈ d.members → inner.heading.isImplicit = false

/-- A member that comes in among others leaves these as they are. -/
theorem insertMember_perm (m : DraftMember) (ms : List DraftMember) :
    (insertMember m ms).Perm (m :: ms) := by
  induction ms with
  | nil => exact .refl _
  | cons other others ih =>
    unfold insertMember
    split
    · exact .refl _
    · exact (ih.cons other).trans (.swap m other others)

/-- A member comes in at its place among members that are in order. -/
theorem insertMember_sorted (m : DraftMember) {ms : List DraftMember}
    (h : ms.Pairwise fun m n => m.sequence ≤ n.sequence) :
    (insertMember m ms).Pairwise fun m n => m.sequence ≤ n.sequence := by
  induction ms with
  | nil => exact List.pairwise_singleton _ _
  | cons other others ih =>
    obtain ⟨hother, hothers⟩ := List.pairwise_cons.mp h
    unfold insertMember
    split
    · next hlt =>
      have hlt : m.sequence < other.sequence := Nat.blt_eq.mp hlt
      refine List.pairwise_cons.mpr ⟨fun n hn => ?_, h⟩
      rcases List.mem_cons.mp hn with rfl | hn
      · exact Nat.le_of_lt hlt
      · exact Nat.le_trans (Nat.le_of_lt hlt) (hother n hn)
    · next hge =>
      have hge : ¬ m.sequence < other.sequence := fun hlt => hge (Nat.blt_eq.mpr hlt)
      refine List.pairwise_cons.mpr ⟨fun n hn => ?_, ih hothers⟩
      rcases List.mem_cons.mp ((insertMember_perm m others).mem_iff.mp hn) with rfl | hn
      · exact Nat.le_of_not_lt hge
      · exact hother n hn

/-- An orderly group takes a member in. -/
theorem GroupDraft.Orderly.insert {d : GroupDraft} {m : DraftMember} (hd : d.Orderly)
    (hm : ∀ inner, m = .group inner → inner.heading.isImplicit = false) :
    GroupDraft.Orderly { d with members := insertMember m d.members } where
  sorted := insertMember_sorted m hd.sorted
  explicit inner hinner := by
    rcases List.mem_cons.mp ((insertMember_perm m d.members).mem_iff.mp hinner) with heq | hold
    · exact hm inner heq.symm
    · exact hd.explicit inner hold

/-- The members of a group are among all that is in it. -/
theorem GroupDraft.members_entries (d : GroupDraft) :
    (d.members.map DraftMember.entry).Subperm (d.within.flatMap GroupDraft.entries) := by
  rw [d.within_eq, List.flatMap_cons]
  have hall : ((d.members.filterMap DraftMember.partEntry?) ++
      (d.members.flatMap DraftMember.within).flatMap GroupDraft.entries).Perm
        (d.members.flatMap DraftMember.entries) := by
    induction d.members with
    | nil => exact .refl _
    | cons m ms ih =>
      rw [List.flatMap_cons, List.flatMap_cons, List.flatMap_append, DraftMember.entries]
      cases m with
      | part id sequence => exact ih.cons _
      | group inner =>
        refine List.Perm.trans ?_ (ih.append_left _)
        simp only [DraftMember.partEntry?, Option.toList_none, List.nil_append, ← List.append_assoc]
        exact List.perm_append_comm.append_right _
  have heach : (d.members.map DraftMember.entry).Sublist (d.members.flatMap DraftMember.entries) := by
    induction d.members with
    | nil => exact .slnil
    | cons m ms ih =>
      rw [List.flatMap_cons, List.map_cons, ← List.singleton_append]
      refine List.Sublist.append (List.singleton_sublist.mpr ?_) ih
      cases m with
      | part id sequence => simp [DraftMember.entries, DraftMember.entry, DraftMember.partEntry?]
      | group inner =>
        simp [DraftMember.entries, DraftMember.entry, DraftMember.within, inner.within_eq,
          GroupDraft.entries]
  exact heach.subperm.trans (hall.symm.subperm.trans (List.sublist_cons_self _ _).subperm)

/-! ## Changes of a part list -/

/-- The group has the number, as it is asked for by an element that stops it. -/
def GroupDraft.answers (d : GroupDraft) (number : String) : Bool :=
  !d.heading.isImplicit && d.heading.id = number

namespace PartList

variable {l l' : PartList}

/-- All groups, open or closed, and the groups inside them. -/
def drafts (l : PartList) : List GroupDraft :=
  (l.openGroups ++ l.rootGroups).flatMap GroupDraft.within

/-- All declarations in a part list. -/
def entries (l : PartList) : List Numbered :=
  l.drafts.flatMap GroupDraft.entries

/-- A group is taken out from among the open ones: `inner` are those further inside. -/
def without (l : PartList) (outer inner : List GroupDraft) : PartList :=
  { l with openGroups := outer ++ inner }

/-- **All that happens to a part list**, with what is declared by it. A group that is moved may be
any that is explicit, and `K` may ask more of it and of the open groups further inside; the
innermost group may always be moved. -/
inductive Changes (K : GroupDraft → List GroupDraft → Prop) (l : PartList) :
    List Declaration → PartList → Prop
  | opened (group : PartGroup) (bare : group.members = [])
      (outermost : group.isImplicit = true → l.openGroups = [] ∧ group.orderingKey? = none) :
      Changes K l [.group group] (l.openGroup group)
  | declared (id : String) (hopen : l.openGroups ≠ []) : Changes K l [.part id] (l.declarePart id)
  | moved (outer inner : List GroupDraft) (draft : GroupDraft)
      (hopen : l.openGroups = outer ++ draft :: inner)
      (explicit : draft.heading.isImplicit = false ∨ inner = []) (meets : K draft inner) :
      Changes K l [] ((l.without outer inner).place draft)

/-- Changes that are made one after the other. -/
inductive Evolves (K : GroupDraft → List GroupDraft → Prop) :
    PartList → List Declaration → PartList → Prop
  | refl (l : PartList) : Evolves K l [] l
  | step {l l' l'' : PartList} {ds ds' : List Declaration} (first : Changes K l ds l')
      (rest : Evolves K l' ds' l'') : Evolves K l (ds ++ ds') l''

variable {K : GroupDraft → List GroupDraft → Prop}

/-- One change of the part list is how it evolves by its declarations. -/
theorem Changes.evolves {ds : List Declaration} (h : Changes K l ds l') : Evolves K l ds l' := by
  have hstep := Evolves.step h (.refl l')
  rwa [List.append_nil] at hstep

/-- A part list that evolves in two steps evolves in both together. -/
theorem Evolves.trans {l'' : PartList} {ds ds' : List Declaration} (h : Evolves K l ds l')
    (h' : Evolves K l' ds' l'') : Evolves K l (ds ++ ds') l'' := by
  induction h with
  | refl l => exact h'
  | step first _ ih =>
    rw [List.append_assoc]
    exact .step first (ih h')

/-- What every change keeps, together with the log, is kept by changes one after the other. -/
theorem Evolves.keeps {P : List Declaration → PartList → Prop} {log ds : List Declaration}
    (h : Evolves K l ds l') (hl : P log l)
    (step : ∀ {log l ds l'}, P log l → Changes K l ds l' → P (log ++ ds) l') :
    P (log ++ ds) l' := by
  induction h generalizing log with
  | refl l =>
    rw [List.append_nil]
    exact hl
  | step first _ ih =>
    rw [← List.append_assoc]
    exact ih (step hl first)

/-! ### What each change does to the groups -/

/-- A group opens somewhere. It is only outside of all others that have ordering keys. -/
theorem openGroup_eq (l : PartList) (group : PartGroup) :
    ∃ outer inner, l.openGroups = outer ++ inner ∧
      (l.openGroup group).openGroups = outer ++ ⟨group, [], l.declared + 1⟩ :: inner ∧
      (outer = [] → ∀ d ∈ inner.head?, d.heading.orderingKey?.isSome = true) := by
  have hinsert : ∀ (outer inner : List GroupDraft) (d : GroupDraft),
      (outer ++ inner).insertIdx outer.length d = outer ++ d :: inner := by
    intro outer inner d
    induction outer with
    | nil => rfl
    | cons o outer ih => exact congrArg (o :: ·) ih
  have hinnermost : ∃ outer inner, l.openGroups = outer ++ inner ∧
      l.openGroups.insertIdx l.openGroups.length ⟨group, [], l.declared + 1⟩ =
        outer ++ ⟨group, [], l.declared + 1⟩ :: inner ∧
      (outer = [] → ∀ d ∈ inner.head?, d.heading.orderingKey?.isSome = true) := by
    exact ⟨l.openGroups, [], (List.append_nil _).symm, by simp, fun _ _ => nofun⟩
  unfold openGroup
  extract_lets draft around
  unfold around
  split
  · exact hinnermost
  · next key _ =>
    cases hfound : l.openGroups.findIdx? (inside key) with
    | none => exact hinnermost
    | some i =>
      obtain ⟨hi, hinside, _⟩ := List.findIdx?_eq_some_iff_getElem.mp hfound
      refine ⟨l.openGroups.take i, l.openGroups.drop i, (List.take_append_drop i _).symm, ?_, ?_⟩
      · have hat := hinsert (l.openGroups.take i) (l.openGroups.drop i) draft
        rwa [List.take_append_drop, List.length_take_of_le (Nat.le_of_lt hi)] at hat
      · intro _ d hd
        rw [List.head?_drop, List.getElem?_eq_getElem hi] at hd
        cases hd
        unfold inside at hinside
        cases hkey : l.openGroups[i].heading.orderingKey? with
        | none => simp [hkey] at hinside
        | some own => rfl

/-- The groups with a member in the innermost one. -/
theorem insertInnermost_eq {outer : List GroupDraft} {innermost : GroupDraft} (m : DraftMember)
    (h : l.openGroups = outer ++ [innermost]) :
    (l.insertInnermost m).openGroups =
      outer ++ [{ innermost with members := insertMember m innermost.members }] := by
  simp [insertInnermost, h]

/-- The innermost open group with a number is taken out. -/
theorem of_takeGroup {number : String} {draft : GroupDraft} {rest : PartList}
    (h : l.takeGroup? number = some (draft, rest)) :
    ∃ outer inner, l.openGroups = outer ++ draft :: inner ∧ draft.answers number = true ∧
      (∀ d ∈ inner, d.answers number = false) ∧ rest = l.without outer inner := by
  obtain ⟨i, hfound, hrest⟩ := Option.bind_eq_some_iff.mp h
  obtain ⟨taken, htaken, hsome⟩ := Option.bind_eq_some_iff.mp hrest
  cases hsome
  obtain ⟨hi, hthis, hbefore⟩ := List.findIdx?_eq_some_iff_getElem.mp hfound
  rw [List.length_reverse] at hi
  obtain ⟨hlt, rfl⟩ := List.getElem?_eq_some_iff.mp htaken
  refine ⟨l.openGroups.take (l.openGroups.length - 1 - i),
    l.openGroups.drop (l.openGroups.length - 1 - i + 1), ?_, ?_, fun d hd => ?_, ?_⟩
  · rw [List.getElem_cons_drop, List.take_append_drop]
  · rwa [List.getElem_reverse] at hthis
  · obtain ⟨k, hk, rfl⟩ := List.mem_iff_getElem.mp hd
    rw [List.length_drop] at hk
    have hother := hbefore (i - 1 - k) (by omega)
    rw [List.getElem_reverse] at hother
    rw [List.getElem_drop]
    have hsame : l.openGroups.length - 1 - (i - 1 - k) = l.openGroups.length - 1 - i + 1 + k := by
      omega
    simp only [hsame] at hother
    exact Bool.eq_false_iff.mpr hother
  · rw [without, ← List.eraseIdx_eq_take_drop_succ]

/-- A group that opens comes to those that are there. -/
theorem drafts_openGroup (l : PartList) (group : PartGroup) :
    (l.openGroup group).drafts.Perm (⟨group, [], l.declared + 1⟩ :: l.drafts) := by
  obtain ⟨outer, inner, hold, hnew, _⟩ := l.openGroup_eq group
  have hroots : (l.openGroup group).rootGroups = l.rootGroups := rfl
  rw [drafts, drafts, hold, hnew, hroots, List.append_assoc, List.append_assoc, List.cons_append]
  exact List.perm_middle.flatMap_right _

/-- What is in a group that is taken out, and what is left. -/
theorem drafts_without {outer inner : List GroupDraft} {draft : GroupDraft}
    (h : l.openGroups = outer ++ draft :: inner) :
    l.drafts.Perm (draft.within ++ (l.without outer inner).drafts) := by
  rw [drafts, drafts, without, h, List.append_assoc, List.append_assoc, List.cons_append]
  exact List.perm_middle.flatMap_right _

/-- What a member brings comes to the declarations that are there. -/
theorem entries_insertInnermost (m : DraftMember) (h : l.openGroups ≠ []) :
    (l.insertInnermost m).entries.Perm (m.entries ++ l.entries) := by
  obtain ⟨outer, innermost, hopen⟩ := (List.eq_nil_or_concat' l.openGroups).resolve_left h
  have hroots : (l.insertInnermost m).rootGroups = l.rootGroups := rfl
  have hmembers := insertMember_perm m innermost.members
  have hparts : ((insertMember m innermost.members).filterMap DraftMember.partEntry?).Perm
      (m.partEntry?.toList ++ innermost.members.filterMap DraftMember.partEntry?) := by
    refine (hmembers.filterMap _).trans (.of_eq ?_)
    cases m <;> rfl
  have hinside : (((insertMember m innermost.members).flatMap DraftMember.within).flatMap
      GroupDraft.entries).Perm (m.within.flatMap GroupDraft.entries ++
        (innermost.members.flatMap DraftMember.within).flatMap GroupDraft.entries) := by
    refine ((hmembers.flatMap_right _).flatMap_right _).trans (.of_eq ?_)
    rw [List.flatMap_cons, List.flatMap_append]
  have hinnermost : ((GroupDraft.within { innermost with
      members := insertMember m innermost.members }).flatMap GroupDraft.entries).Perm
        (m.entries ++ innermost.within.flatMap GroupDraft.entries) := by
    rw [GroupDraft.within_eq, innermost.within_eq, List.flatMap_cons, List.flatMap_cons,
      List.perm_iff_count]
    intro a
    have hparts := hparts.count_eq a
    have hinside := hinside.count_eq a
    simp only [GroupDraft.entries, DraftMember.entries, GroupDraft.entry, List.count_append,
      List.count_cons] at hparts hinside ⊢
    omega
  rw [entries, entries, drafts, drafts, insertInnermost_eq m hopen, hroots, hopen,
    List.perm_iff_count]
  intro a
  have hinnermost := hinnermost.count_eq a
  simp only [List.flatMap_append, List.flatMap_singleton, List.count_append] at hinnermost ⊢
  omega

/-- What is moved into the innermost group leaves the other groups as they are. -/
theorem mem_drafts_insertInnermost {m : DraftMember} {d : GroupDraft}
    (hd : d ∈ (l.insertInnermost m).drafts) :
    d ∈ m.within ∨ d ∈ l.drafts ∨
      ∃ innermost ∈ l.drafts, d = { innermost with members := insertMember m innermost.members } := by
  rcases List.eq_nil_or_concat' l.openGroups with hnone | ⟨outer, innermost, hopen⟩
  · have hsame : (l.insertInnermost m).drafts = l.drafts := by simp [drafts, insertInnermost, hnone]
    exact .inr (.inl (hsame ▸ hd))
  · have hroots : (l.insertInnermost m).rootGroups = l.rootGroups := rfl
    have hold : l.drafts = outer.flatMap GroupDraft.within ++ innermost.within ++
        l.rootGroups.flatMap GroupDraft.within := by
      simp [drafts, hopen]
    have hin : innermost ∈ l.drafts := by simp [hold, innermost.within_eq]
    rw [drafts, insertInnermost_eq m hopen, hroots] at hd
    simp only [List.flatMap_append, List.mem_append, List.mem_cons, List.flatMap_cons,
      List.flatMap_nil, List.not_mem_nil, or_false,
      GroupDraft.within_eq { innermost with members := _ },
      ((insertMember_perm m innermost.members).flatMap_right DraftMember.within).mem_iff] at hd
    rcases hd with (houter | heq | hm | hinside) | hroot
    · exact .inr (.inl (by simp [hold, houter]))
    · exact .inr (.inr ⟨innermost, hin, heq⟩)
    · exact .inl hm
    · exact .inr (.inl (by simp [hold, innermost.within_eq, hinside]))
    · exact .inr (.inl (by simp [hold, hroot]))

/-- The headings of the open groups stay what they are when a member comes in. -/
theorem headings_insertInnermost (m : DraftMember) :
    (l.insertInnermost m).openGroups.map GroupDraft.heading =
      l.openGroups.map GroupDraft.heading := by
  rcases List.eq_nil_or_concat' l.openGroups with hnone | ⟨outer, innermost, hopen⟩
  · simp [insertInnermost, hnone]
  · simp [insertInnermost_eq m hopen, hopen]

end PartList

/-! ## The log -/

/-- Declarations with their places, counted from one. -/
def numbered (log : List Declaration) : List Numbered :=
  (log.zipIdx 1).map fun e => (e.2, e.1)

/-- The declaration that comes last has the number of them all. -/
theorem numbered_append (log : List Declaration) (d : Declaration) :
    numbered (log ++ [d]) = numbered log ++ [(log.length + 1, d)] := by
  simp [numbered, List.zipIdx_append, Nat.add_comm]

/-- The places of a log ascend. -/
theorem numbered_ascending (log : List Declaration) :
    (numbered log).Pairwise fun e f => e.1 < f.1 := by
  have hplaces : (numbered log).map Prod.fst = List.range' 1 log.length := by
    simp [numbered, List.map_map, Function.comp_def]
  have hrange : ((numbered log).map Prod.fst).Pairwise (· < ·) := by
    rw [hplaces]
    exact List.pairwise_lt_range'
  exact List.pairwise_map.mp hrange

/-- The numbered declarations are the declarations. -/
theorem map_numbered (log : List Declaration) : (numbered log).map Prod.snd = log := by
  simp [numbered, List.map_map, Function.comp_def]

namespace PartList

variable {l l' : PartList} {K : GroupDraft → List GroupDraft → Prop} {log ds : List Declaration}

/-- The groups of a part list are in order. -/
structure Tidy (l : PartList) : Prop where
  orderly : ∀ d ∈ l.drafts, d.Orderly
  /-- Only the outermost group may be implicit, -/
  explicit : ∀ heading ∈ (l.openGroups.map GroupDraft.heading).tail, heading.isImplicit = false
  /-- and then no other group gets outside of it. -/
  keyless : ∀ heading ∈ l.openGroups.map GroupDraft.heading,
    heading.isImplicit = true → heading.orderingKey? = none

namespace Tidy

/-- The groups of a part list stay in order when a group is opened. -/
theorem openGroup {group : PartGroup} (h : l.Tidy)
    (outermost : group.isImplicit = true → l.openGroups = [] ∧ group.orderingKey? = none) :
    (l.openGroup group).Tidy where
  orderly d hd := by
    rcases List.mem_cons.mp ((l.drafts_openGroup group).mem_iff.mp hd) with rfl | hold
    · exact ⟨List.Pairwise.nil, fun _ hm => absurd hm List.not_mem_nil⟩
    · exact h.orderly d hold
  explicit heading hheading := by
    obtain ⟨outer, inner, hold, hnew, hfirst⟩ := l.openGroup_eq group
    have hexplicit := h.explicit heading
    rw [hold] at hexplicit
    rw [hnew] at hheading
    cases outer with
    | nil =>
      -- all groups are further inside now, and the first of them has a key
      cases inner with
      | nil => exact absurd hheading List.not_mem_nil
      | cons d inner =>
        rcases List.mem_cons.mp hheading with rfl | hinner
        · have hkey := hfirst rfl d rfl
          refine Bool.eq_false_iff.mpr fun himplicit => ?_
          rw [h.keyless d.heading (by simp [hold]) himplicit] at hkey
          exact absurd hkey Bool.false_ne_true
        · exact hexplicit hinner
    | cons o outer =>
      simp only [List.cons_append, List.map_cons, List.tail_cons, List.map_append,
        List.mem_append, List.mem_cons] at hheading hexplicit
      rcases hheading with houter | rfl | hinner
      · exact hexplicit (.inl houter)
      · refine Bool.eq_false_iff.mpr fun himplicit => ?_
        rw [(outermost himplicit).1] at hold
        exact absurd hold.symm (List.append_ne_nil_of_left_ne_nil (List.cons_ne_nil _ _) _)
      · exact hexplicit (.inr hinner)
  keyless heading hheading himplicit := by
    obtain ⟨outer, inner, hold, hnew, _⟩ := l.openGroup_eq group
    have hkeyless := h.keyless heading
    rw [hold] at hkeyless
    rw [hnew] at hheading
    simp only [List.map_append, List.map_cons, List.mem_append, List.mem_cons] at hheading hkeyless
    rcases hheading with houter | rfl | hinner
    · exact hkeyless (.inl houter) himplicit
    · exact (outermost himplicit).2
    · exact hkeyless (.inr hinner) himplicit

/-- The groups of a part list stay in order when a member comes into the innermost one. -/
theorem insertInnermost {m : DraftMember} (h : l.Tidy)
    (explicit : ∀ inner, m = .group inner → inner.heading.isImplicit = false)
    (orderly : ∀ d ∈ m.within, d.Orderly) : (l.insertInnermost m).Tidy where
  orderly d hd := by
    rcases mem_drafts_insertInnermost hd with hm | hold | ⟨innermost, hinnermost, rfl⟩
    · exact orderly d hm
    · exact h.orderly d hold
    · exact (h.orderly innermost hinnermost).insert explicit
  explicit := by
    rw [headings_insertInnermost]
    exact h.explicit
  keyless := by
    rw [headings_insertInnermost]
    exact h.keyless

/-- The groups of a part list stay in order when one is taken out. -/
theorem without {outer inner : List GroupDraft} {draft : GroupDraft} (h : l.Tidy)
    (hopen : l.openGroups = outer ++ draft :: inner) : (l.without outer inner).Tidy where
  orderly d hd := h.orderly d ((drafts_without hopen).mem_iff.mpr (List.mem_append_right _ hd))
  explicit heading hheading := by
    refine h.explicit heading ?_
    rw [hopen]
    cases outer with
    | nil => exact List.mem_of_mem_tail hheading
    | cons o outer =>
      have hheading : heading ∈ (outer ++ inner).map GroupDraft.heading := hheading
      simp only [List.map_append, List.mem_append] at hheading
      simpa using hheading.imp_right Or.inr
  keyless heading hheading := by
    refine h.keyless heading ?_
    rw [hopen]
    have hheading : heading ∈ (outer ++ inner).map GroupDraft.heading := hheading
    simp only [List.map_append, List.mem_append] at hheading
    simpa using hheading.imp_right Or.inr

/-- The groups of a part list stay in order when one is put where it belongs. -/
theorem place {draft : GroupDraft} (h : l.Tidy) (orderly : ∀ d ∈ draft.within, d.Orderly)
    (explicit : l.openGroups ≠ [] → draft.heading.isImplicit = false) : (l.place draft).Tidy := by
  unfold PartList.place
  split
  · refine ⟨fun d hd => ?_, h.explicit, h.keyless⟩
    have hd : d ∈ (l.openGroups ++ (l.rootGroups ++ [draft])).flatMap GroupDraft.within := hd
    rw [← List.append_assoc, List.flatMap_append, List.flatMap_singleton, List.mem_append] at hd
    exact hd.elim (h.orderly d) (orderly d)
  · next hopen =>
    refine h.insertInnermost ?_ orderly
    rintro _ ⟨⟩
    exact explicit (by simpa using hopen)

end Tidy

/-- What is in a group comes to the declarations that are there. -/
theorem entries_place (l : PartList) (draft : GroupDraft) :
    (l.place draft).entries.Perm (draft.within.flatMap GroupDraft.entries ++ l.entries) := by
  unfold place
  split
  · rw [entries, entries, drafts, drafts, ← List.append_assoc, List.flatMap_append,
      List.flatMap_singleton, List.flatMap_append]
    exact List.perm_append_comm
  · next hopen => exact entries_insertInnermost _ (by simpa using hopen)

/-- **A part list has all that was declared**, each thing once and under its place in the log, and
it is in order. -/
structure Logged (log : List Declaration) (l : PartList) : Prop where
  count : l.declared = log.length
  entries : l.entries.Perm (numbered log)
  tidy : l.Tidy

/-- An empty part list is told by an empty log. -/
theorem Logged.empty : Logged [] {} := ⟨rfl, .refl _, nofun, nofun, nofun⟩

/-- **Every change** enters its declarations into the log. -/
theorem Logged.change (h : Logged log l) (hchange : Changes K l ds l') :
    Logged (log ++ ds) l' := by
  cases hchange with
  | opened group bare outermost =>
    refine ⟨?_, ?_, h.tidy.openGroup outermost⟩
    · rw [List.length_append, List.length_singleton, ← h.count]
      rfl
    · have hgroup : group.bare = group := by
        cases group
        cases bare
        rfl
      rw [numbered_append, ← h.count]
      refine ((l.drafts_openGroup group).flatMap_right _).trans ?_
      rw [List.flatMap_cons]
      refine List.Perm.trans ?_ (h.entries.append_right _)
      simp only [GroupDraft.entries, GroupDraft.entry, List.filterMap_nil, hgroup]
      exact List.perm_append_comm
  | declared id hopen =>
    refine ⟨?_, ?_, Tidy.insertInnermost ⟨h.tidy.orderly, h.tidy.explicit, h.tidy.keyless⟩ nofun nofun⟩
    · rw [List.length_append, List.length_singleton, ← h.count]
      rfl
    · rw [numbered_append, ← h.count]
      have hinsert := @entries_insertInnermost { l with declared := l.declared + 1 }
        (.part id (l.declared + 1)) hopen
      refine (hinsert.trans ?_).trans (h.entries.append_right _)
      exact List.perm_append_comm
  | moved outer inner draft hopen explicit _ =>
    rw [List.append_nil]
    have hplaced : ((l.without outer inner).place draft).declared = l.declared := by
      unfold place
      split <;> rfl
    refine ⟨hplaced.trans h.count, ?_, (h.tidy.without hopen).place ?_ ?_⟩
    · refine (entries_place _ draft).trans (List.Perm.trans ?_ h.entries)
      have hall := (drafts_without hopen).flatMap_right GroupDraft.entries
      rw [List.flatMap_append] at hall
      exact hall.symm
    · exact fun d hd => h.tidy.orderly d
        ((drafts_without hopen).mem_iff.mpr (List.mem_append_left _ hd))
    · intro hothers
      rcases explicit with explicit | rfl
      · exact explicit
      · -- only the outermost group may be implicit, and this one is not
        have houter : outer ≠ [] := by simpa [PartList.without] using hothers
        obtain ⟨o, outer, rfl⟩ := List.exists_cons_of_ne_nil houter
        exact h.tidy.explicit draft.heading (by simp [hopen])

/-- Changes one after the other enter their declarations into the log. -/
theorem Logged.evolve (h : Logged log l) (hevolves : Evolves K l ds l') : Logged (log ++ ds) l' :=
  hevolves.keeps h fun h => h.change

/-- What is in a group is among all that is in the part list. -/
theorem entries_of_mem {d : GroupDraft} (hd : d ∈ l.drafts) :
    (d.within.flatMap GroupDraft.entries).Sublist l.entries := by
  obtain ⟨g, hg, hin⟩ := List.mem_flatMap.mp hd
  obtain ⟨before, after, hsplit⟩ := List.append_of_mem hg
  have hwithin : d.within.Sublist l.drafts := by
    rw [drafts, hsplit, List.flatMap_append, List.flatMap_cons]
    exact (GroupDraft.within_sublist hin).trans
      ((List.sublist_append_left _ _).trans (List.sublist_append_right _ _))
  exact hwithin.flatMap _

/-- **The members of a group** stand in the order of the log. -/
theorem Logged.members_sublist (h : Logged log l) {d : GroupDraft} (hd : d ∈ l.drafts) :
    ((d.members.map DraftMember.entry).map Prod.snd).Sublist log := by
  have hall : (d.members.map DraftMember.entry).Subperm (numbered log) :=
    (d.members_entries.trans (entries_of_mem hd).subperm).trans h.entries.subperm
  obtain ⟨sorted, hperm, hsub⟩ := hall
  have hascending : sorted.Pairwise fun e f => e.1 < f.1 := (numbered_ascending log).sublist hsub
  have hmembers : (d.members.map DraftMember.entry).Pairwise fun e f => e.1 ≤ f.1 := by
    refine List.pairwise_map.mpr ((h.tidy.orderly d hd).sorted.imp fun {m n} hle => ?_)
    cases m <;> cases n <;> exact hle
  -- the places are all different, so there is one order in which they ascend
  have hplaces : (sorted.map Prod.fst).Nodup :=
    (List.pairwise_map.mpr hascending).imp fun hlt => Nat.ne_of_lt hlt
  have hsame : sorted = d.members.map DraftMember.entry :=
    hperm.eq_of_pairwise (fun e f he hf hle hge =>
      List.inj_on_of_nodup_map hplaces he (hperm.mem_iff.mpr hf) (Nat.le_antisymm hle hge))
      (hascending.imp fun hlt => Nat.le_of_lt hlt) hmembers
  rw [← hsame, ← map_numbered log]
  exact hsub.map Prod.snd

end PartList

end Partwise
