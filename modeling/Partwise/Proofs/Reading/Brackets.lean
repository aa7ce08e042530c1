import Partwise.Proofs.Reading.Fitting
import Partwise.Proofs.Reading.Independence
import Partwise.Proofs.Reading.Parallels

/-!
# Reading · Brackets: part lists whose groups are nested like brackets

A part list may write down a forest: a part as its declaration, and a group as a start with its
number, what is in it, and a stop with the same number (`PartTree`). Such a list is read without
fail, and to the forest that was written down. Groups with one number may stand inside each other,
since a stop takes the innermost group.

Only parts outside of all groups do not stay where they are. The first of them opens an implicit
group, and that one is never stopped. So it takes in all that follows, and it comes last
(`groupsOfTrees`).
-/

namespace Partwise

open Markup

/-! ## Forests that are written down -/

/-- The element starts a group: it says nothing of how far to the right the symbol stands, and the
symbol is one that is known. -/
structure Markup.Element.OpensGroup (e : Element) : Prop where
  name : e.name = "part-group"
  type : e.attr? "type" = some "start"
  unordered : ∀ symbol, e.child? "group-symbol" = some symbol → symbol.attr? "default-x" = none
  known : ∀ symbol word, e.child? "group-symbol" = some symbol → symbol.text? = some word →
    (Vocabulary.ofWord? word : Option GroupSymbol).isSome

/-- The element stops a group with a number. -/
structure Markup.Element.ClosesGroup (e : Element) (number : String) : Prop where
  name : e.name = "part-group"
  type : e.attr? "type" = some "stop"
  number : e.groupNumber = number

/-- A part, or a group with all that is in it, as a part list writes it down. -/
inductive PartTree where
  | part (declaration : Element)
  | group (start : Element) (inside : List PartTree) (stop : Element)

/-- The id of the part that an element declares. -/
def Markup.Element.declaredId (e : Element) : String := (e.attr? "id").getD ""

mutual

/-- What stands in the part list. -/
def PartTree.elements : PartTree → List Element
  | .part declaration => [declaration]
  | .group start inside stop => start :: (elementsOfTrees inside ++ [stop])

/-- What stands in the part list, tree by tree. -/
def elementsOfTrees : List PartTree → List Element
  | [] => []
  | t :: ts => t.elements ++ elementsOfTrees ts

end

mutual

/-- The declarations of parts, in their order. -/
def PartTree.declarations : PartTree → List Element
  | .part declaration => [declaration]
  | .group _ inside _ => declarationsOfTrees inside

/-- The declarations of parts, tree by tree. -/
def declarationsOfTrees : List PartTree → List Element
  | [] => []
  | t :: ts => t.declarations ++ declarationsOfTrees ts

end

mutual

/-- Elements are what they should be where they stand. -/
def PartTree.WrittenWell : PartTree → Prop
  | .part declaration => declaration.name = "score-part" ∧ (declaration.attr? "id").isSome
  | .group start inside stop =>
    start.OpensGroup ∧ stop.ClosesGroup start.groupNumber ∧ AllWrittenWell inside

/-- Elements are what they should be, in every tree. -/
def AllWrittenWell : List PartTree → Prop
  | [] => True
  | t :: ts => t.WrittenWell ∧ AllWrittenWell ts

end

/-- The group that an element starts, without its members. -/
def Markup.Element.heading (e : Element) : PartGroup where
  id := e.groupNumber
  name? := e.childText? "group-name"
  abbreviation? := e.childText? "group-abbreviation"
  symbol := ((e.childText? "group-symbol").bind Vocabulary.ofWord?).getD .none
  orderingKey? := none
  barline := e.childText? "group-barline" = some "yes" ||
    e.childText? "group-barline" = some "Mensurstrich"
  isImplicit := false
  members := []
  line := e.line

mutual

/-- The member of a group that is written down, with a part for each declaration. -/
def PartTree.member (part : Element → Part) : PartTree → GroupMember
  | .part declaration => .part (part declaration)
  | .group start inside _ => .group { start.heading with members := membersOfTrees part inside }

/-- The members of a group that are written down. -/
def membersOfTrees (part : Element → Part) : List PartTree → List GroupMember
  | [] => []
  | t :: ts => t.member part :: membersOfTrees part ts

end

/-- **The forest that is written down.** From the first part outside of all groups on, everything is
in one implicit group. -/
def groupsOfTrees (part : Element → Part) : List PartTree → List PartGroup
  | [] => []
  | .group start inside _ :: ts =>
    { start.heading with members := membersOfTrees part inside } :: groupsOfTrees part ts
  | .part declaration :: ts =>
    [{ PartGroup.implicit declaration.line with
      members := membersOfTrees part (.part declaration :: ts) }]

/-! ## Drafts -/

mutual

/-- How many declarations there are. -/
def PartTree.count : PartTree → Nat
  | .part _ => 1
  | .group _ inside _ => countOfTrees inside + 1

/-- How many declarations there are in some trees. -/
def countOfTrees : List PartTree → Nat
  | [] => 0
  | t :: ts => t.count + countOfTrees ts

end

mutual

/-- What a tree becomes in a part list, after some declarations. -/
def PartTree.draft (declared : Nat) : PartTree → DraftMember
  | .part declaration => .part declaration.declaredId (declared + 1)
  | .group start inside _ => .group
    { heading := start.heading
      members := draftsOfTrees (declared + 1) inside
      sequence := declared + 1 }

/-- What some trees become in a part list, after some declarations. -/
def draftsOfTrees (declared : Nat) : List PartTree → List DraftMember
  | [] => []
  | t :: ts => t.draft declared :: draftsOfTrees (declared + t.count) ts

end

/-- The part that an element declares, still without music. -/
def Markup.Element.declaredPart (e : Element) : Part := Part.ofElement e e.declaredId

/-- The reading after some trees were read into an open group. -/
def Reading.grown (r : Reading) (outer : List GroupDraft) (g : GroupDraft) (ts : List PartTree) :
    Reading :=
  { r with
    partList :=
      { r.partList with
        openGroups :=
          outer ++ [{ g with members := g.members ++ draftsOfTrees r.partList.declared ts }]
        declared := r.partList.declared + countOfTrees ts }
    parts := r.parts ++ (declarationsOfTrees ts).map Element.declaredPart }

/-- The reading after a group has started, innermost. -/
def Reading.opened (r : Reading) (start : Element) : Reading :=
  { r with partList :=
    { r.partList with
      openGroups := r.partList.openGroups ++ [⟨start.heading, [], r.partList.declared + 1⟩]
      declared := r.partList.declared + 1 } }

/-- The group that is written down, after some declarations. -/
def groupDraft (declared : Nat) (start : Element) (inside : List PartTree) : GroupDraft where
  heading := start.heading
  members := draftsOfTrees (declared + 1) inside
  sequence := declared + 1

/-- The reading after a whole group was read. -/
def Reading.placed (r : Reading) (start : Element) (inside : List PartTree) : Reading :=
  { r with
    partList := PartList.place
      { r.partList with declared := r.partList.declared + (countOfTrees inside + 1) }
      (groupDraft r.partList.declared start inside)
    parts := r.parts ++ (declarationsOfTrees inside).map Element.declaredPart }

/-- Whatever is found counts. -/
def listing : Standard where
  heeds _ := true
  fails _ _ := True
  lenient := True

variable {r s : Reading} {settings : Settings}

/-- What holds after a step may be said in other words. -/
theorem Standard.Aside.imp {S : Standard} {α : Type} {x : Step α} {P Q : α → Reading → Prop}
    (h : S.Aside x r P) (hPQ : ∀ a t, P a t → Q a t) : S.Aside x r Q := by
  intro j
  obtain ⟨a, t, said, hrun, hsaid, hP⟩ := h j
  exact ⟨a, t, said, hrun, hsaid, hPQ a t hP⟩

/-- The heading of a group is read from its start, and nothing else changes. -/
theorem Markup.Element.OpensGroup.aside {e : Element} (h : e.OpensGroup) :
    listing.Aside (liftM (PartGroup.ofElement e e.groupNumber)) r fun g t =>
      g = e.heading ∧ t = r := by
  intro j
  unfold PartGroup.ofElement heading wordOr Element.childText?
  rcases hsymbol : e.child? "group-symbol" with _ | symbol
  · exact ⟨_, r, [], rfl, rfl, rfl, rfl⟩
  · have hkey : symbol.attrValue? .f32 "default-x" = .ok none := by
      rw [Element.attrValue?, h.unordered symbol hsymbol]
    rcases hword : symbol.text? with _ | word
    · refine ⟨_, r, [], ?_, rfl, rfl, rfl⟩
      simp only [Option.bind_some, hword, hkey]
      rfl
    · obtain ⟨kind, hkind⟩ := Option.isSome_iff_exists.mp (h.known symbol word hsymbol hword)
      refine ⟨_, r, [], ?_, rfl, rfl, rfl⟩
      simp only [Option.bind_some, hword, hkey, hkind]
      rfl

/-! ## Elements of a part list -/

section

variable {e : Element} {outer : List GroupDraft} {g : GroupDraft}

/-- The innermost group is taken out if it has the number. -/
theorem PartList.takeGroup?_last {l : PartList} {number : String}
    (hopen : l.openGroups = outer ++ [g]) (hg : g.answers number = true) :
    l.takeGroup? number = some (g, { l with openGroups := outer }) := by
  have hlast : l.openGroups.reverse.findIdx? (fun draft =>
      !draft.heading.isImplicit && draft.heading.id = number) = some 0 := by
    have hg : (!g.heading.isImplicit && g.heading.id = number) = true := hg
    rw [hopen, List.reverse_append, List.reverse_singleton, List.singleton_append,
      List.findIdx?_cons, if_pos hg]
  rw [takeGroup?, hlast]
  simp [hopen, List.eraseIdx_append_of_length_le]

/-- An element of a part list is a leaf. -/
theorem visit_partGroup (h : e.name = "part-group") : visit settings e = readPartGroup e := by
  rw [visit_eq, movesOf_leaf (by rw [h]; decide) (by rw [h]; decide) (by rw [h]; decide)
    (by rw [h]; decide)]
  simp [Move.perform, readLeaf_partGroup h]

/-- The visit of a part declaration is its reading. -/
theorem visit_scorePart (h : e.name = "score-part") : visit settings e = readScorePart e := by
  rw [visit_eq, movesOf_leaf (by rw [h]; decide) (by rw [h]; decide) (by rw [h]; decide)
    (by rw [h]; decide)]
  simp [Move.perform, readLeaf, h]

/-- A group opens, innermost. -/
theorem aside_start (h : e.OpensGroup) :
    listing.Aside (visit settings e) r fun _ t => t = r.opened e := by
  rw [visit_partGroup h.name, readPartGroup, h.type]
  refine h.aside.bind ?_
  rintro _ _ ⟨rfl, rfl⟩
  refine (Standard.Aside.tell (P := fun _ t => t = _) rfl).bind ?_
  rintro _ _ rfl
  refine .modify ?_
  unfold PartList.openGroup
  simp [Reading.opened, Element.heading]

/-- A stop of the innermost group puts that group where it belongs. -/
theorem aside_stop {number : String} (h : e.ClosesGroup number)
    (hopen : r.partList.openGroups = outer ++ [g]) (hg : g.answers number = true) :
    listing.Aside (visit settings e) r fun _ t =>
      t = { r with partList := PartList.place { r.partList with openGroups := outer } g } := by
  rw [visit_partGroup h.name, readPartGroup, h.type]
  refine .get ?_
  have hnumber : (e.attr? "number").getD "1" = number := h.number
  simp only [hnumber, PartList.takeGroup?_last hopen hg]
  refine .bind (P := fun _ t => t = _) (.modify rfl) ?_
  rintro _ _ rfl
  refine .bind (P := fun _ t => t = _) (.tell rfl) ?_
  rintro _ _ rfl
  exact .modify rfl

/-- The reading after an implicit group has opened. -/
def Reading.sheltered (r : Reading) (line : Nat) : Reading :=
  { r with partList :=
    { r.partList with
      openGroups := [⟨PartGroup.implicit line, [], r.partList.declared + 1⟩]
      declared := r.partList.declared + 1 } }

/-- A part that is not known is declared into the innermost group. If none is open, an implicit one
opens before. -/
theorem aside_declare (hname : e.name = "score-part") (hid : (e.attr? "id").isSome)
    (hnew : e.declaredId ∉ r.parts.map Part.id)
    (hs : s = if r.partList.openGroups = [] then r.sheltered e.line else r)
    (hopen : s.partList.openGroups = outer ++ [g])
    (hyoung : ∀ m ∈ g.members, m.sequence ≤ s.partList.declared) :
    listing.Aside (visit settings e) r fun _ t => t = s.grown outer g [.part e] := by
  obtain ⟨id, hid⟩ := Option.isSome_iff_exists.mp hid
  have hdeclared : e.declaredId = id := by rw [Element.declaredId, hid]; rfl
  have hunknown : (r.parts.any fun part => part.id = id) = false := by
    rw [List.any_eq_false]
    intro part hpart hsame
    exact hnew (List.mem_map.mpr ⟨part, hpart, by rw [hdeclared]; exact of_decide_eq_true hsame⟩)
  rw [visit_scorePart hname, readScorePart, hid]
  refine .get ?_
  rw [if_neg (by rw [hunknown]; exact Bool.false_ne_true)]
  refine .get ?_
  extract_lets declare
  have hlast : insertMember (.part id (s.partList.declared + 1)) g.members =
      g.members ++ [.part id (s.partList.declared + 1)] :=
    insertMember_last fun m hm => Nat.lt_succ_of_le (hyoung m hm)
  have hdeclare : ∀ u, listing.Aside (declare u) s fun _ t => t = s.grown outer g [.part e] := by
    intro u
    refine .bind (P := fun _ t => t = _) (.modify rfl) ?_
    rintro _ _ rfl
    refine .bind (P := fun _ t => t = _) (.tell rfl) ?_
    rintro _ _ rfl
    refine .modify ?_
    simp [Reading.grown, PartList.declarePart, PartList.insertInnermost, hopen, hlast,
      draftsOfTrees, PartTree.draft, countOfTrees, PartTree.count, declarationsOfTrees,
      PartTree.declarations, Element.declaredPart, hdeclared]
  rcases hnone : r.partList.openGroups with _ | ⟨first, rest⟩
  · rw [if_pos hnone] at hs
    refine .bind (P := fun _ t => t = s) (.modify ?_) fun u t ht => ht ▸ hdeclare u
    rw [hs]
    unfold PartList.openGroup
    simp [Reading.sheltered, PartGroup.implicit, hnone]
  · rw [if_neg (hnone ▸ List.cons_ne_nil _ _)] at hs
    exact hs ▸ hdeclare ()

end

/-! ## Trees -/

section

variable {outer : List GroupDraft} {g : GroupDraft}

/-- A group is read from its start to its stop, if what is inside it is read. -/
theorem aside_group {start stop : Element} {inside : List PartTree} (hstart : start.OpensGroup)
    (hstop : stop.ClosesGroup start.groupNumber)
    (hinside : listing.Aside (visitAll settings (elementsOfTrees inside)) (r.opened start) fun _ t =>
      t = (r.opened start).grown r.partList.openGroups ⟨start.heading, [], r.partList.declared + 1⟩
        inside) :
    listing.Aside (visitAll settings (PartTree.group start inside stop).elements) r fun _ t =>
      t = r.placed start inside := by
  rw [PartTree.elements, visitAll, visitAll_append]
  refine (aside_start hstart).bind ?_
  rintro _ _ rfl
  refine hinside.bind ?_
  rintro _ _ rfl
  refine Standard.Aside.bind (aside_stop hstop rfl ?_) fun _ t ht => .pure ?_
  · simp [GroupDraft.answers, Element.heading]
  · rw [ht]
    simp [Reading.placed, Reading.grown, Reading.opened, groupDraft, Nat.add_assoc, Nat.add_comm 1]

/-- The draft of a group is that of its start with what is inside. -/
theorem draft_group (declared : Nat) (start stop : Element) (inside : List PartTree) :
    (PartTree.group start inside stop).draft declared =
      .group (groupDraft declared start inside) := rfl

/-- A tree that is placed within an open group makes that group grow by it. -/
theorem Reading.placed_eq {start stop : Element} {inside : List PartTree}
    (hopen : r.partList.openGroups = outer ++ [g])
    (hyoung : ∀ m ∈ g.members, m.sequence ≤ r.partList.declared) :
    r.placed start inside = r.grown outer g [.group start inside stop] := by
  have hlast : insertMember (.group (groupDraft r.partList.declared start inside)) g.members =
      g.members ++ [.group (groupDraft r.partList.declared start inside)] :=
    insertMember_last fun m hm => Nat.lt_succ_of_le (hyoung m hm)
  simp [placed, grown, PartList.place, PartList.insertInnermost, hopen, hlast, draftsOfTrees,
    draft_group, countOfTrees, PartTree.count, declarationsOfTrees, PartTree.declarations]

/-- No tree changes nothing. -/
theorem Reading.grown_nil (hopen : r.partList.openGroups = outer ++ [g]) : r.grown outer g [] = r := by
  obtain ⟨heading, members, sequence⟩ := g
  simp [grown, draftsOfTrees, countOfTrees, declarationsOfTrees, ← hopen]

/-- Trees are read one after the other. -/
theorem Reading.grown_cons (r : Reading) (t : PartTree) (ts : List PartTree) :
    (r.grown outer g [t]).grown outer
      { g with members := g.members ++ draftsOfTrees r.partList.declared [t] } ts =
        r.grown outer g (t :: ts) := by
  simp [grown, draftsOfTrees, countOfTrees, declarationsOfTrees, Nat.add_assoc]

/-- Every tree declares something. -/
theorem PartTree.count_pos (t : PartTree) : 0 < t.count := by
  cases t <;> exact Nat.succ_pos _

/-- Parts have the ids that they are declared with. -/
theorem ids_declaredPart (declarations : List Element) :
    (declarations.map Element.declaredPart).map Part.id = declarations.map Element.declaredId := by
  rw [List.map_map]
  rfl

/-- Parts that are declared later are not known when earlier ones have been declared. -/
theorem not_declared {parts : List Part} {first others : List Element}
    (hids : ((first ++ others).map Element.declaredId).Nodup)
    (hnew : ∀ id ∈ (first ++ others).map Element.declaredId, id ∉ parts.map Part.id) :
    ∀ id ∈ others.map Element.declaredId,
      id ∉ (parts ++ first.map Element.declaredPart).map Part.id := by
  rw [List.map_append] at hids hnew
  obtain ⟨_, _, hapart⟩ := List.nodup_append.mp hids
  intro id hid hthere
  rw [List.map_append, ids_declaredPart] at hthere
  rcases List.mem_append.mp hthere with hold | hpart
  · exact hnew id (List.mem_append_right _ hid) hold
  · exact hapart id hpart id hid rfl

/-- A tree is as old as its first declaration. -/
theorem sequence_draft (t : PartTree) (n : Nat) : (t.draft n).sequence = n + 1 := by
  cases t <;> rfl

/-- Members are no younger than what was declared, also with one tree more. -/
theorem young_append {ms : List DraftMember} {declared : Nat} (t : PartTree)
    (hyoung : ∀ m ∈ ms, m.sequence ≤ declared) :
    ∀ m ∈ ms ++ draftsOfTrees declared [t], m.sequence ≤ declared + countOfTrees [t] := by
  intro m hm
  rcases List.mem_append.mp hm with hold | hnew
  · exact Nat.le_trans (hyoung m hold) (Nat.le_add_right _ _)
  · obtain rfl := List.mem_singleton.mp hnew
    rw [sequence_draft]
    exact Nat.add_le_add_left (Nat.le_add_right_of_le t.count_pos) _

mutual

/-- **A tree is read** into the open group, and nothing is found in it. -/
theorem PartTree.aside {r : Reading} (outer : List GroupDraft) (g : GroupDraft) (t : PartTree)
    (hwell : t.WrittenWell)
    (hids : (t.declarations.map Element.declaredId).Nodup)
    (hnew : ∀ id ∈ t.declarations.map Element.declaredId, id ∉ r.parts.map Part.id)
    (hopen : r.partList.openGroups = outer ++ [g])
    (hyoung : ∀ m ∈ g.members, m.sequence ≤ r.partList.declared) :
    listing.Aside (visitAll settings t.elements) r fun _ u => u = r.grown outer g [t] := by
  match t with
  | .part declaration =>
    have hsome : r.partList.openGroups ≠ [] := by simp [hopen]
    exact Standard.Aside.bind (aside_declare hwell.1 hwell.2 (hnew _ (List.mem_singleton_self _))
      (if_neg hsome).symm hopen hyoung) fun _ u hu => .pure hu
  | .group start inside stop =>
    have hgroup := aside_group hwell.1 hwell.2.1
      (aside_trees (r := r.opened start) r.partList.openGroups ⟨start.heading, [], _⟩ inside
        hwell.2.2 hids hnew rfl nofun)
    rwa [Reading.placed_eq hopen hyoung] at hgroup

/-- Trees are read into the open group. -/
theorem aside_trees {r : Reading} (outer : List GroupDraft) (g : GroupDraft) (ts : List PartTree)
    (hwell : AllWrittenWell ts)
    (hids : ((declarationsOfTrees ts).map Element.declaredId).Nodup)
    (hnew : ∀ id ∈ (declarationsOfTrees ts).map Element.declaredId, id ∉ r.parts.map Part.id)
    (hopen : r.partList.openGroups = outer ++ [g])
    (hyoung : ∀ m ∈ g.members, m.sequence ≤ r.partList.declared) :
    listing.Aside (visitAll settings (elementsOfTrees ts)) r fun _ u => u = r.grown outer g ts := by
  match ts with
  | [] =>
    exact .pure (Reading.grown_nil hopen).symm
  | t :: ts =>
    rw [declarationsOfTrees] at hids hnew
    have hlater := not_declared hids hnew
    rw [List.map_append] at hids hnew
    obtain ⟨hfirst, hothers, _⟩ := List.nodup_append.mp hids
    rw [elementsOfTrees, visitAll_append]
    refine (PartTree.aside outer g t hwell.1 hfirst
      (fun id hid => hnew id (List.mem_append_left _ hid)) hopen hyoung).bind ?_
    rintro _ _ rfl
    rw [← r.grown_cons t ts]
    refine aside_trees (r := r.grown outer g [t]) outer
      { g with members := g.members ++ draftsOfTrees r.partList.declared [t] } ts hwell.2 hothers
      ?_ rfl (young_append t hyoung)
    rwa [Reading.grown, declarationsOfTrees, declarationsOfTrees, List.append_nil]

end

/-- The groups that a whole part list becomes, after some declarations. -/
def rootsOfTrees (declared : Nat) : List PartTree → List GroupDraft
  | [] => []
  | .group start inside stop :: ts =>
    groupDraft declared start inside ::
      rootsOfTrees (declared + (PartTree.group start inside stop).count) ts
  | .part declaration :: ts =>
    [{ heading := PartGroup.implicit declaration.line
       members := draftsOfTrees (declared + 1) (.part declaration :: ts)
       sequence := declared + 1 }]

/-- The reading after a whole part list. -/
def Reading.rooted (r : Reading) (ts : List PartTree) (declared : Nat) : Reading :=
  { r with
    partList :=
      { openGroups := []
        rootGroups := r.partList.rootGroups ++ rootsOfTrees r.partList.declared ts
        declared }
    parts := r.parts ++ (declarationsOfTrees ts).map Element.declaredPart }

/-- An empty part list changes nothing. -/
theorem Reading.rooted_nil (hnone : r.partList.openGroups = []) :
    r.rooted [] r.partList.declared = r := by
  obtain ⟨_, ⟨openGroups, _, _⟩, _, _, _⟩ := r
  cases hnone
  simp [rooted, rootsOfTrees, declarationsOfTrees]

/-- Where no group is open, none is closed. -/
theorem aside_closeNone {line : Nat} (h : r.partList.openGroups = []) :
    listing.Aside (closeGroups line) r fun _ t => t = r := by
  refine .get ?_
  rw [h]
  exact .pure rfl

/-- An implicit group is closed without a finding. -/
theorem aside_closeImplicit {line : Nat} (h : r.partList.openGroups = [g])
    (hg : g.heading.isImplicit = true) :
    listing.Aside (closeGroups line) r fun _ t =>
      t = { r with partList :=
        { r.partList with openGroups := [], rootGroups := r.partList.rootGroups ++ [g] } } := by
  refine .get ?_
  rw [h]
  refine Standard.Aside.bind ?_ fun _ t ht => .pure ht
  refine .get ?_
  simp only [h, List.getLast?_singleton, hg, Bool.not_true, Bool.false_eq_true, if_false]
  refine .bind (P := fun _ t => t = _) (.modify rfl) ?_
  rintro _ _ rfl
  refine .bind (P := fun _ t => t = _) (.tell rfl) ?_
  rintro _ _ rfl
  refine .modify ?_
  simp [PartList.place]

/-- **A part list is read** without fail and without a finding. -/
theorem aside_partList {line : Nat} (ts : List PartTree) (hwell : AllWrittenWell ts)
    (hids : ((declarationsOfTrees ts).map Element.declaredId).Nodup)
    (hnew : ∀ id ∈ (declarationsOfTrees ts).map Element.declaredId, id ∉ r.parts.map Part.id)
    (hnone : r.partList.openGroups = []) :
    listing.Aside (do visitAll settings (elementsOfTrees ts); closeGroups line) r fun _ t =>
      ∃ declared, t = r.rooted ts declared := by
  induction ts generalizing r with
  | nil =>
    refine .bind (P := fun _ t => t = r) (.pure rfl) ?_
    rintro _ _ rfl
    refine (aside_closeNone hnone).imp fun _ u hu => ⟨_, hu.trans (Reading.rooted_nil hnone).symm⟩
  | cons t ts ih =>
    rw [declarationsOfTrees] at hids hnew
    have hlater := not_declared hids hnew
    rw [List.map_append] at hids hnew
    obtain ⟨hfirst, hothers, _⟩ := List.nodup_append.mp hids
    cases t with
    | group start inside stop =>
      have hinside := @aside_trees settings (r.opened start) r.partList.openGroups
        ⟨start.heading, [], r.partList.declared + 1⟩ inside hwell.1.2.2 hfirst
        (fun id hid => hnew id (List.mem_append_left _ hid)) rfl
        fun _ hm => absurd hm List.not_mem_nil
      rw [elementsOfTrees, visitAll_append, bind_assoc]
      refine (aside_group hwell.1.1 hwell.1.2.1 hinside).bind ?_
      rintro _ _ rfl
      refine (ih hwell.2 hothers hlater ?_).imp ?_
      · simp [Reading.placed, PartList.place, hnone]
      · rintro _ _ ⟨declared, rfl⟩
        refine ⟨declared, ?_⟩
        simp [Reading.placed, Reading.rooted, PartList.place, hnone, rootsOfTrees,
          declarationsOfTrees, PartTree.declarations, PartTree.count]
    | part declaration =>
      rw [elementsOfTrees, PartTree.elements, List.singleton_append, visitAll, bind_assoc]
      refine Standard.Aside.bind (@aside_declare _ _ settings _ [] _ hwell.1.1 hwell.1.2
        (hnew _ List.mem_cons_self) (if_pos hnone).symm rfl
        fun _ hm => absurd hm List.not_mem_nil) ?_
      rintro _ _ rfl
      refine (aside_trees [] ⟨PartGroup.implicit declaration.line, _, _⟩ ts hwell.2 hothers
        hlater rfl (young_append _ fun _ h => absurd h List.not_mem_nil)).bind ?_
      rintro _ _ rfl
      rw [Reading.grown_cons]
      refine (aside_closeImplicit rfl rfl).imp ?_
      rintro _ _ rfl
      refine ⟨r.partList.declared + 1 + countOfTrees (.part declaration :: ts), ?_⟩
      simp [Reading.rooted, Reading.grown, Reading.sheltered, rootsOfTrees]

end

/-! ## Groups with their parts -/

section

variable {part : Element → Part}

/-- Of some parts those are there that the declarations stand for. -/
def Stocked (part : Element → Part) (parts : List Part) (declarations : List Element) : Prop :=
  ∀ e ∈ declarations, parts.find? (fun p => p.id = e.declaredId) = some (part e)

/-- What is left of some parts once the declared ones are placed: all others are still there. -/
def Spares (declarations : List Element) (parts left : List Part) : Prop :=
  ∀ id, id ∉ declarations.map Element.declaredId →
    left.find? (fun p => p.id = id) = parts.find? (fun p => p.id = id)

/-- Later declarations still have their parts. -/
theorem Stocked.spared {parts left : List Part} {first others : List Element}
    (h : Stocked part parts (first ++ others))
    (hids : ((first ++ others).map Element.declaredId).Nodup) (hleft : Spares first parts left) :
    Stocked part left others := by
  rw [List.map_append] at hids
  intro e he
  have hlater : e.declaredId ∉ first.map Element.declaredId := fun hfirst =>
    (List.nodup_append.mp hids).2.2 _ hfirst _ (List.mem_map_of_mem he) rfl
  rw [hleft _ hlater]
  exact h e (List.mem_append_right _ he)

/-- Parts that are spared by some elements and then by others are spared by them all. -/
theorem Spares.trans {parts left left' : List Part} {first others : List Element}
    (h : Spares first parts left) (h' : Spares others left left') :
    Spares (first ++ others) parts left' := by
  intro id hid
  rw [List.map_append, List.mem_append, not_or] at hid
  rw [h' id hid.2, h id hid.1]

mutual

/-- A tree is assembled to what is written down. -/
theorem PartTree.assembles {parts : List Part} (line n : Nat) (t : PartTree)
    (hids : (t.declarations.map Element.declaredId).Nodup)
    (hparts : Stocked part parts t.declarations) :
    ∃ left, (t.draft n).assemble line parts = .ok (t.member part, left) ∧
      Spares t.declarations parts left := by
  match t with
  | .part declaration =>
    have hpart := hparts declaration (List.mem_singleton_self _)
    refine ⟨parts.filter fun p => p.id ≠ declaration.declaredId, ?_, fun id hid => ?_⟩
    · rw [PartTree.draft, DraftMember.assemble, hpart, PartTree.member]
    · have hne : id ≠ declaration.declaredId := fun h => hid (List.mem_singleton.mpr h)
      rw [List.find?_filter]
      congr 1
      funext p
      by_cases hp : p.id = id <;> simp [hp, hne]
  | .group start inside stop =>
    obtain ⟨left, hinside, hleft⟩ :=
      assembles_trees start.heading.line (n + 1) inside hids hparts
    refine ⟨left, ?_, hleft⟩
    rw [draft_group, DraftMember.assemble, groupDraft, GroupDraft.assemble, hinside]
    rfl

/-- Trees are assembled one after the other. -/
theorem assembles_trees {parts : List Part} (line n : Nat) (ts : List PartTree)
    (hids : ((declarationsOfTrees ts).map Element.declaredId).Nodup)
    (hparts : Stocked part parts (declarationsOfTrees ts)) :
    ∃ left, assembleMembers line parts (draftsOfTrees n ts) =
        .ok (membersOfTrees part ts, left) ∧ Spares (declarationsOfTrees ts) parts left := by
  match ts with
  | [] => exact ⟨parts, rfl, fun _ _ => rfl⟩
  | t :: ts =>
    rw [declarationsOfTrees] at hids hparts ⊢
    have hboth := hids
    rw [List.map_append] at hboth
    obtain ⟨hfirst, hothers, _⟩ := List.nodup_append.mp hboth
    obtain ⟨left, hmember, hleft⟩ := PartTree.assembles line n t hfirst
      fun e he => hparts e (List.mem_append_left _ he)
    obtain ⟨left', hmembers, hleft'⟩ := assembles_trees line (n + t.count) ts hothers
      (hparts.spared hids hleft)
    refine ⟨left', ?_, hleft.trans hleft'⟩
    rw [draftsOfTrees, assembleMembers, hmember]
    dsimp only [bind, Except.bind]
    rw [hmembers]
    rfl

end

/-- **The groups of a part list** are those that are written down. -/
theorem assembles_roots {parts : List Part} (n : Nat) (ts : List PartTree)
    (hids : ((declarationsOfTrees ts).map Element.declaredId).Nodup)
    (hparts : Stocked part parts (declarationsOfTrees ts)) :
    assembleGroups parts (rootsOfTrees n ts) = .ok (groupsOfTrees part ts) := by
  induction ts generalizing n parts with
  | nil => rfl
  | cons t ts ih =>
    cases t with
    | group start inside stop =>
      rw [declarationsOfTrees] at hids hparts
      have hboth := hids
      rw [List.map_append] at hboth
      obtain ⟨hfirst, hothers, _⟩ := List.nodup_append.mp hboth
      obtain ⟨left, hinside, hleft⟩ := assembles_trees start.heading.line (n + 1) inside hfirst
        fun e he => hparts e (List.mem_append_left _ he)
      rw [rootsOfTrees, assembleGroups, groupDraft, GroupDraft.assemble, hinside]
      dsimp only [bind, Except.bind]
      rw [ih _ hothers (hparts.spared hids hleft)]
      rfl
    | part declaration =>
      obtain ⟨left, hmembers, _⟩ :=
        assembles_trees declaration.line (n + 1) (.part declaration :: ts) hids hparts
      have hline : (PartGroup.implicit declaration.line).line = declaration.line := rfl
      rw [rootsOfTrees, assembleGroups, GroupDraft.assemble, hline, hmembers]
      rfl

end

end Partwise
