import Partwise.Proofs.Reading.Fitting

/-!
# Reading · Overtaking: groups that overlap

The parts of a score stand in the order of their first declarations if and only if no group is moved
into one that it does not fit into (`Document.parts_inOrder`). Whether groups fit shows only in what
they hold, so this module also has a condition that can be read off the open groups. A stop
*overtakes* if the group that it stops holds parts, and so does one of the open groups between this
group and the innermost (`PartList.Overtakes`). As long as no stop does, all parts stand in order at
every moment, whatever the groups, their numbers and their ordering keys are.

What carries this from move to move is how open groups stand to each other: an outer one with parts
is older than an inner one, and no inner one has taken in anything that is older than an outer one
with parts (`GroupDraft.Before`). A stop that overtakes may bring parts in front of others that were
declared before them (`Document.outOfOrder_overtaken`), or it may do no harm
(`Document.parts_inOrder_inRow`).
-/

namespace Partwise

open Markup

variable {r s : Reading}

/-! ## Open groups inside each other -/

/-- How an open group with parts stands to one further inside. -/
structure GroupDraft.Before (a b : GroupDraft) : Prop where
  /-- The outer group is older than the inner one -/
  older : a.roll ≠ [] → a.sequence < b.sequence
  /-- and than all that it holds with parts. -/
  oldest : a.roll ≠ [] → ∀ m ∈ b.members, m.roll ≠ [] → a.sequence < m.sequence

/-- The group holds no parts, or none of the open groups between it and the innermost does. -/
def GroupDraft.KeepsPace (draft : GroupDraft) (inner : List GroupDraft) : Prop :=
  draft.roll ≠ [] → ∀ d ∈ inner.dropLast, d.roll = []

/-- The innermost group takes a member in that is younger than the outer groups with parts. -/
theorem GroupDraft.Before.take {a b : GroupDraft} {m : DraftMember} (h : a.Before b)
    (hm : a.roll ≠ [] → m.roll ≠ [] → a.sequence < m.sequence) : a.Before (b.take m) where
  older := h.older
  oldest ha other hother hparts := by
    rcases List.mem_cons.mp ((insertMember_perm m b.members).mem_iff.mp hother) with rfl | hold
    · exact hm ha hparts
    · exact h.oldest ha other hold hparts

namespace PartList

variable {l l' : PartList} {log ds : List Declaration}

/-- All parts of a part list stand in the order of their declarations, and will do so however its
groups are closed from within. -/
structure InOrder (l : PartList) : Prop where
  parts : InSequence l.roll
  apart : l.openGroups.Pairwise GroupDraft.Before

/-- In a part list that is empty all parts are in order. -/
theorem InOrder.empty : InOrder {} := ⟨.nil, .nil⟩

/-- Parts that are in order stay so when a group is opened. -/
theorem InOrder.openGroup {group : PartGroup} (h : l.InOrder) (hlogged : l.Logged log) :
    (l.openGroup group).InOrder := by
  obtain ⟨outer, inner, hold, hnew, _⟩ := l.openGroup_eq group
  have hparts := h.parts
  have hapart := h.apart
  have hupTo := fun d => hlogged.upTo (d := d)
  rw [roll, hold] at hparts
  rw [hold] at hapart hupTo
  obtain ⟨houter, hinner, hacross⟩ := List.pairwise_append.mp hapart
  refine ⟨?_, ?_⟩
  · have hroots : (l.openGroup group).rootGroups = l.rootGroups := rfl
    have hempty : GroupDraft.roll ⟨group, [], l.declared + 1⟩ = [] := rfl
    rw [roll, hnew, hroots]
    simpa [hempty] using hparts
  · rw [hnew]
    refine List.pairwise_append.mpr ⟨houter, List.pairwise_cons.mpr ⟨fun i _ => ?_, hinner⟩, ?_⟩
    · exact ⟨fun hsome => absurd rfl hsome, fun hsome => absurd rfl hsome⟩
    · intro o ho i hi
      rcases List.mem_cons.mp hi with rfl | hi
      · exact ⟨fun _ => Nat.lt_succ_of_le (hupTo o (List.mem_append_left _ ho)).1,
          fun _ _ hm => absurd hm List.not_mem_nil⟩
      · exact hacross o ho i hi

/-- The innermost group takes a member in that is younger than the outer groups with parts. -/
theorem apart_take {outer : List GroupDraft} {innermost : GroupDraft} {m : DraftMember}
    (h : (outer ++ [innermost]).Pairwise GroupDraft.Before)
    (hm : ∀ o ∈ outer, o.roll ≠ [] → m.roll ≠ [] → o.sequence < m.sequence) :
    (outer ++ [innermost.take m]).Pairwise GroupDraft.Before := by
  obtain ⟨houter, _, hacross⟩ := List.pairwise_append.mp h
  refine List.pairwise_append.mpr ⟨houter, List.pairwise_singleton _ _, fun o ho i hi => ?_⟩
  rw [List.mem_singleton.mp hi]
  exact (hacross o ho innermost (List.mem_singleton_self _)).take (hm o ho)

/-- Parts that are in order stay so when one is declared. -/
theorem InOrder.declarePart {id : String} (h : l.InOrder) (hlogged : l.Logged log)
    (hopen : l.openGroups ≠ []) : (l.declarePart id).InOrder := by
  obtain ⟨outer, innermost, hsplit⟩ := (List.eq_nil_or_concat' l.openGroups).resolve_left hopen
  have hapart := h.apart
  have hupTo := fun d => hlogged.upTo (d := d)
  rw [hsplit] at hapart hupTo
  have hnew : (l.declarePart id).openGroups =
      outer ++ [innermost.take (.part id (l.declared + 1))] :=
    @insertInnermost_eq { l with declared := l.declared + 1 } _ _ _ hsplit
  refine ⟨?_, ?_⟩
  · have hyounger : ∀ m ∈ innermost.members, m.sequence < l.declared + 1 :=
      fun m hm => Nat.lt_succ_of_le ((hupTo innermost (by simp)).2 m hm)
    have hroll : (l.declarePart id).roll = l.roll ++ [(l.declared + 1, id)] := by
      have htaken := roll_insertInnermost (l := { l with declared := l.declared + 1 })
        (.part id (l.declared + 1)) hsplit
      rw [GroupDraft.roll_take_last (m := .part id (l.declared + 1)) hyounger] at htaken
      rw [PartList.declarePart, htaken, roll, hsplit]
      simp [DraftMember.roll]
    rw [hroll, inSequence_append]
    refine ⟨h.parts, List.pairwise_singleton _ _, fun p hp q hq => ?_⟩
    rw [List.mem_singleton.mp hq]
    exact Nat.lt_succ_of_le (hlogged.le_declared hp)
  · rw [hnew]
    exact apart_take hapart fun o ho _ _ =>
      Nat.lt_succ_of_le (hupTo o (List.mem_append_left _ ho)).1

/-- A group that keeps pace comes into the innermost one before all parts of that group, and so all
parts stay where they are. -/
theorem roll_keepsPace {outer between : List GroupDraft} {draft innermost : GroupDraft}
    (hlogged : l.Logged log) (hopen : l.openGroups = outer ++ draft :: (between ++ [innermost]))
    (hpace : draft.KeepsPace (between ++ [innermost])) (hbefore : draft.Before innermost) :
    ((l.without outer (between ++ [innermost])).insertInnermost (.group draft)).roll = l.roll := by
  have hothers : (l.without outer (between ++ [innermost])).openGroups =
      (outer ++ between) ++ [innermost] := (List.append_assoc ..).symm
  have hroots : (l.without outer (between ++ [innermost])).rootGroups = l.rootGroups := rfl
  have hsorted := hlogged.sorted (d := innermost) (by simp [hopen])
  rw [roll_insertInnermost _ hothers, hroots, roll, hopen]
  by_cases hparts : draft.roll = []
  · simp [GroupDraft.roll_take_empty (m := .group draft) hsorted hparts, hparts]
  · -- the groups between hold nothing, and in the innermost one all parts are younger
    have hbetween : between.flatMap GroupDraft.roll = [] := by
      rw [GroupDraft.KeepsPace, List.dropLast_concat] at hpace
      exact List.flatMap_eq_nil_iff.mpr (hpace hparts)
    have htake := GroupDraft.roll_take_first (m := .group draft) hsorted (hbefore.oldest hparts)
    simp [htake, hbetween]

/-- A group that keeps pace is moved to where it belongs, and parts stay in order. -/
theorem InOrder.moved {outer inner : List GroupDraft} {draft : GroupDraft} (h : l.InOrder)
    (hlogged : l.Logged log) (hnested : l.Nested) (hopen : l.openGroups = outer ++ draft :: inner)
    (hpace : draft.KeepsPace inner) : ((l.without outer inner).place draft).InOrder := by
  have hapart := h.apart
  rw [hopen] at hapart
  obtain ⟨_, hrest, hacross⟩ := List.pairwise_append.mp hapart
  have hothers : (outer ++ inner).Pairwise GroupDraft.Before :=
    hapart.sublist (List.Sublist.append_left (List.sublist_cons_self _ _) outer)
  have holder : ∀ o ∈ outer, o.roll ≠ [] → o.sequence < draft.sequence := fun o ho =>
    (hacross o ho draft List.mem_cons_self).older
  rcases List.eq_nil_or_concat' inner with rfl | ⟨between, innermost, rfl⟩
  · -- the innermost group is closed into the one around it
    refine ⟨roll_close hnested hopen ▸ h.parts, ?_⟩
    rw [List.append_nil] at hothers
    have hopened : (l.without outer []).openGroups = outer := List.append_nil _
    rcases List.eq_nil_or_concat' outer with rfl | ⟨around, parent, rfl⟩
    · rw [place_outermost hopened, hopened]
      exact .nil
    · rw [place_innermost (by simp [hopened]), insertInnermost_eq _ hopened]
      exact apart_take hothers fun o ho hparts _ => holder o (List.mem_append_left _ ho) hparts
  · have hopened : (l.without outer (between ++ [innermost])).openGroups =
        (outer ++ between) ++ [innermost] := (List.append_assoc ..).symm
    have hbefore := (List.pairwise_cons.mp hrest).1 innermost (by simp)
    rw [place_innermost (by simp [hopened])]
    refine ⟨roll_keepsPace hlogged hopen hpace hbefore ▸ h.parts, ?_⟩
    rw [insertInnermost_eq _ hopened]
    rw [← List.append_assoc] at hothers
    refine apart_take hothers fun o ho hsome hparts => ?_
    rcases List.mem_append.mp ho with ho | ho
    · exact holder o ho hsome
    · exact absurd (hpace hparts o (by rwa [List.dropLast_concat])) hsome

/-- **Every change** keeps the order, as long as groups keep pace. -/
theorem InOrder.change (h : l.InOrder) (hlogged : l.Logged log) (hnested : l.Nested)
    (hchange : Changes GroupDraft.KeepsPace l ds l') : l'.InOrder := by
  cases hchange with
  | opened group _ _ => exact h.openGroup hlogged
  | declared id hopen => exact h.declarePart hlogged hopen
  | moved outer inner draft hopen _ hpace => exact h.moved hlogged hnested hopen hpace

/-- Changes one after the other keep the order. -/
theorem InOrder.evolve (h : l.InOrder) (hlogged : l.Logged log) (hnested : l.Nested)
    (hevolves : Evolves GroupDraft.KeepsPace l ds l') : l'.InOrder :=
  (hevolves.keeps (P := fun log l => l.InOrder ∧ l.Logged log ∧ l.Nested) ⟨h, hlogged, hnested⟩
    fun h hchange => ⟨h.1.change h.2.1 h.2.2 hchange, h.2.1.change hchange,
      h.2.2.change h.2.1 hchange⟩).1

end PartList

/-! ## Documents -/

/-- An element stops a group with parts while one of the groups that are open between this group and
the innermost has parts, too. -/
def PartList.Overtakes (l : PartList) (e : Element) : Prop :=
  ∃ outer draft inner, l.Stops e outer draft inner ∧ draft.roll ≠ [] ∧
    ∃ d ∈ inner.dropLast, d.roll ≠ []

/-- At no moment does an element overtake. -/
def NeverOvertakes (ms : List Moment) : Prop :=
  ∀ m ∈ ms, ∀ e, m.move = .leaf e → ¬ m.before.partList.Overtakes e

/-- Between two groups there is no third one, so nothing overtakes where at most two are open. -/
theorem NeverOvertakes.of_depth {ms : List Moment}
    (h : ∀ m ∈ ms, m.before.partList.openGroups.length ≤ 2) : NeverOvertakes ms := by
  rintro m hm e _ ⟨outer, draft, inner, hstops, _, d, hd, _⟩
  have hdepth := h m hm
  rw [hstops.split, List.length_append, List.length_cons] at hdepth
  have hnone : inner.dropLast = [] := by
    rw [← List.length_eq_zero_iff, List.length_dropLast]
    omega
  rw [hnone] at hd
  exact nomatch hd

/-- Where nothing overtakes, groups keep pace. -/
theorem Move.meets_keepsPace {m : Move} {l : PartList}
    (h : ∀ e, m = .leaf e → ¬ l.Overtakes e) : m.Meets GroupDraft.KeepsPace l := by
  intro e outer draft inner hmove hstops hparts d hd
  by_contra hsome
  exact h e hmove ⟨outer, draft, inner, hstops, hparts, d, hd, hsome⟩

/-- Where nothing overtakes, the parts of a reading stand in order. -/
theorem Follows.inOrder {settings : Settings} {ms : List Moment} {done : List Move}
    {log : List Declaration} (h : Follows settings r ms s) (hnever : NeverOvertakes ms)
    (hr : r.Listing done log) (horder : r.partList.InOrder) : s.partList.InOrder := by
  induction h generalizing done log with
  | nil r => exact horder
  | @cons m ms t hstep _ ih =>
    obtain ⟨ds, henlists, _⟩ := Reading.Enlists.perform
      (Move.meets_keepsPace (hnever m List.mem_cons_self)) (fun _ _ _ _ => nofun) hstep
    obtain ⟨log', hlisting⟩ := hr.move hstep
    exact ih (fun m' hm' => hnever m' (List.mem_cons_of_mem _ hm')) hlisting
      (horder.evolve hr.enlisted.logged hr.nested henlists.evolves)

namespace Document

/-- **The parts of a score stand in the order of their first declarations** if and only if every
group that is stopped fits into the group that takes it in, and whenever all open groups are closed,
each of them holds only parts that were declared before those of the groups inside it. In particular
they do so where no stop overtakes. -/
theorem parts_inOrder {settings : Settings} {root : Element} {score : Score}
    (h : (read settings root).score = .ok score) :
    (∃ last, Follows settings {} (trail settings root) last ∧
      (score.parts.map Part.id = (declarationsOf (movesOf root)).filterMap Declaration.part? ↔
        (∀ m ∈ trail settings root, m.move.KeepsOrder m.before.partList) ∧
          last.partList.Aligned)) ∧
      (NeverOvertakes (trail settings root) →
        score.parts.map Part.id = (declarationsOf (movesOf root)).filterMap Declaration.part?) := by
  obtain ⟨last, final, hfollows, hmoves, hcomplete⟩ := follows_trail h
  obtain ⟨⟨log, hlisting⟩, hstraight⟩ := hfollows.straight_iff .empty
  rw [List.nil_append, hmoves] at hlisting
  have hscore := hlisting.inOrder_iff hcomplete
  have hstart : PartList.Straight {} := ⟨.nil, nofun⟩
  refine ⟨⟨last, hfollows, ?_⟩, fun hnever => ?_⟩
  · rw [hscore, hstraight]
    simp [hstart]
  · have horder := hfollows.inOrder hnever .empty .empty
    exact hscore.mpr (PartList.inSequence_roll.mp horder.parts)

/-! ### Groups that overlap -/

/-- Three groups overlap, and the third takes in first the first and then the second. -/
def inRow : Element :=
  onlyPartList [groupElement "start" "1" [], partElement "A", groupElement "start" "2" [],
    partElement "B", groupElement "start" "3" [], groupElement "stop" "1" [],
    groupElement "stop" "2" [], groupElement "stop" "3" []]

/-- The first group is stopped while the second one is open; both have parts. -/
def overlapped : Element :=
  onlyPartList [groupElement "start" "1" [], partElement "A", groupElement "start" "2" [],
    partElement "B", groupElement "stop" "1" [], partElement "C", groupElement "stop" "2" []]

/-- Of three groups that overlap each fits where it is moved to, though the first stop overtakes; of
two groups that overlap none does. -/
theorem parts_inOrder_inRow :
    (∃ score last, (read {} inRow).score = .ok score ∧ score.parts.map Part.id = ["A", "B"] ∧
      Follows {} {} (trail {} inRow) last ∧
        (∀ m ∈ trail {} inRow, m.move.KeepsOrder m.before.partList) ∧ last.partList.Aligned) ∧
      ∃ score, (read {} overlapped).score = .ok score ∧ NeverOvertakes (trail {} overlapped) ∧
        score.parts.map Part.id = ["A", "B", "C"] := by
  refine ⟨?_, ?_⟩
  · have hthere : hasScore inRow (fun score => score.parts.map Part.id = ["A", "B"]) = true := by
      decide +kernel
    obtain ⟨score, hread, hparts⟩ := exists_score hthere
    have hparts : score.parts.map Part.id = ["A", "B"] := of_decide_eq_true hparts
    have hdeclared : (declarationsOf (movesOf inRow)).filterMap Declaration.part? = ["A", "B"] := by
      decide +kernel
    obtain ⟨last, hfollows, hiff⟩ := (parts_inOrder hread).1
    exact ⟨score, last, hread, hparts, hfollows, hiff.mp (hparts.trans hdeclared.symm)⟩
  · have hthere : hasScore overlapped (fun _ => true) = true := by decide +kernel
    obtain ⟨score, hread, _⟩ := exists_score hthere
    have hnever : NeverOvertakes (trail {} overlapped) := .of_depth (by decide +kernel)
    refine ⟨score, hread, hnever, ?_⟩
    rw [(parts_inOrder hread).2 hnever]
    decide +kernel

/-- The first group is stopped while two others are open; the second has a part, and the third,
which takes the first in, is started after it. -/
def overtaken : Element :=
  onlyPartList [groupElement "start" "1" [], partElement "A", groupElement "start" "2" [],
    partElement "B", groupElement "start" "3" [], groupElement "stop" "1" [],
    groupElement "stop" "3" [], groupElement "stop" "2" []]

/-- **The part that is declared first** comes last. -/
theorem outOfOrder_overtaken : ∃ score, (read {} overtaken).score = .ok score ∧
    score.parts.map Part.id = ["B", "A"] ∧
      (declarationsOf (movesOf overtaken)).filterMap Declaration.part? = ["A", "B"] := by
  have hthere : hasScore overtaken (fun score => score.parts.map Part.id = ["B", "A"]) = true := by
    decide +kernel
  obtain ⟨score, hread, hparts⟩ := exists_score hthere
  exact ⟨score, hread, of_decide_eq_true hparts, by decide +kernel⟩

end Document

end Partwise
