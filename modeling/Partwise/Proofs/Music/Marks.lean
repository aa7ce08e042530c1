import Mathlib.Algebra.BigOperators.Group.List.Basic
import Mathlib.Algebra.Group.Prod
import Mathlib.Algebra.Order.Group.Multiset
import Mathlib.Tactic.Abel
import Partwise.Proofs.Music.Grouping
import Partwise.Proofs.Music.Tuplets

/-!
# Music · Marks: no mark of a direction is lost

Marks of directions wait in one queue for all voices, until a note takes them along or the end of a
measure drops them. They are counted here, kind by kind (`Attachments.tally`): what waits before a
moment and what it brings is what its notes take, what it drops and what waits after it
(`Handles.tally_eq`). At the end nothing waits, so all marks of a document are on the leaves of its
score or were reported as dropped (`Document.marks_conserved`).
-/

namespace Partwise

open Markup

variable {settings : Settings} {r s t : Reading} {m : Moment} {ms : List Moment} {id : String}
  {key : VoiceKey}

/-! ## Tallies -/

/-- Marks counted without regard to their order, by their kinds. -/
abbrev Tally :=
  Multiset Dynamics × Multiset Wedge × Multiset Words × Multiset PedalKind

/-- The marks of a gathering, counted. -/
def Attachments.tally (a : Attachments) : Tally := (a.dynamics, a.wedges, a.words, a.pedals)

/-- No marks are tallied as none. -/
@[simp] theorem Attachments.tally_empty : (∅ : Attachments).tally = 0 := rfl

/-- Marks that come together are tallied together. -/
@[simp] theorem Attachments.tally_append (a b : Attachments) :
    (a ++ b).tally = a.tally + b.tally :=
  rfl

/-- Marks that are gathered are tallied one by one. -/
theorem Attachments.tally_gather (marks : List Attachments) :
    (gather marks).tally = (marks.map tally).sum := by
  induction marks with
  | nil => rfl
  | cons a marks ih => exact (a.tally_append _).trans (congrArg (a.tally + ·) ih)

/-- The marks of some gatherings, counted together. -/
def tallyOf {α : Type} (marks : α → Attachments) (xs : List α) : Tally :=
  (xs.map fun x => (marks x).tally).sum

section

variable {α : Type} (marks : α → Attachments)

/-- The marks of some things and then of others are tallied together. -/
@[simp] theorem tallyOf_append (xs ys : List α) :
    tallyOf marks (xs ++ ys) = tallyOf marks xs + tallyOf marks ys := by
  rw [tallyOf, List.map_append, List.sum_append]
  rfl

/-- The marks of a list are those of its head and of its tail. -/
@[simp] theorem tallyOf_cons (x : α) (xs : List α) :
    tallyOf marks (x :: xs) = (marks x).tally + tallyOf marks xs := by
  rw [tallyOf, List.map_cons, List.sum_cons]
  rfl

/-- What counts the same piece by piece counts the same. -/
theorem tallyOf_flatMap_congr {β γ : Type} {marks' : γ → Attachments} {f : β → List α}
    {g : β → List γ} {ys : List β} (h : ∀ y ∈ ys, tallyOf marks (f y) = tallyOf marks' (g y)) :
    tallyOf marks (ys.flatMap f) = tallyOf marks' (ys.flatMap g) := by
  induction ys with
  | nil => rfl
  | cons y ys ih =>
    rw [List.flatMap_cons, List.flatMap_cons, tallyOf_append, tallyOf_append,
      h y List.mem_cons_self, ih fun z hz => h z (List.mem_cons_of_mem y hz)]

/-- Where nothing has marks, there is nothing to count. -/
theorem tallyOf_eq_zero {xs : List α} (h : ∀ x ∈ xs, marks x = ∅) : tallyOf marks xs = 0 := by
  induction xs with
  | nil => rfl
  | cons x xs ih =>
    rw [tallyOf_cons, h x List.mem_cons_self, ih fun y hy => h y (List.mem_cons_of_mem x hy)]
    rfl

/-- The tally of the marks does not depend on their order. -/
theorem tallyOf_perm {xs ys : List α} (h : xs.Perm ys) : tallyOf marks xs = tallyOf marks ys :=
  (h.map _).sum_eq

end

/-! ## What moments do to the marks -/

/-- What a note brings are the marks that it takes. -/
theorem Moment.tally_delivered {input : NoteInput} (hid : m.before.partId? = some id)
    (hdeed : m.move.deed settings m.before = .note input) :
    tallyOf (fun d => d.2.attachments) (m.delivered settings) =
      (input.marks settings m.before).tally := by
  have hbare := (Move.proper_of_deed hdeed).bare
  have hnote : (Delivery.attachments ⟨input.note, input.marks settings m.before, input.inChord⟩) =
      input.marks settings m.before := by
    rw [Delivery.attachments, hbare]
    exact Attachments.empty_append _
  have hrests : tallyOf Delivery.attachments (if input.inChord then [] else
      (m.before.restsBefore input.key input.note.line).map .rest) = 0 := by
    split
    · rfl
    · exact tallyOf_eq_zero _ fun d hd => (Reading.rest_of_mem hd).2
  have hall : tallyOf (fun d => d.2.attachments) (m.delivered settings) =
      tallyOf Delivery.attachments ((Deed.note input).delivers settings m.before) := by
    rw [delivered, hid, hdeed]
    simp [tallyOf, Deed.voice?, Function.comp_def]
  rw [hall, Deed.delivers, tallyOf_append, hrests, zero_add, tallyOf_cons, hnote]
  exact add_zero _

/-- What is no note brings no marks. -/
theorem Moment.tally_delivered_of_not_note
    (hdeed : ∀ input, m.move.deed settings m.before ≠ .note input) :
    tallyOf (fun d => d.2.attachments) (m.delivered settings) = 0 :=
  tallyOf_eq_zero _ fun d hd => (m.rest_of_not_note hdeed d hd).2

/-- What a moment does to the marks that wait. -/
inductive Handles (settings : Settings) (m : Moment) : Prop
  /-- A note of a part takes them all or leaves them. -/
  | takes {input : NoteInput} {id : String} (inside : m.before.partId? = some id)
      (same : m.after.partId? = m.before.partId?)
      (deed : m.move.deed settings m.before = .note input) (queued : m.move.queued = ∅)
      (drop : m.move.drop? m.before = none)
      (pending : m.after.passage.pending =
        if input.takes settings then ∅ else m.before.passage.pending)
  /-- They go on waiting, before those that come now. -/
  | waits (same : m.after.partId? = m.before.partId?)
      (deed : ∀ input, m.move.deed settings m.before ≠ .note input)
      (drop : m.move.drop? m.before = none)
      (pending : m.after.passage.pending = m.before.passage.pending ++ m.move.queued)
  /-- They are dropped at a boundary. -/
  | drops {line : Nat} (deed : ∀ input, m.move.deed settings m.before ≠ .note input)
      (queued : m.move.queued = ∅) (drop : m.move.drop? m.before = m.before.waiting? line)
      (pending : m.after.passage.pending = ∅)
  /-- A part begins without any. -/
  | begins (enters : m.move.EntersPart)
      (deed : ∀ input, m.move.deed settings m.before ≠ .note input) (queued : m.move.queued = ∅)
      (drop : m.move.drop? m.before = none) (pending : m.after.passage.pending = ∅)

namespace Handles

/-- **Every moment** handles the marks in one of these ways. -/
theorem of_perform (hsound : m.before.Sound)
    (hstep : Ends (m.move.perform settings) m.before () m.after) : Handles settings m := by
  have hdoes := Does.perform hsound hstep
  have hpart := hdoes.partId
  obtain ⟨before, move, after⟩ := m
  cases move with
  | enterPart e =>
    have begins := PartBegins.enterPart hsound hstep
    exact .begins ⟨e, rfl⟩ (fun _ h => nomatch h) rfl rfl (by rw [begins.passage])
  | leavePart e =>
    obtain ⟨j, j', hrun⟩ := hstep
    exact .drops (fun _ h => nomatch h) rfl rfl (Runs.leavePart hrun).1
  | enterMeasure e =>
    refine .waits hpart (fun _ h => nomatch h) rfl ?_
    exact ((Discreet.habit id).habit.enterMeasure.ends hstep).trans
      (Attachments.append_empty _).symm
  | leaveMeasure e =>
    obtain ⟨j, j', hrun⟩ := hstep
    exact .drops (fun _ h => nomatch h) rfl rfl (Runs.leaveMeasure hrun).1
  | leavePartList line =>
    refine .waits hpart (fun _ h => nomatch h) rfl ?_
    exact ((Discreet.header id).closeGroups.ends hstep).trans
      (Attachments.append_empty _).symm
  | leaf e =>
    have hsame : after.partId? = before.partId? := hpart.trans (Deed.partAfter_ofLeaf ..)
    by_cases hnote : e.name = "note"
    · have hread : Ends (Partwise.readNote settings e) before () after := by
        have hstep : Ends (Partwise.readLeaf settings e) before () after := hstep
        simpa only [Partwise.readLeaf, hnote] using hstep
      obtain ⟨input, hinput, hdoes, _, hpending⟩ := Does.readNote hsound hread
      have hdeed : (Move.leaf e).deed settings before = .note input := by
        rw [← hinput]
        simp only [Move.deed, Deed.ofLeaf, hnote]
      obtain ⟨id, hid⟩ := hdoes.inPart
      exact .takes hid hsame hdeed (if_neg (by simp [hnote])) rfl hpending
    · refine .waits hsame (fun input hinput => ?_) rfl (Ends.pending_readLeaf hstep hnote)
      obtain ⟨_, heq, hname⟩ := Move.of_deed_note hinput
      cases heq
      exact hnote hname

/-- What waits before a moment, with what it brings, is what waits after it, what its notes take and
what it drops. -/
theorem tally_eq (h : Handles settings m)
    (hidle : m.move.EntersPart → m.before.passage.pending = ∅) :
    m.before.passage.pending.tally + m.move.queued.tally =
      m.after.passage.pending.tally +
        tallyOf (fun d => d.2.attachments) (m.delivered settings) +
        tallyOf Drop.marks (m.move.drop? m.before).toList := by
  cases h with
  | @takes input id inside _ deed queued drop pending =>
    rw [m.tally_delivered inside deed, queued, drop, pending, NoteInput.marks]
    cases input.takes settings <;> simp [tallyOf]
  | waits _ deed drop pending =>
    rw [m.tally_delivered_of_not_note deed, drop, pending]
    simp [tallyOf]
  | drops deed queued drop pending =>
    rw [m.tally_delivered_of_not_note deed, queued, drop, pending, Reading.waiting?]
    by_cases hnone : m.before.passage.pending = ∅
    · simp [hnone, tallyOf]
    · simp [hnone, tallyOf]
  | begins enters deed queued drop pending =>
    rw [m.tally_delivered_of_not_note deed, queued, drop, pending, hidle enters]
    simp [tallyOf]

/-- Nothing waits outside of parts, if directions stand inside of them. -/
theorem idle (h : Handles settings m)
    (hbefore : m.before.partId? = none → m.before.passage.pending = ∅)
    (hinside : m.before.partId? = none → m.move.queued = ∅) :
    m.after.partId? = none → m.after.passage.pending = ∅ := by
  intro hafter
  cases h with
  | takes inside same =>
    rw [same, inside] at hafter
    exact nomatch hafter
  | waits same _ _ pending =>
    rw [same] at hafter
    rw [pending, hbefore hafter, hinside hafter]
    rfl
  | drops _ _ _ pending => exact pending
  | begins _ _ _ _ pending => exact pending

end Handles

/-! ## Documents with all directions inside of parts -/

/-- Directions stand inside of parts. -/
def directed : Bool → List Move → Bool
  | _, [] => true
  | _, .enterPart _ :: ms => directed true ms
  | _, .leavePart _ :: ms => directed false ms
  | inside, .leaf e :: ms => (inside || e.name != "direction") && directed inside ms
  | inside, .enterMeasure _ :: ms => directed inside ms
  | inside, .leaveMeasure _ :: ms => directed inside ms
  | inside, .leavePartList _ :: ms => directed inside ms

/-- Outside of all parts a directed document brings no marks, and it stays directed. -/
theorem Does.directed {move : Move} {moves : List Move} (h : Does r s (move.deed settings r))
    (hdirected : directed r.partId?.isSome (move :: moves) = true) :
    (r.partId? = none → move.queued = ∅) ∧ Partwise.directed s.partId?.isSome moves = true := by
  rw [h.partId]
  cases move with
  | enterPart | leavePart | enterMeasure | leaveMeasure | leavePartList =>
    exact ⟨fun _ => rfl, hdirected⟩
  | leaf e =>
    simp only [Partwise.directed, Bool.and_eq_true, Bool.or_eq_true, bne_iff_ne] at hdirected
    obtain ⟨hplace, hdirected⟩ := hdirected
    refine ⟨fun hnone => if_neg ?_, ?_⟩
    · simpa [hnone] using hplace
    · rw [Move.deed, Deed.partAfter_ofLeaf]
      exact hdirected

/-- **The balance of a reading**: what waited at first and what came is what waits at last, what was
brought to voices and what was dropped. Outside of parts nothing waits. -/
theorem Follows.tally_eq (hfollows : Follows settings r ms t) (hunfolds : Unfolds settings r ms t)
    (hdirected : directed r.partId?.isSome (ms.map Moment.move) = true)
    (hidle : r.partId? = none → r.passage.pending = ∅) :
    (t.partId? = none → t.passage.pending = ∅) ∧
      r.passage.pending.tally + tallyOf Move.queued (ms.map Moment.move) =
        t.passage.pending.tally + tallyOf (fun d => d.2.attachments) (deliveries settings ms) +
          tallyOf Drop.marks (dropsOf ms) := by
  induction hfollows with
  | nil r => exact ⟨hidle, by simp [tallyOf, deliveries, dropsOf]⟩
  | @cons m ms t hstep _ ih =>
    obtain ⟨hsound, hdoes, halone, hrest⟩ := hunfolds.of_cons
    have hhandles := Handles.of_perform hsound hstep
    obtain ⟨hinside, hlater⟩ := hdoes.directed hdirected
    obtain ⟨hend, hbalance⟩ := ih hrest hlater (hhandles.idle hidle hinside)
    have hnow := hhandles.tally_eq fun henters => by
      obtain ⟨e, he⟩ := henters
      exact hidle (halone _ (by rw [he]; rfl))
    have hdrops : dropsOf (m :: ms) = (m.move.drop? m.before).toList ++ dropsOf ms := by
      unfold dropsOf
      rw [List.filterMap_cons]
      cases m.move.drop? m.before <;> rfl
    have hdelivered : deliveries settings (m :: ms) =
        m.delivered settings ++ deliveries settings ms :=
      List.flatMap_cons
    refine ⟨hend, ?_⟩
    rw [List.map_cons, tallyOf_cons, ← add_assoc, hnow, hdrops, hdelivered, tallyOf_append,
      tallyOf_append]
    generalize tallyOf _ (m.delivered settings) = brought
    generalize tallyOf _ (m.move.drop? m.before).toList = dropped
    calc m.after.passage.pending.tally + brought + dropped +
          tallyOf Move.queued (ms.map Moment.move)
      _ = m.after.passage.pending.tally + tallyOf Move.queued (ms.map Moment.move) +
          brought + dropped := by abel
      _ = _ := by
        rw [hbalance]
        abel

/-- The move is the end of a measure or of a part. -/
def Move.settles : Move → Bool
  | leaveMeasure _ => true
  | leavePart _ => true
  | _ => false

/-- **No mark waits any longer** where a measure or a part has ended. -/
theorem Follows.pending_settled (hfollows : Follows settings r ms t) :
    ∀ m ∈ ms, m.move.settles = true → m.after.passage.pending = ∅ := by
  induction hfollows with
  | nil => exact fun _ hm => nomatch hm
  | @cons m _ _ hstep _ ih =>
    refine List.forall_mem_cons.mpr ⟨fun hsettles => ?_, ih⟩
    obtain ⟨before, move, after⟩ := m
    obtain ⟨j, j', hrun⟩ := hstep
    cases move with
    | leaveMeasure e => exact (Runs.leaveMeasure hrun).1
    | leavePart e => exact (Runs.leavePart hrun).1
    | enterPart | enterMeasure | leavePartList | leaf => exact nomatch hsettles

/-! ## Leaves of scores -/

/-- The single notes and chords of a score. -/
def Score.leaves (score : Score) : List Leaf :=
  score.parts.flatMap fun part => part.voices.flatMap Voice.leaves

/-- The leaves carry the marks that were delivered. -/
theorem Grouped.tally_eq {ds : List Delivery} {ls : List Leaf} (h : Grouped ds ls) :
    tallyOf Leaf.attachments ls = tallyOf Delivery.attachments ds := by
  obtain ⟨groups, rfl, hall⟩ := h
  induction hall with
  | nil => rfl
  | cons hstands _ ih =>
    rw [tallyOf_cons, List.flatten_cons, tallyOf_append, ih, hstands.attachments_eq,
      Attachments.tally_gather, List.map_map]
    rfl

/-- The marks stand with the leaf: its first note has some of them as well, and no other note has
any. -/
def Leaf.Marked (l : Leaf) : Prop :=
  ∃ first later rest, l.notes = first :: later ∧ l.attachments = first.attachments ++ rest ∧
    ∀ n ∈ later, n.attachments = ∅

/-- A leaf that stands for a group has the marks of the group. -/
theorem Stands.marked {group : List Delivery} {l : Leaf} (h : Stands group l) : l.Marked := by
  cases h with
  | @alone d n => exact ⟨n, [], ∅, rfl, (Attachments.append_empty _).symm, fun _ hn => nomatch hn⟩
  | @together _ later _ _ _ _ gathers =>
    obtain ⟨n, hhead, hdressed⟩ := gathers.head
    refine ⟨n, _, .gather (later.map Delivery.attachments), (List.cons_head?_tail hhead).symm, ?_,
      fun m hm => (gathers.bare m hm).2⟩
    rw [hdressed.attachments]
    exact gathers.attachments

/-- All leaves that stand for groups have the marks of these. -/
theorem Grouped.marked {ds : List Delivery} {ls : List Leaf} (h : Grouped ds ls) :
    ∀ l ∈ ls, l.Marked := by
  obtain ⟨groups, rfl, hall⟩ := h
  induction hall with
  | nil => exact fun _ hl => nomatch hl
  | cons hstands _ ih => exact List.forall_mem_cons.mpr ⟨hstands.marked, ih⟩

/-- What was delivered to a voice is what was delivered there. -/
theorem tallyOf_deliveriesTo (ds : List PlacedDelivery) :
    tallyOf Delivery.attachments (deliveriesTo id key ds) =
      tallyOf (fun d => d.2.attachments) (ds.filter fun d => d.1 = (id, key)) := by
  rw [tallyOf, deliveriesTo, List.map_map]
  rfl

/-- **The leaves of a score** carry the marks that were brought to its voices, all of them. -/
theorem Reading.Complete.tally_leaves {score : Score} (h : t.Complete score)
    (hgrouped : ∀ id key, Grouped (broughtTo settings id key ms) (leavesOf (t.music id key))) :
    tallyOf Leaf.attachments score.leaves =
      tallyOf (fun d => d.2.attachments) (deliveries settings ms) := by
  have hthere : ∀ d ∈ deliveries settings ms, d.1 ∈ score.parts.flatMap fun part =>
      part.voices.map fun voice => (part.id, voice.key) := by
    rintro ⟨⟨id, key⟩, d⟩ hd
    have hbrought : d ∈ broughtTo settings id key ms :=
      List.mem_map.mpr ⟨_, List.mem_filter.mpr ⟨hd, decide_eq_true rfl⟩, rfl⟩
    have hmusic : t.music id key ≠ [] := by
      intro hsilent
      have hlength := (hgrouped id key).length_eq
      rw [hsilent] at hlength
      exact List.ne_nil_of_mem hbrought (List.eq_nil_of_length_eq_zero hlength.symm)
    obtain ⟨part, hpart, voice, hvoice, hplace⟩ := h.exists_voice hmusic
    exact List.mem_flatMap.mpr ⟨part, hpart, List.mem_map.mpr ⟨voice, hvoice, hplace⟩⟩
  rw [← tallyOf_perm _ (perm_flatMap_filter h.nodup_keys hthere), List.flatMap_assoc]
  refine tallyOf_flatMap_congr _ fun part hpart => ?_
  rw [List.flatMap_map]
  refine tallyOf_flatMap_congr _ fun voice hvoice => ?_
  rw [← tallyOf_deliveriesTo, ← h.leaves_eq hpart hvoice]
  exact (hgrouped part.id voice.key).tally_eq

/-- **No mark of a direction is lost.** Let all directions of a document that is read stand inside
of its parts. The marks that they bring are those that the leaves of its score carry and those that
were dropped, each as often, and the members of chords have no others. What was dropped is reported,
and no mark waits any longer where a measure or a part has ended. -/
theorem Document.marks_conserved {root : Element} {score : Score}
    (h : (Document.read settings root).score = .ok score)
    (hdirected : directed false (movesOf root) = true) :
    (trail settings root).map Moment.move = movesOf root ∧
      tallyOf Move.queued (movesOf root) =
        tallyOf Leaf.attachments score.leaves + tallyOf Drop.marks (dropsOf (trail settings root)) ∧
      (∀ l ∈ score.leaves, l.Marked) ∧
      (Document.read settings root).diagnostics.ofKind "attachments_dropped" =
        (dropsOf (trail settings root)).map Drop.diagnostic ∧
      ∀ m ∈ trail settings root, m.move.settles = true → m.after.passage.pending = ∅ := by
  obtain ⟨last, hfollows, hunfolds, hcomplete, hmoves⟩ := Document.follows_unfolds h
  have hgrouped := grouped hfollows hunfolds
  refine ⟨hmoves, ?_, ?_, ?_, hfollows.pending_settled⟩
  · obtain ⟨hidle, hbalance⟩ := hfollows.tally_eq hunfolds (by rwa [hmoves]) fun _ => rfl
    rw [hmoves, hidle hcomplete.partId] at hbalance
    rw [hcomplete.tally_leaves hgrouped]
    simpa using hbalance
  · intro l hl
    obtain ⟨part, hpart, hl⟩ := List.mem_flatMap.mp hl
    obtain ⟨voice, hvoice, hl⟩ := List.mem_flatMap.mp hl
    rw [← hcomplete.leaves_eq hpart hvoice] at hl
    exact (hgrouped part.id voice.key).marked l hl
  · rw [Outcome.diagnostics, Journal.ofKind_diagnostics, drops_journal h]

/-- A direction with one direction type. -/
def directionElement (mark : Element) : Element :=
  { name := "direction", children := [{ name := "direction-type", children := [mark] }] }

/-- A chord with marks before each of its notes, and a mark that no note comes after. -/
def marksAroundChord : Element :=
  singleMeasure [directionElement { name := "dynamics", children := [{ name := "f" }] },
    noteElement 1 "C" "1" "1" [], directionElement (textElement "words" "dolce"),
    noteElement 2 "E" "1" "1" [{ name := "chord" }],
    directionElement { name := "dynamics", children := [{ name := "p" }] }]

/-- The chord carries the marks of both notes, each of them once. The last mark is dropped. -/
theorem Document.marks_conserved_chord : ∃ score,
    (Document.read {} marksAroundChord).score = .ok score ∧
      directed false (movesOf marksAroundChord) = true ∧
      tallyOf Leaf.attachments score.leaves = ({.sign .f}, 0, {⟨"dolce", none⟩}, 0) ∧
      ((Document.read {} marksAroundChord).diagnostics.ofKind
        "attachments_dropped").length = 1 := by
  have hthere : hasScore marksAroundChord (fun _ => true) = true := by decide +kernel
  have hdirected : directed false (movesOf marksAroundChord) = true := by decide +kernel
  obtain ⟨score, hread, _⟩ := exists_score hthere
  obtain ⟨_, hbalance, _, hreported, _⟩ := Document.marks_conserved hread hdirected
  have hqueued : tallyOf Move.queued (movesOf marksAroundChord) =
      ({.sign .f}, 0, {⟨"dolce", none⟩}, 0) + ({.sign .p}, 0, 0, 0) := by
    decide +kernel
  have hdropped : dropsOf (trail {} marksAroundChord) =
      [⟨0, { dynamics := [.sign .p] }, "1"⟩] := by
    decide +kernel
  refine ⟨score, hread, hdirected, ?_, ?_⟩
  · rw [hqueued, hdropped] at hbalance
    exact (add_right_cancel hbalance).symm
  · rw [hreported, hdropped]
    rfl

end Partwise
