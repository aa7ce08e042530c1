import Partwise.Proofs.Music.Grouping
import Partwise.Proofs.Music.Overlap
import Partwise.Proofs.Music.Tuplets

/-!
# Music · Companions: what a member of a chord sounds with

A note that is marked as the member of a chord joins what stands last in its own voice. Nobody asks
whether that is the note that stands before it in the document, so with voices that alternate the
member may join a note of another moment.

* `Grouped.inOneChord`: a member stands in one chord with what was brought to its voice before it.
* `Document.together_iff`: this is a note, the last one of its voice; the last note of the part it
  is only where that has the same voice.
-/

namespace Partwise

open Markup

variable {settings : Settings} {m m' : Moment} {ms : List Moment} {id : String} {key : VoiceKey}

/-! ## Places -/

/-- The notes at two places stand in one chord. -/
def InOneChord (ls : List Leaf) (i j : Nat) : Prop :=
  ∃ before c after, ls = before ++ .chord c :: after ∧
    let first := (before.flatMap Leaf.notes).length
    (first ≤ i ∧ i < first + c.notes.length) ∧ first ≤ j ∧ j < first + c.notes.length

/-- A note of a score: its part, its voice, and its place among the notes of the voice. -/
structure NotePlace where
  id : String
  key : VoiceKey
  index : Nat
deriving DecidableEq, Repr

/-- Two notes of a score stand in one chord. -/
def Score.Together (score : Score) (a b : NotePlace) : Prop :=
  a.id = b.id ∧ a.key = b.key ∧ ∃ part ∈ score.parts, part.id = b.id ∧
    ∃ voice ∈ part.voices, voice.key = b.key ∧ InOneChord voice.leaves a.index b.index

/-- The place of the note that some moments brought last to a voice. -/
def lastPlace (settings : Settings) (id : String) (key : VoiceKey) (ms : List Moment) : NotePlace :=
  ⟨id, key, (broughtTo settings id key ms).length - 1⟩

/-- A note element that is read in a part: its voice, and whether it is a member of a chord. -/
structure NoteRead where
  id : String
  key : VoiceKey
  member : Bool
deriving DecidableEq, Repr

/-- The note element that a moment reads. -/
def Moment.reads? (settings : Settings) (m : Moment) : Option NoteRead :=
  match m.before.partId?, m.move.deed settings m.before with
  | some id, .note input => some ⟨id, input.key, input.inChord⟩
  | _, _ => none

/-! ## What notes and other moments bring -/

/-- A note element brings its note last. A member of a chord brings nothing else. -/
theorem Moment.delivered_of_reads {member : Bool} (h : m.reads? settings = some ⟨id, key, member⟩) :
    ∃ rests d, deliveriesTo id key (m.delivered settings) = rests ++ [d] ∧ d.member = member ∧
      (member = true → rests = []) := by
  unfold reads? at h
  split at h
  · next id' input hid hdeed =>
    cases h
    rw [deliveriesTo_here hid (by rw [hdeed]; rfl), hdeed]
    exact ⟨_, _, rfl, rfl, fun hmember => if_pos hmember⟩
  · exact nomatch h

/-- Only note elements bring what is no rest. -/
theorem isRest_of_unread (h : ∀ m ∈ ms, ∀ member, m.reads? settings ≠ some ⟨id, key, member⟩) :
    ∀ d ∈ broughtTo settings id key ms, d.note.isRest = true := by
  intro d hd
  obtain ⟨⟨at', d'⟩, hfiltered, rfl⟩ := List.mem_map.mp hd
  obtain ⟨hplaced, hat⟩ := List.mem_filter.mp hfiltered
  obtain ⟨m, hm, hmem⟩ := List.mem_flatMap.mp hplaced
  obtain rfl : at' = (id, key) := of_decide_eq_true hat
  refine (m.rest_of_not_note (fun input hdeed => ?_) _ hmem).1
  obtain ⟨hid, hkey, _⟩ := Moment.of_mem_delivered hmem
  rw [hdeed] at hkey
  cases hkey
  refine h m hm input.inChord ?_
  rw [Moment.reads?, hid, hdeed]
  rfl

/-! ## Members and the notes before them -/

/-- **A member stands in one chord** with what was brought to its voice before it, and that is no
rest. -/
theorem Grouped.inOneChord {ds xs ys : List Delivery} {d' : Delivery} {ls : List Leaf}
    (h : Grouped ds ls) (hds : ds = xs ++ d' :: ys) (hmember : d'.member = true) :
    ∃ ws d, xs = ws ++ [d] ∧ d.note.isRest = false ∧ InOneChord ls ws.length (ws.length + 1) := by
  obtain ⟨groups, hflat, hall⟩ := h
  have hleads := exists_cons hall
  rcases List.flatten_eq_append_iff.mp (hflat.trans hds) with
    ⟨as, bs, rfl, _, hbs⟩ | ⟨as, bs, c, cs, rest, rfl, hxs, hys⟩
  · -- the member would lead a group
    obtain ⟨empties, g, gs, rfl, _, _⟩ := List.flatten_eq_cons_iff.mp hbs.symm
    obtain ⟨first, later, heq, hfirst, _⟩ := hleads (d' :: g) (by simp)
    cases heq
    exact absurd (hfirst.symm.trans hmember) (by simp)
  · obtain ⟨rfl, rfl⟩ := List.cons.inj hys
    obtain ⟨first, later, heq, hfirst, _⟩ := hleads (bs ++ d' :: cs) (by simp)
    rcases List.eq_nil_or_concat bs with rfl | ⟨ws, d, rfl⟩
    · cases heq
      exact absurd (hfirst.symm.trans hmember) (by simp)
    rw [List.concat_eq_append] at *
    have hbefore := (List.forall₂_take_append ls as _ hall.flip).flip
    obtain ⟨l, after, hstands, _, hrest⟩ :=
      List.forall₂_cons_right_iff.mp (List.forall₂_drop_append ls as _ hall.flip)
    have hls := List.take_append_drop as.length ls
    rw [hrest] at hls
    have hfirst : ((ls.take as.length).flatMap Leaf.notes).length = as.flatten.length :=
      Grouped.length_eq ⟨as, rfl, hbefore⟩
    generalize hgroup : ws ++ [d] ++ d' :: cs = group at hstands
    have hlong : group.length = ws.length + cs.length + 2 := by
      rw [← hgroup]
      simp
      omega
    have hmem : d ∈ group := by simp [← hgroup]
    cases hstands with
    | alone =>
      rw [List.length_singleton] at hlong
      omega
    | together _ _ _ gathers =>
      have hnotes := congrArg List.length gathers.notes
      rw [List.length_map, List.length_map, hlong] at hnotes
      refine ⟨as.flatten ++ ws, d, by rw [hxs, List.append_assoc], gathers.sounds d hmem,
        ls.take as.length, _, after, hls.symm, ?_⟩
      rw [List.length_append]
      dsimp only
      omega

/-! ## Members in documents -/

/-- If some things in a list have a property, one of them is the last that has it. -/
theorem exists_last {α : Type} {P : α → Prop} {xs : List α} (h : ∃ x ∈ xs, P x) :
    ∃ before x after, xs = before ++ x :: after ∧ P x ∧ ∀ y ∈ after, ¬ P y := by
  induction xs with
  | nil =>
    obtain ⟨_, hx, _⟩ := h
    exact nomatch hx
  | cons x xs ih =>
    by_cases hmore : ∃ y ∈ xs, P y
    · obtain ⟨before, y, after, rfl, hy, hnone⟩ := ih hmore
      exact ⟨x :: before, y, after, rfl, hy, hnone⟩
    · obtain ⟨y, hy, hholds⟩ := h
      rcases List.mem_cons.mp hy with rfl | hy
      · exact ⟨[], y, xs, rfl, hholds, fun z hz hP => hmore ⟨z, hz, hP⟩⟩
      · exact absurd ⟨y, hy, hholds⟩ hmore

/-- A member stands in one chord with the last note of its voice before it. -/
theorem Grouped.inOneChord_last {ls : List Leaf} {earlier between after : List Moment}
    (h : Grouped (broughtTo settings id key (earlier ++ m :: between ++ m' :: after)) ls)
    (hnone : ∀ x ∈ between, ∀ member, x.reads? settings ≠ some ⟨id, key, member⟩)
    (hm' : m'.reads? settings = some ⟨id, key, true⟩) :
    InOneChord ls (lastPlace settings id key (earlier ++ [m])).index
      (lastPlace settings id key (earlier ++ m :: between ++ [m'])).index := by
  obtain ⟨_, d', hd', hmember, hrests⟩ := Moment.delivered_of_reads hm'
  rw [hrests rfl, List.nil_append] at hd'
  rw [broughtTo_append, broughtTo_cons m', hd'] at h
  obtain ⟨ws, d, hws, hsounds, hchord⟩ := h.inOneChord rfl hmember
  have hthen : broughtTo settings id key (earlier ++ [m]) ++ broughtTo settings id key between =
      ws ++ [d] := by
    rw [← broughtTo_append, List.append_assoc]
    exact hws
  -- what comes between would be rests, which nothing joins
  have hsilent : broughtTo settings id key between = [] := by
    rcases List.eq_nil_or_concat (broughtTo settings id key between) with hnil | ⟨ds, last, hlast⟩
    · exact hnil
    · rw [hlast, List.concat_eq_append, ← List.append_assoc] at hthen
      obtain ⟨_, hsame⟩ := List.append_inj' hthen rfl
      cases hsame
      have hrest := isRest_of_unread hnone d (by simp [hlast])
      exact absurd (hrest.symm.trans hsounds) (by simp)
  rw [hsilent, List.append_nil] at hthen
  have hfirst : (lastPlace settings id key (earlier ++ [m])).index = ws.length := by
    rw [lastPlace, hthen, List.length_append]
    rfl
  have hsecond : (lastPlace settings id key (earlier ++ m :: between ++ [m'])).index =
      ws.length + 1 := by
    rw [lastPlace, broughtTo_append, hws, broughtTo_cons, hd']
    simp [broughtTo, deliveries, deliveriesTo]
  rwa [hfirst, hsecond]

/-- The place of a note that a moment reads is where the note stands. -/
theorem Document.note_at_lastPlace {root : Element} {score : Score}
    (h : (Document.read settings root).score = .ok score) {before after : List Moment}
    {input : NoteInput} (htrail : trail settings root = before ++ m :: after)
    (hid : m.before.partId? = some id) (hdeed : m.move.deed settings m.before = .note input)
    {part : Part} {voice : Voice} (hpart : part ∈ score.parts) (hvoice : voice ∈ part.voices)
    (hplace : (part.id, voice.key) = (id, input.key)) :
    voice.notes[(lastPlace settings id input.key (before ++ [m])).index]?.map Note.asRead =
      some input.note.asRead := by
  obtain ⟨last, hfollows, hunfolds, hcomplete, -⟩ := Document.follows_unfolds h
  have hgrouped := grouped hfollows hunfolds part.id voice.key
  rw [hcomplete.leaves_eq hpart hvoice] at hgrouped
  have hnotes := hgrouped.notes_eq
  obtain ⟨rfl, hkey⟩ := Prod.mk.inj hplace
  obtain ⟨ds, d, hbrought, hd⟩ : ∃ ds d,
      broughtTo settings part.id input.key (before ++ [m]) = ds ++ [d] ∧ d.note = input.note := by
    have hhere := Moment.deliveriesTo_here hid (by rw [hdeed]; rfl)
    rw [hdeed, Deed.delivers] at hhere
    rw [broughtTo_append, broughtTo_cons, hhere, ← List.append_assoc, ← List.append_assoc]
    exact ⟨_, _, List.append_nil _, rfl⟩
  have hindex : (lastPlace settings part.id input.key (before ++ [m])).index = ds.length := by
    rw [lastPlace, hbrought, List.length_append]
    rfl
  rw [hcomplete.notes_eq_leaves hpart hvoice, ← List.getElem?_map, hnotes, htrail, hkey, hindex,
    List.append_cons, broughtTo_append, hbrought]
  simp [hd]

/-- **What a member sounds with.** A member of a chord stands in one chord with the last note of its
own voice that was read before it. With the last note of its part it does so if and only if that is
of the same voice. -/
theorem Document.together_iff {root : Element} {score : Score}
    (h : (Document.read settings root).score = .ok score) {before after : List Moment}
    (htrail : trail settings root = before ++ m' :: after)
    (hm' : m'.reads? settings = some ⟨id, key, true⟩) :
    (∃ earlier m between member, before = earlier ++ m :: between ∧
      m.reads? settings = some ⟨id, key, member⟩ ∧
      (∀ x ∈ between, ∀ member, x.reads? settings ≠ some ⟨id, key, member⟩) ∧
      score.Together (lastPlace settings id key (earlier ++ [m]))
        (lastPlace settings id key (before ++ [m']))) ∧
    ∀ earlier m between (note : NoteRead), before = earlier ++ m :: between →
      m.reads? settings = some note → note.id = id →
      (∀ x ∈ between, (x.reads? settings).map NoteRead.id ≠ some id) →
      (score.Together (lastPlace settings id note.key (earlier ++ [m]))
        (lastPlace settings id key (before ++ [m'])) ↔ note.key = key) := by
  obtain ⟨last, hfollows, hunfolds, hcomplete, -⟩ := Document.follows_unfolds h
  have hgrouped := grouped hfollows hunfolds id key
  rw [htrail] at hgrouped
  have htogether : ∀ earlier m between member, before = earlier ++ m :: between →
      m.reads? settings = some ⟨id, key, member⟩ →
      (∀ x ∈ between, ∀ member, x.reads? settings ≠ some ⟨id, key, member⟩) →
      score.Together (lastPlace settings id key (earlier ++ [m]))
        (lastPlace settings id key (before ++ [m'])) := by
    rintro earlier m between member rfl hm hnone
    have hchord := hgrouped.inOneChord_last hnone hm'
    have hmusic : last.music id key ≠ [] := by
      intro hsilent
      obtain ⟨before, c, after, hleaves, _⟩ := hchord
      rw [hsilent] at hleaves
      simp [leavesOf] at hleaves
    obtain ⟨part, hpart, voice, hvoice, hplace⟩ := hcomplete.exists_voice hmusic
    cases hplace
    rw [hcomplete.leaves_eq hpart hvoice] at hchord
    exact ⟨rfl, rfl, part, hpart, rfl, voice, hvoice, rfl, hchord⟩
  constructor
  · obtain ⟨_, d', hd', hmember, hrests⟩ := Moment.delivered_of_reads hm'
    rw [hrests rfl, List.nil_append] at hd'
    rw [broughtTo_append, broughtTo_cons m', hd'] at hgrouped
    obtain ⟨ws, d, hws, hsounds, _⟩ := hgrouped.inOneChord rfl hmember
    obtain ⟨earlier, m, between, hbefore, ⟨member, hm⟩, hnone⟩ :
        ∃ earlier m between, before = earlier ++ m :: between ∧
          (∃ member, m.reads? settings = some ⟨id, key, member⟩) ∧
          ∀ x ∈ between, ¬ ∃ member, x.reads? settings = some ⟨id, key, member⟩ := by
      refine exists_last (Classical.byContradiction fun hall => ?_)
      have hrest : d.note.isRest = true :=
        isRest_of_unread (fun x hx member hreads => hall ⟨x, hx, member, hreads⟩) d (by simp [hws])
      exact absurd (hrest.symm.trans hsounds) (by simp)
    have hnone : ∀ x ∈ between, ∀ member, x.reads? settings ≠ some ⟨id, key, member⟩ :=
      fun x hx member hreads => hnone x hx ⟨member, hreads⟩
    exact ⟨earlier, m, between, member, hbefore, hm, hnone,
      htogether earlier m between member hbefore hm hnone⟩
  · rintro earlier m between ⟨_, key', member⟩ hbefore hm rfl hnone
    constructor
    · exact fun htogether => htogether.2.1
    · rintro rfl
      refine htogether earlier m between member hbefore hm fun x hx member hreads => ?_
      exact hnone x hx (by rw [hreads]; rfl)

/-- The last note is marked as the member of a chord, but the note before it is of another voice. -/
def memberOfOlderNote : Element :=
  singleMeasure [noteElement 1 "C" "1" "1" [], noteElement 2 "E" "2" "1" [],
    noteElement 3 "G" "1" "1" [{ name := "chord" }]]

/-- The marked note of `memberOfOlderNote` joins the note of its own voice, which sounds earlier
than the note before it. -/
theorem Document.apart_olderNote : ∃ score,
    (Document.read {} memberOfOlderNote).score = .ok score ∧
      (trail {} memberOfOlderNote).filterMap (Moment.reads? {}) =
        [⟨"P", ⟨1, 1⟩, false⟩, ⟨"P", ⟨1, 2⟩, false⟩, ⟨"P", ⟨1, 1⟩, true⟩] ∧
      score.parts.map (fun part => part.voices.map fun voice => (voice.key,
        voice.leaves.map fun leaf => leaf.notes.map fun n => (n.line, n.positionInMeasure))) =
          [[(⟨1, 1⟩, [[(1, 0), (3, 0)]]), (⟨1, 2⟩, [[(2, 0)], [(2, 1 / 4)]])]] ∧
      ¬ score.Together ⟨"P", ⟨1, 2⟩, 1⟩ ⟨"P", ⟨1, 1⟩, 1⟩ := by
  have hthere : hasScore memberOfOlderNote (fun score =>
      score.parts.map (fun part => part.voices.map fun voice => (voice.key,
        voice.leaves.map fun leaf => leaf.notes.map fun n => (n.line, n.positionInMeasure))) =
          [[(⟨1, 1⟩, [[(1, 0), (3, 0)]]), (⟨1, 2⟩, [[(2, 0)], [(2, 1 / 4)]])]]) = true := by
    decide +kernel
  obtain ⟨score, hread, hleaves⟩ := exists_score hthere
  refine ⟨score, hread, by decide +kernel, of_decide_eq_true hleaves, ?_⟩
  rintro ⟨_, hkey, _⟩
  exact nomatch hkey

/-- A list may be taken apart at one of its places. -/
theorem eq_take_get_drop {α : Type} (xs : List α) {i : Nat} (h : i < xs.length) :
    xs = xs.take i ++ xs.get ⟨i, h⟩ :: xs.drop (i + 1) := by
  have hall := List.take_append_drop i xs
  rw [List.drop_eq_getElem_cons h] at hall
  exact hall.symm

/-- The marked note of `memberOfOlderNote` stands in one chord with another note, but not with the
note before it. -/
theorem Document.together_iff_olderNote : ∃ score,
    (Document.read {} memberOfOlderNote).score = .ok score ∧
      (∃ place, score.Together place ⟨"P", ⟨1, 1⟩, 1⟩) ∧
      ¬ score.Together ⟨"P", ⟨1, 2⟩, 1⟩ ⟨"P", ⟨1, 1⟩, 1⟩ := by
  have hthere : hasScore memberOfOlderNote (fun _ => true) = true := by decide +kernel
  obtain ⟨score, hread, _⟩ := exists_score hthere
  have hmember : ((trail {} memberOfOlderNote).get ⟨6, by decide +kernel⟩).reads? {} =
      some ⟨"P", ⟨1, 1⟩, true⟩ := by
    decide +kernel
  obtain ⟨⟨_, _, _, _, _, _, _, htogether⟩, hiff⟩ :=
    Document.together_iff hread (eq_take_get_drop _ (show 6 < _ by decide +kernel)) hmember
  have happart := hiff _ _ [] ⟨"P", ⟨1, 2⟩, false⟩
    (List.take_succ_eq_append_getElem (show 5 < _ by decide +kernel)) (by decide +kernel) rfl
    (fun _ hx => nomatch hx)
  have hplace : lastPlace {} "P" ⟨1, 1⟩ ((trail {} memberOfOlderNote).take 7) =
      ⟨"P", ⟨1, 1⟩, 1⟩ := by
    decide +kernel
  have hbefore : lastPlace {} "P" ⟨1, 2⟩ ((trail {} memberOfOlderNote).take 6) =
      ⟨"P", ⟨1, 2⟩, 1⟩ := by
    decide +kernel
  rw [List.take_succ_eq_append_getElem (by decide +kernel)] at hplace hbefore
  rw [List.get_eq_getElem, hplace] at htogether happart
  rw [hbefore] at happart
  exact ⟨score, hread, ⟨_, htogether⟩, happart.not.mpr (by decide)⟩

end Partwise
