import Mathlib.Data.List.SplitBy
import Partwise.Proofs.Music.Conservation

/-!
# Music · Grouping: notes group to chords as the document marks them

Whether a note starts a chord is only known when the next one comes: what stands in the voice as a
single note is then replaced by a chord, wherever it stands. All the same the leaves of a voice are
the groups of the notes that were brought to it, where every note begins a group that is not marked
as a member (`chordGroups`).

* `Gathers`: what a chord is, said of its members as they were read.
* `Stands`: what stands for a group, a single note or a chord.
* `Does.grouped`: one move keeps the leaves of a voice grouped as its deliveries.
* `Document.chords_assembled`: so are the leaves of all voices of a score.
-/

namespace Partwise

open Markup

variable {settings : Settings} {r s t : Reading} {m : Moment} {ms : List Moment} {id : String}
  {key : VoiceKey}

/-! ## What is delivered -/

/-- Marks gathered one after the other. -/
def Attachments.gather (marks : List Attachments) : Attachments := marks.foldr (· ++ ·) ∅

/-- Marks that are gathered in two parts are gathered together. -/
theorem Attachments.gather_append (as bs : List Attachments) :
    gather (as ++ bs) = gather as ++ gather bs := by
  induction as with
  | nil => rfl
  | cons a as ih => exact (congrArg (a ++ ·) ih).trans (append_assoc ..).symm

/-- A note or rest that is brought to a voice: as it was read, with the marks that it takes. -/
structure Delivery where
  note : Note
  marks : Attachments
  /-- It joins what stands before it. -/
  member : Bool
deriving DecidableEq, Repr

/-- The marks that it comes with: its own, and those that it takes. -/
def Delivery.attachments (d : Delivery) : Attachments := d.note.attachments ++ d.marks

/-- A rest that was not read as a note stands alone and takes no marks. -/
def Delivery.rest (n : Note) : Delivery := ⟨n, ∅, false⟩

/-- The rests that a voice needs before it is given a note. -/
def Reading.restsBefore (r : Reading) (key : VoiceKey) (line : Nat) : List Note :=
  padRests key line (r.cursor key) r.passage.position

/-- What a deed brings to its voice. -/
def Deed.delivers (settings : Settings) (r : Reading) : Deed → List Delivery
  | note input =>
    (if input.inChord then [] else (r.restsBefore input.key input.note.line).map .rest) ++
      [⟨input.note, input.marks settings r, input.inChord⟩]
  | forward key duration line =>
    (r.restsBefore key line ++ [Note.skip duration key.staff key.voice "" line]).map .rest
  | _ => []

/-- A delivery with its part and its voice. -/
abbrev PlacedDelivery := (String × VoiceKey) × Delivery

/-- What a moment brings, and where to. -/
def Moment.delivered (settings : Settings) (m : Moment) : List PlacedDelivery :=
  let deed := m.move.deed settings m.before
  match m.before.partId?, deed.voice? with
  | some id, some key => (deed.delivers settings m.before).map fun d => ((id, key), d)
  | _, _ => []

/-- What some moments bring, in their order. -/
def deliveries (settings : Settings) (ms : List Moment) : List PlacedDelivery :=
  ms.flatMap (Moment.delivered settings)

/-- What is brought to one voice of a part. -/
def deliveriesTo (id : String) (key : VoiceKey) (ds : List PlacedDelivery) : List Delivery :=
  (ds.filter fun d => d.1 = (id, key)).map Prod.snd

/-- What is delivered to a voice in two parts is delivered together. -/
theorem deliveriesTo_append (ds ds' : List PlacedDelivery) :
    deliveriesTo id key (ds ++ ds') = deliveriesTo id key ds ++ deliveriesTo id key ds' := by
  simp [deliveriesTo]

/-- What some moments bring to a voice of a part. -/
def broughtTo (settings : Settings) (id : String) (key : VoiceKey) (ms : List Moment) :
    List Delivery :=
  deliveriesTo id key (deliveries settings ms)

/-- What moments bring to a voice one after the other they bring together. -/
theorem broughtTo_append (ms ns : List Moment) :
    broughtTo settings id key (ms ++ ns) =
      broughtTo settings id key ms ++ broughtTo settings id key ns := by
  rw [broughtTo, deliveries, List.flatMap_append, deliveriesTo_append]
  rfl

/-- The first moment brings what it delivers before all others. -/
theorem broughtTo_cons (m : Moment) (ms : List Moment) :
    broughtTo settings id key (m :: ms) =
      deliveriesTo id key (m.delivered settings) ++ broughtTo settings id key ms := by
  rw [broughtTo, deliveries, List.flatMap_cons, deliveriesTo_append]
  rfl

/-- What a moment brings is brought by its deed, to the voice of the deed. -/
theorem Moment.of_mem_delivered {d : PlacedDelivery} (hd : d ∈ m.delivered settings) :
    m.before.partId? = some d.1.1 ∧ (m.move.deed settings m.before).voice? = some d.1.2 ∧
      d.2 ∈ (m.move.deed settings m.before).delivers settings m.before := by
  unfold delivered at hd
  dsimp only at hd
  split at hd
  · next _ _ hid hkey =>
    obtain ⟨d, hmem, rfl⟩ := List.mem_map.mp hd
    exact ⟨hid, hkey, hmem⟩
  · exact nomatch hd

/-- What a voice needs before a note are rests without marks. -/
theorem Reading.rest_of_mem {line : Nat} {d : Delivery}
    (hd : d ∈ (r.restsBefore key line).map .rest) : d.note.isRest = true ∧ d.attachments = ∅ := by
  unfold restsBefore padRests at hd
  split at hd
  · rw [List.mem_singleton.mp hd]
    exact ⟨rfl, rfl⟩
  · exact nomatch hd

/-- All that is brought without a note are rests without marks. -/
theorem Moment.rest_of_not_note (hdeed : ∀ input, m.move.deed settings m.before ≠ .note input) :
    ∀ d ∈ m.delivered settings, d.2.note.isRest = true ∧ d.2.attachments = ∅ := by
  intro d hd
  obtain ⟨_, hkey, hmem⟩ := of_mem_delivered hd
  generalize m.move.deed settings m.before = deed at hdeed hkey hmem
  cases deed with
  | note input => exact absurd rfl (hdeed input)
  | forward k duration line =>
    rw [Deed.delivers, List.map_append] at hmem
    rcases List.mem_append.mp hmem with hmem | hmem
    · exact Reading.rest_of_mem hmem
    · rw [List.mem_singleton.mp hmem]
      exact ⟨rfl, rfl⟩
  | backup | enterMeasure | leaveMeasure | enterPart | leavePart | nothing => exact nomatch hkey

/-- What a moment brings all goes to the voice of its deed. -/
theorem Moment.deliveriesTo_here (hid : m.before.partId? = some id)
    (hkey : (m.move.deed settings m.before).voice? = some key) :
    deliveriesTo id key (m.delivered settings) =
      (m.move.deed settings m.before).delivers settings m.before := by
  simp [delivered, hid, hkey, deliveriesTo, List.filter_map, Function.comp_def]

/-- Other voices are brought nothing. -/
theorem Moment.deliveriesTo_other (hother : m.before.partId? = some id →
    (m.move.deed settings m.before).voice? ≠ some key) :
    deliveriesTo id key (m.delivered settings) = [] := by
  unfold delivered
  dsimp only
  split
  · next id' key' hid hkey =>
    have hne : (id', key') ≠ (id, key) := by
      rintro ⟨⟩
      exact hother hid hkey
    simp [deliveriesTo, List.filter_map, hne]
  · rfl

/-! ## Groups -/

/-- The groups that notes form: every note begins one that joins nothing before it. -/
def chordGroups (ds : List Delivery) : List (List Delivery) := ds.splitBy fun _ d => d.member

/-- A chord gathers some notes. It has the length, display and tie of the first and one place for
all. It carries what they all brought, each articulation once, and only its first note has kept
anything of that. -/
structure Gathers (first : Delivery) (later : List Delivery) (c : Chord) : Prop where
  notes : c.notes.map Note.asRead = (first :: later).map fun d => d.note.asRead
  members : ∀ n ∈ c.notes, n.isRest = false ∧ n.kind = .chordMember ∧
    n.positionInMeasure = c.positionInMeasure ∧ n.measureNumber = c.measureNumber
  head : ∃ n, c.notes.head? = some n ∧ Note.Dressed first.marks first.note n
  bare : ∀ n ∈ c.notes.tail, n.articulations = [] ∧ n.attachments = ∅
  length : c.soundingWholeNotes = first.note.soundingWholeNotes
  display : c.display? = first.note.display?
  tie : c.tie? = first.note.tie?
  articulations : c.articulations = first.note.articulations ++
    ((later.flatMap fun d => d.note.articulations).removeAll first.note.articulations).eraseDups
  attachments : c.attachments = .gather ((first :: later).map Delivery.attachments)

/-- What stands for a group: the note, if it is only one, and otherwise one chord. -/
inductive Stands : List Delivery → Leaf → Prop
  | alone {d : Delivery} {n : Note} (leads : d.member = false)
      (dressed : Note.Dressed d.marks d.note n) : Stands [d] (.note n)
  | together {first : Delivery} {later : List Delivery} {c : Chord} (leads : first.member = false)
      (more : later ≠ []) (follow : ∀ d ∈ later, d.member = true)
      (gathers : Gathers first later c) : Stands (first :: later) (.chord c)

/-! ## Chords gather their members -/

/-- New articulations are added once each, in their order. -/
theorem foldl_addArticulation (present new : List Articulation) :
    new.foldl addArticulation present = present ++ (new.removeAll present).eraseDups := by
  induction new generalizing present with
  | nil => simp [List.removeAll]
  | cons a new ih =>
    rw [List.foldl_cons, ih, addArticulation]
    by_cases ha : a ∈ present
    · simp [ha, List.removeAll]
    · have hrest : (new.removeAll (present ++ [a])) =
          (new.removeAll present).filter fun b => !b == a := by
        simp only [List.removeAll, List.filter_filter]
        refine List.filter_congr fun b _ => ?_
        simp [beq_eq_decide, Bool.and_comm]
      have hhead : (a :: new).removeAll present = a :: new.removeAll present := by
        simp [List.removeAll, ha]
      rw [if_neg (by simpa using ha), hrest, hhead, List.eraseDups_cons, List.append_assoc]
      rfl

namespace Gathers

variable {first d : Delivery} {later : List Delivery} {c : Chord} {n : Note}

/-- A chord begins with one note. -/
theorem begin (h : Note.Dressed first.marks first.note n) (hsounds : n.isRest = false) :
    Gathers first [] (.ofFirst n) where
  notes := congrArg (· :: []) h.asRead
  members := by
    intro m hm
    rw [List.mem_singleton.mp hm]
    exact ⟨hsounds, rfl, rfl, rfl⟩
  head := ⟨_, rfl, h.asRead, h.articulations, h.attachments⟩
  bare := fun _ hn => nomatch hn
  length := h.length
  display := h.display
  tie := h.tie
  articulations := h.articulations.trans (List.append_nil _).symm
  attachments := h.attachments.trans (Attachments.append_empty _).symm

/-- A chord takes in one more note. -/
theorem absorb (h : Gathers first later c) (hd : Note.Dressed d.marks d.note n)
    (hsounds : d.note.isRest = false) : Gathers first (later ++ [d]) (c.absorb n) := by
  obtain ⟨head, hhead, hfirst⟩ := h.head
  obtain ⟨rest, hnotes⟩ : ∃ rest, c.notes = head :: rest :=
    ⟨c.notes.tail, (List.cons_head?_tail hhead).symm⟩
  refine ⟨?_, ?_, ⟨head, ?_, hfirst⟩, ?_, h.length, h.display, h.tie, ?_, ?_⟩
  · rw [Chord.absorb, List.map_append, h.notes, ← List.cons_append, List.map_append]
    exact congrArg (_ ++ [·]) hd.asRead
  · intro m hm
    rcases List.mem_append.mp hm with hm | hm
    · exact h.members m hm
    · rw [List.mem_singleton.mp hm]
      exact ⟨hd.isRest.trans hsounds, rfl, rfl, rfl⟩
  · rw [Chord.absorb, hnotes]
    rfl
  · intro m hm
    have hbare := h.bare
    rw [hnotes, List.tail_cons] at hbare
    rw [Chord.absorb, hnotes, List.cons_append, List.tail_cons] at hm
    rcases List.mem_append.mp hm with hm | hm
    · exact hbare m hm
    · rw [List.mem_singleton.mp hm]
      exact ⟨rfl, rfl⟩
  · rw [← foldl_addArticulation, List.flatMap_append, List.foldl_append, foldl_addArticulation _
      (later.flatMap _), ← h.articulations, List.flatMap_singleton, ← hd.articulations]
    rfl
  · rw [← List.cons_append, List.map_append, Attachments.gather_append, ← h.attachments]
    exact congrArg (c.attachments ++ ·) (hd.attachments.trans (Attachments.append_empty _).symm)

/-- No member was read as a rest. -/
theorem sounds (h : Gathers first later c) : ∀ d ∈ first :: later, d.note.isRest = false := by
  intro d hd
  have hmem : d.note.asRead ∈ c.notes.map Note.asRead := by
    rw [h.notes]
    exact List.mem_map_of_mem hd
  obtain ⟨n, hn, hsame⟩ := List.mem_map.mp hmem
  have hrest := congrArg Note.isRest hsame
  exact hrest.symm.trans (h.members n hn).1

end Gathers

namespace Stands

variable {group : List Delivery} {leaf leaf' : Leaf}

/-- The notes that stand there are those of the group, as they were read. -/
theorem notes_eq (h : Stands group leaf) :
    leaf.notes.map Note.asRead = group.map fun d => d.note.asRead := by
  cases h with
  | alone _ dressed => exact congrArg (· :: []) dressed.asRead
  | together _ _ _ gathers => exact gathers.notes

/-- The marks that stand there are all that came with the group. -/
theorem attachments_eq (h : Stands group leaf) :
    leaf.attachments = .gather (group.map Delivery.attachments) := by
  cases h with
  | alone _ dressed => exact dressed.attachments.trans (Attachments.append_empty _).symm
  | together _ _ _ gathers => exact gathers.attachments

/-- A note that joins what stands there belongs to the group. -/
theorem join {d : Delivery} {n : Note} (h : Stands group leaf) (hjoined : leaf.Joined n leaf')
    (hmember : d.member = true) (hd : Note.Dressed d.marks d.note n)
    (hsounds : d.note.isRest = false) : Stands (group ++ [d]) leaf' := by
  cases hjoined with
  | pair hfirst =>
    cases h with
    | alone leads dressed =>
      refine .together leads (by simp) (by simpa using hmember) ?_
      exact (Gathers.begin dressed hfirst).absorb hd hsounds
  | more =>
    cases h with
    | together leads _ follow gathers =>
      refine .together leads (by simp) ?_ (gathers.absorb hd hsounds)
      intro d' hd'
      rcases List.mem_append.mp hd' with hd' | hd'
      · exact follow d' hd'
      · rw [List.mem_singleton.mp hd', hmember]

/-- A group is led by a note that joins nothing, and all others join it. -/
theorem exists_cons (h : Stands group leaf) :
    ∃ first later, group = first :: later ∧ first.member = false ∧
      ∀ d ∈ later, d.member = true := by
  cases h with
  | alone leads => exact ⟨_, [], rfl, leads, fun _ hd => nomatch hd⟩
  | together leads _ follow => exact ⟨_, _, rfl, leads, follow⟩

end Stands

/-! ## Grouped leaves -/

/-- What was delivered stands in groups as these leaves. -/
def Grouped (ds : List Delivery) (ls : List Leaf) : Prop :=
  ∃ groups : List (List Delivery), groups.flatten = ds ∧ List.Forall₂ Stands groups ls

namespace Grouped

variable {ds : List Delivery} {ls ls' : List Leaf}

/-- Where nothing was delivered, there are no leaves. -/
theorem nil : Grouped [] [] := ⟨[], rfl, .nil⟩

/-- Something stands alone behind all else. -/
theorem alone {d : Delivery} {n : Note} (h : Grouped ds ls) (hleads : d.member = false)
    (hd : Note.Dressed d.marks d.note n) : Grouped (ds ++ [d]) (ls ++ [.note n]) := by
  obtain ⟨groups, hflat, hall⟩ := h
  exact ⟨groups ++ [[d]], by simp [hflat], List.rel_append hall (.cons (.alone hleads hd) .nil)⟩

/-- Rests stand alone. -/
theorem rests {read rests : List Note} (h : Grouped ds ls)
    (hrests : List.Forall₂ (Note.Dressed ∅) read rests) :
    Grouped (ds ++ read.map .rest) (ls ++ rests.map .note) := by
  induction hrests generalizing ds ls with
  | nil => simpa using h
  | cons hdressed _ ih => simpa using ih (h.alone (d := .rest _) rfl hdressed)

/-- A member joins the group that stands last. -/
theorem join {d : Delivery} {n : Note} (h : Grouped ds ls) (hjoins : JoinsLeaf n ls ls')
    (hmember : d.member = true) (hd : Note.Dressed d.marks d.note n)
    (hsounds : d.note.isRest = false) : Grouped (ds ++ [d]) ls' := by
  obtain ⟨groups, rfl, hall⟩ := h
  obtain @⟨before, l, l', hjoined⟩ := hjoins
  have hbefore := List.forall₂_take_append groups before [l] hall
  obtain ⟨group, none, hstands, hnone, hlast⟩ :=
    List.forall₂_cons_right_iff.mp (List.forall₂_drop_append groups before [l] hall)
  obtain rfl := List.forall₂_nil_right_iff.mp hnone
  have hgroups := List.take_append_drop before.length groups
  rw [hlast] at hgroups
  refine ⟨groups.take before.length ++ [group ++ [d]], ?_,
    List.rel_append hbefore (.cons (hstands.join hjoined hmember hd hsounds) .nil)⟩
  rw [List.flatten_append, List.flatten_singleton, ← List.append_assoc, ← List.flatten_concat,
    hgroups]

/-- Every group is led by a note that joins nothing, and all others join it. -/
theorem exists_cons {groups : List (List Delivery)} (h : List.Forall₂ Stands groups ls) :
    ∀ g ∈ groups, ∃ first later, g = first :: later ∧ first.member = false ∧
      ∀ d ∈ later, d.member = true := by
  induction h with
  | nil => exact fun _ hg => nomatch hg
  | cons hstands _ ih => exact List.forall_mem_cons.mpr ⟨hstands.exists_cons, ih⟩

/-- The notes of the leaves are those that were delivered, as they were read. -/
theorem notes_eq (h : Grouped ds ls) :
    (ls.flatMap Leaf.notes).map Note.asRead = ds.map fun d => d.note.asRead := by
  obtain ⟨groups, rfl, hall⟩ := h
  induction hall with
  | nil => rfl
  | cons hstands _ ih =>
    rw [List.flatMap_cons, List.map_append, hstands.notes_eq, ih, List.flatten_cons,
      List.map_append]

/-- There are as many notes as were delivered. -/
theorem length_eq (h : Grouped ds ls) : (ls.flatMap Leaf.notes).length = ds.length := by
  simpa only [List.length_map] using congrArg List.length h.notes_eq

/-- **The groups are those that the marks make.** -/
theorem chordGroups (h : Grouped ds ls) : List.Forall₂ Stands (chordGroups ds) ls := by
  obtain ⟨groups, rfl, hall⟩ := h
  have hcons := exists_cons hall
  have hgroups : Partwise.chordGroups groups.flatten = groups := by
    refine List.splitBy_flatten ?_ ?_ ?_
    · intro hnil
      obtain ⟨_, _, hg, _⟩ := hcons [] hnil
      exact nomatch hg
    · intro g hg
      obtain ⟨first, later, rfl, _, hfollow⟩ := hcons g hg
      refine List.Pairwise.isChain (List.pairwise_cons.mpr ⟨hfollow, ?_⟩)
      exact List.pairwise_of_forall_mem_list fun _ _ d hd => hfollow d hd
    · refine List.Pairwise.isChain (List.pairwise_of_forall_mem_list fun g hg g' hg' => ?_)
      obtain ⟨first, later, rfl, _, _⟩ := hcons g hg
      obtain ⟨first', later', rfl, hleads, _⟩ := hcons g' hg'
      exact ⟨by simp, by simp, hleads⟩
  rw [hgroups]
  exact hall

end Grouped

/-! ## Whole documents -/

/-- **One move** keeps the leaves of a voice grouped as its deliveries. -/
theorem Does.grouped (hsound : m.before.Sound)
    (hdoes : Does m.before m.after (m.move.deed settings m.before))
    (halone : ∀ id, m.move.deed settings m.before = .enterPart id → m.before.partId? = none)
    (hstep : Ends (m.move.perform settings) m.before () m.after) {ds : List Delivery}
    (h : Grouped ds (leavesOf (m.before.music id key))) :
    Grouped (ds ++ deliveriesTo id key (m.delivered settings))
      (leavesOf (m.after.music id key)) := by
  by_cases hhere : m.before.partId? = some id ∧ (m.move.deed settings m.before).voice? = some key
  · obtain ⟨hid, hkey⟩ := hhere
    rw [Moment.deliveriesTo_here hid hkey]
    generalize hdeed : m.move.deed settings m.before = deed at hdoes hkey ⊢
    cases hdoes with
    | @place input at' _ alone placed _ takes seats =>
      cases hkey
      obtain rfl : at' = id := Option.some.inj (placed.partId.symm.trans hid)
      obtain rfl := marks_of_note hsound hstep hdeed takes
      obtain ⟨rests, n, hrests, hdressed, hleaves⟩ := seats
      rw [Deed.delivers, if_neg (by simp [alone]), hleaves, ← List.append_assoc]
      exact (h.rests hrests).alone alone hdressed
    | @join input at' _ member joined _ takes folds =>
      cases hkey
      obtain rfl : at' = id := Option.some.inj (joined.partId.symm.trans hid)
      obtain rfl := marks_of_note hsound hstep hdeed takes
      obtain ⟨hsounds, n, hdressed, hjoins⟩ := folds
      rw [Deed.delivers, if_pos member, List.nil_append]
      exact h.join hjoins member hdressed hsounds
    | @forward k duration line at' placed _ seats =>
      cases hkey
      obtain rfl : at' = id := Option.some.inj (placed.partId.symm.trans hid)
      obtain ⟨rests, n, hrests, hdressed, hleaves⟩ := seats
      rw [Deed.delivers, List.map_append, hleaves, ← List.append_assoc]
      exact (h.rests hrests).alone rfl hdressed
    | backup | enterMeasure | leaveMeasure | enterPart | leavePart | nothing => exact nomatch hkey
  · have hother := not_and.mp hhere
    rwa [Moment.deliveriesTo_other hother, List.append_nil, hdoes.music_other halone hother]

/-- A whole reading keeps the leaves of a voice grouped as its deliveries. -/
theorem Follows.grouped (hfollows : Follows settings r ms t) (hunfolds : Unfolds settings r ms t)
    {ds : List Delivery} (h : Grouped ds (leavesOf (r.music id key))) :
    Grouped (ds ++ broughtTo settings id key ms) (leavesOf (t.music id key)) := by
  induction hfollows generalizing ds with
  | nil r => simpa [broughtTo, deliveries, deliveriesTo] using h
  | @cons m ms t hstep _ ih =>
    obtain ⟨hsound, hdoes, halone, hrest⟩ := hunfolds.of_cons
    have hnext := ih hrest (hdoes.grouped hsound halone hstep h)
    rwa [List.append_assoc, ← broughtTo_cons] at hnext

/-- The leaves of a voice of a score are those of the music that was read. -/
theorem Reading.Complete.leaves_eq {score : Score} {part : Part} {voice : Voice}
    (h : r.Complete score) (hpart : part ∈ score.parts) (hvoice : voice ∈ part.voices) :
    leavesOf (r.music part.id voice.key) = voice.leaves := by
  rw [h.music hpart, Part.music, h.voice? hpart hvoice]
  rfl

/-- The notes of a voice of a score are those of its leaves. -/
theorem Reading.Complete.notes_eq_leaves {score : Score} {part : Part} {voice : Voice}
    (h : r.Complete score) (hpart : part ∈ score.parts) (hvoice : voice ∈ part.voices) :
    voice.notes = voice.leaves.flatMap Leaf.notes :=
  voice.notes_eq_leaves
    (h.closed part.id part (by simp [h.partId]) (h.partOf hpart) voice hvoice)

/-- The leaves of a score are grouped as what its document delivers. -/
theorem Document.grouped {root : Element} {last : Reading}
    (hfollows : Follows settings {} (trail settings root) last)
    (hunfolds : Unfolds settings {} (trail settings root) last) (id : String) (key : VoiceKey) :
    Grouped (broughtTo settings id key (trail settings root)) (leavesOf (last.music id key)) :=
  hfollows.grouped hunfolds .nil

/-- **Chords are assembled as they are marked.** The notes of a voice of a score are those of its
leaves, and these are the groups of what the document brings to the voice: what is alone in its
group stands as a single note, and what is not is gathered in one chord. -/
theorem Document.chords_assembled {root : Element} {score : Score}
    (h : (Document.read settings root).score = .ok score) :
    (trail settings root).map Moment.move = movesOf root ∧
      ∀ part ∈ score.parts, ∀ voice ∈ part.voices,
        voice.notes = voice.leaves.flatMap Leaf.notes ∧
          voice.notes.map Note.asRead =
            (broughtTo settings part.id voice.key (trail settings root)).map
              (fun d => d.note.asRead) ∧
          List.Forall₂ Stands
            (chordGroups (broughtTo settings part.id voice.key (trail settings root)))
            voice.leaves := by
  obtain ⟨last, hfollows, hunfolds, hcomplete, hmoves⟩ := Document.follows_unfolds h
  refine ⟨hmoves, fun part hpart voice hvoice => ?_⟩
  have hnotes := hcomplete.notes_eq_leaves hpart hvoice
  have hgrouped := grouped hfollows hunfolds part.id voice.key
  rw [hcomplete.leaves_eq hpart hvoice] at hgrouped
  exact ⟨hnotes, hnotes ▸ hgrouped.notes_eq, hgrouped.chordGroups⟩

/-- The articulations of a note. -/
def articulationMarks (names : List String) : Element :=
  { name := "notations"
    children := [{ name := "articulations", children := names.map fun name => { name } }] }

/-- A chord of two notes, both staccato and one with an accent, and a note after it. -/
def chordThenNote : Element :=
  singleMeasure [noteElement 1 "C" "1" "2" [articulationMarks ["staccato"]],
    noteElement 2 "E" "1" "2" [{ name := "chord" }, articulationMarks ["accent", "staccato"]],
    noteElement 3 "G" "1" "2" []]

/-- The first two notes stand as one chord, which is staccato once and has the accent. -/
theorem Document.chords_assembled_twoNotes : ∃ score, ∃ part ∈ score.parts, ∃ voice ∈ part.voices,
    (Document.read {} chordThenNote).score = .ok score ∧
      ∃ c n, voice.leaves = [.chord c, .note n] ∧
        c.notes.map Note.line = [1, 2] ∧ n.line = 3 ∧
          c.articulations = [.staccato, .accent] := by
  have hthere : hasVoice chordThenNote "P" ⟨1, 1⟩ (fun _ => true) = true := by
    decide +kernel
  obtain ⟨score, part, hpart, voice, hvoice, hread, hid, hkey, _⟩ := exists_voice hthere
  obtain ⟨-, -, hstands⟩ := (Document.chords_assembled hread).2 part hpart voice hvoice
  rw [hid, hkey] at hstands
  have hgroups : (chordGroups (broughtTo {} "P" ⟨1, 1⟩ (trail {} chordThenNote))).map
      (List.map fun d => (d.note.line, d.note.articulations)) =
        [[(1, [.staccato]), (2, [.accent, .staccato])], [(3, [])]] := by
    decide +kernel
  generalize chordGroups _ = groups at hstands hgroups
  simp only [List.map_eq_cons_iff, List.map_eq_nil_iff, Prod.mk.injEq] at hgroups
  obtain ⟨_, _, rfl, ⟨a, _, rfl, ⟨ha, hplain⟩, b, _, rfl, ⟨hb, haccent⟩, rfl⟩,
    _, _, rfl, ⟨d, _, rfl, ⟨hd, _⟩, rfl⟩, rfl⟩ := hgroups
  generalize hleaves : voice.leaves = leaves at hstands
  cases hstands with
  | cons hchord hrest =>
    cases hrest with
    | cons hnote hnone =>
      cases hnone
      cases hnote with
      | together _ more => exact absurd rfl more
      | alone _ dressed =>
        cases hchord with
        | together _ _ _ gathers =>
          have hlines := congrArg (List.map Note.line) gathers.notes
          have hline := congrArg Note.line dressed.asRead
          refine ⟨score, part, hpart, voice, hvoice, hread, _, _, hleaves, ?_, ?_, ?_⟩
          · simpa [Note.asRead, ha, hb, Function.comp_def] using hlines
          · exact hline.trans hd
          · rw [gathers.articulations, hplain, List.flatMap_singleton, haccent]
            decide

end Partwise
