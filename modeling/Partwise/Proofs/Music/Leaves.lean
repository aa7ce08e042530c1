import Mathlib.Data.List.Basic
import Partwise.Proofs.Music.Folding

/-!
# Music · Leaves: single notes and chords

Tuplets and repeats put single notes and chords into groups. Without the groups they are the leaves
of the music, in the order it is played in. A chord is not told by the notes of a voice, but it is
by the leaves. Two things happen to them: a note comes as a new leaf behind all others, or it joins
the leaf that stands last (`JoinsLeaf`), however deep that stands in tuplets.
-/

namespace Partwise

/-! ## Leaves -/

/-- What no tuplet and no repeat is: a single note, or a chord. -/
inductive Leaf where
  | note (n : Note)
  | chord (c : Chord)
deriving DecidableEq, Repr

namespace Leaf

/-- The notes that sound there. -/
def notes : Leaf → List Note
  | note n => [n]
  | chord c => c.notes

/-- The marks that directions brought for it. The first note of a chord has a copy of its own marks,
which is not counted. -/
def attachments : Leaf → Attachments
  | note n => n.attachments
  | chord c => c.attachments

end Leaf

mutual

/-- The leaves of a tuplet. -/
def Tuplet.leaves : Tuplet → List Leaf
  | { members, .. } => leavesOfMembers members

/-- The leaves of a member. -/
def TupletMember.leaves : TupletMember → List Leaf
  | .note n => [.note n]
  | .chord c => [.chord c]
  | .tuplet t => t.leaves

/-- The leaves of a list of members. -/
def leavesOfMembers : List TupletMember → List Leaf
  | [] => []
  | m :: ms => m.leaves ++ leavesOfMembers ms

end

/-- The leaves of an element that takes time; signs and barlines have none. -/
def VoiceElement.leaves : VoiceElement → List Leaf
  | .note n => [.note n]
  | .chord c => [.chord c]
  | .tuplet t => t.leaves
  | _ => []

/-- The leaves of some elements. -/
def leavesOf (es : List VoiceElement) : List Leaf := es.flatMap VoiceElement.leaves

/-- The leaves of a voice, in the order of the music. -/
def Voice.leaves (v : Voice) : List Leaf := leavesOf v.music

/-- The leaves of some elements and then of others are those of all of them. -/
@[simp] theorem leavesOf_append (as bs : List VoiceElement) :
    leavesOf (as ++ bs) = leavesOf as ++ leavesOf bs :=
  List.flatMap_append

/-- Single notes are leaves of their own. -/
theorem leavesOf_notes (ns : List Note) :
    leavesOf (ns.map VoiceElement.note) = ns.map Leaf.note := by
  induction ns with
  | nil => rfl
  | cons n ns ih => exact congrArg (Leaf.note n :: ·) ih

/-- The leaves of some members and then of others are those of all of them. -/
theorem leavesOfMembers_append (ms ns : List TupletMember) :
    leavesOfMembers (ms ++ ns) = leavesOfMembers ms ++ leavesOfMembers ns := by
  induction ms with
  | nil => rfl
  | cons m ms ih => simp [leavesOfMembers, ih]

/-- The leaves of a tuplet are those of its members. -/
theorem Tuplet.leaves_eq (t : Tuplet) : t.leaves = leavesOfMembers t.members := by
  cases t
  rfl

/-- A member that comes to a tuplet brings its leaves behind the others. -/
@[simp] theorem Tuplet.leaves_append (t : Tuplet) (m : TupletMember) :
    (t.append m).leaves = t.leaves ++ m.leaves := by
  simp [leaves_eq, append, leavesOfMembers_append, leavesOfMembers]

/-! ## Notes as they were read -/

/-- What a note keeps of what was read, wherever it stands and whatever it carries. -/
def Note.asRead (n : Note) : Note :=
  { n with
    kind := .standalone
    measureNumber := ""
    positionInMeasure := 0
    articulations := []
    attachments := ∅
    lyrics := [] }

/-- The note is the one that was read, with its articulations and with the marks that it took. -/
structure Note.Dressed (marks : Attachments) (read n : Note) : Prop where
  asRead : n.asRead = read.asRead
  articulations : n.articulations = read.articulations
  attachments : n.attachments = read.attachments ++ marks

namespace Note.Dressed

variable {marks : Attachments} {read n : Note}

/-- A note that took no marks is the one that was read. -/
theorem refl (n : Note) : Note.Dressed ∅ n n :=
  ⟨rfl, rfl, n.attachments.append_empty.symm⟩

/-- A note is a rest as it was read. -/
theorem isRest (h : Note.Dressed marks read n) : n.isRest = read.isRest :=
  (congrArg Note.isRest h.asRead :)

/-- A note is an invisible rest as it was read. -/
theorem isInvisibleRest (h : Note.Dressed marks read n) :
    n.isInvisibleRest = read.isInvisibleRest :=
  (congrArg Note.isInvisibleRest h.asRead :)

/-- A note lasts as long as it was read. -/
theorem length (h : Note.Dressed marks read n) :
    n.soundingWholeNotes = read.soundingWholeNotes :=
  (congrArg Note.soundingWholeNotes h.asRead :)

/-- A note is displayed as it was read. -/
theorem display (h : Note.Dressed marks read n) : n.display? = read.display? :=
  (congrArg Note.display? h.asRead :)

/-- A note is tied as it was read. -/
theorem tie (h : Note.Dressed marks read n) : n.tie? = read.tie? :=
  (congrArg Note.tie? h.asRead :)

end Note.Dressed

/-! ## Leaves and notes -/

mutual

/-- The notes of a tuplet are those of its leaves. -/
theorem Tuplet.notes_eq_leaves (t : Tuplet) : t.notes = t.leaves.flatMap Leaf.notes := by
  match t with
  | ⟨_, _, _, _, _, _, _, _, members, _⟩ => exact notesOfMembers_eq_leaves members

/-- The notes of a member of a tuplet are those of its leaves. -/
theorem TupletMember.notes_eq_leaves (m : TupletMember) :
    m.notes = m.leaves.flatMap Leaf.notes := by
  match m with
  | .note n => rfl
  | .chord c => exact (List.append_nil c.notes).symm
  | .tuplet t => exact t.notes_eq_leaves

/-- The notes of some members are those of their leaves. -/
theorem notesOfMembers_eq_leaves (ms : List TupletMember) :
    notesOfMembers ms = (leavesOfMembers ms).flatMap Leaf.notes := by
  match ms with
  | [] => rfl
  | m :: ms =>
    rw [notesOfMembers, leavesOfMembers, m.notes_eq_leaves, notesOfMembers_eq_leaves ms,
      List.flatMap_append]

end

/-- What takes time has the notes of its leaves. -/
theorem VoiceElement.notes_eq_leaves {e : VoiceElement} (h : e.isTimed = true) :
    e.notes = e.leaves.flatMap Leaf.notes := by
  cases e with
  | note n => rfl
  | chord c => exact (List.append_nil c.notes).symm
  | tuplet t => exact t.notes_eq_leaves
  | barline | repeated | clef | key | time | direction | barCheck => exact nomatch h

/-- Where no repeat is pending, the notes of a voice are those of its leaves. -/
theorem Voice.notes_eq_leaves (v : Voice) (h : v.pending? = none) :
    v.notes = v.leaves.flatMap Leaf.notes := by
  rw [v.notes_eq_music h, leaves, leavesOf, List.flatMap_assoc]
  refine List.flatMap_congr fun e he => VoiceElement.notes_eq_leaves ?_
  exact (List.mem_filter.mp he).2

/-! ## Members of chords -/

/-- A single note becomes a chord of two, or a chord takes in one more note. Nothing joins a
rest. -/
inductive Leaf.Joined (n : Note) : Leaf → Leaf → Prop
  | pair {first : Note} (sounds : first.isRest = false) :
      Joined n (.note first) (.chord (Chord.ofPair first n))
  | more {c : Chord} : Joined n (.chord c) (.chord (c.absorb n))

/-- The note joins the leaf that stands last. -/
inductive JoinsLeaf (n : Note) : List Leaf → List Leaf → Prop
  | last {before : List Leaf} {l l' : Leaf} (joined : l.Joined n l') :
      JoinsLeaf n (before ++ [l]) (before ++ [l'])

/-- A note that joins some leaves joins them behind others as well. -/
theorem JoinsLeaf.prepend {n : Note} {ls ls' : List Leaf} (h : JoinsLeaf n ls ls')
    (before : List Leaf) : JoinsLeaf n (before ++ ls) (before ++ ls') := by
  obtain ⟨joined⟩ := h
  rw [← List.append_assoc, ← List.append_assoc]
  exact .last joined

/-- A note that joins the only leaf joins the last one. -/
theorem Leaf.Joined.alone {n : Note} {l l' : Leaf} (h : l.Joined n l') : JoinsLeaf n [l] [l'] :=
  @JoinsLeaf.last n [] l l' h

mutual

/-- A note joins the last leaf of a member. -/
theorem TupletMember.joinsLeaf {n : Note} {chordOpen : Bool} {m m' : TupletMember}
    (h : m.join n chordOpen = .ok m') : JoinsLeaf n m.leaves m'.leaves := by
  match m with
  | .note first =>
    unfold TupletMember.join at h
    split at h
    · exact nomatch h
    · next hsounds =>
      cases h
      exact (Leaf.Joined.pair (by simpa using hsounds)).alone
  | .chord c =>
    unfold TupletMember.join at h
    split at h
    · cases h
      exact Leaf.Joined.more.alone
    · exact nomatch h
  | .tuplet t =>
    unfold TupletMember.join at h
    obtain ⟨t', ht, rfl⟩ := of_map_eq_ok h
    exact Tuplet.joinsLeaf ht

/-- A note joins the last leaf of a tuplet. -/
theorem Tuplet.joinsLeaf {n : Note} {chordOpen : Bool} {t t' : Tuplet}
    (h : t.join n chordOpen = .ok t') : JoinsLeaf n t.leaves t'.leaves := by
  match t with
  | ⟨_, _, _, _, _, _, _, _, members, _⟩ =>
    unfold Tuplet.join at h
    obtain ⟨joined, hjoined, rfl⟩ := of_map_eq_ok h
    exact joinsLeaf_members hjoined

/-- A note joins the last leaf of some members. -/
theorem joinsLeaf_members {n : Note} {chordOpen : Bool} {ms ms' : List TupletMember}
    (h : joinLastMember n chordOpen ms = .ok ms') :
    JoinsLeaf n (leavesOfMembers ms) (leavesOfMembers ms') := by
  match ms with
  | [] => exact nomatch h
  | [m] =>
    unfold joinLastMember at h
    obtain ⟨m', hm, rfl⟩ := of_map_eq_ok h
    simpa [leavesOfMembers] using TupletMember.joinsLeaf hm
  | m :: next :: ms =>
    unfold joinLastMember at h
    obtain ⟨rest, hrest, rfl⟩ := of_map_eq_ok h
    rw [leavesOfMembers, leavesOfMembers]
    exact (joinsLeaf_members hrest).prepend m.leaves

end

/-- A note joins the last leaf of an element. -/
theorem VoiceElement.joinsLeaf {n : Note} {chordOpen : Bool} {e e' : VoiceElement}
    (h : e.join n chordOpen = .ok e') : JoinsLeaf n (leavesOf [e]) (leavesOf [e']) := by
  unfold VoiceElement.join at h
  split at h
  · split at h
    · cases h
    · next hsounds =>
      cases h
      exact (Leaf.Joined.pair (by simpa using hsounds)).alone
  · split at h
    · cases h
      exact Leaf.Joined.more.alone
    · cases h
  · obtain ⟨t', ht, rfl⟩ := of_map_eq_ok h
    simpa [leavesOf, leaves] using Tuplet.joinsLeaf ht
  · cases h

/-- A note joins the last leaf of some elements. -/
theorem joinsLeaf_joinLast {n : Note} {chordOpen : Bool} {es es' : List VoiceElement}
    (h : joinLast n chordOpen es = .ok es') :
    JoinsLeaf n (leavesOf (timed (flattenElements es)))
      (leavesOf (timed (flattenElements es'))) := by
  induction es generalizing es' with
  | nil => exact nomatch h
  | cons e es ih =>
    cases es with
    | nil =>
      obtain ⟨e', he, rfl⟩ := of_map_eq_ok h
      obtain ⟨hbefore, hafter, -⟩ := VoiceElement.of_join he
      simpa [flattenElements, hbefore, hafter] using VoiceElement.joinsLeaf he
    | cons next es =>
      obtain ⟨rest, hrest, rfl⟩ := of_map_eq_ok h
      have hcons : ∀ xs, leavesOf (timed (flattenElements (e :: xs))) =
          leavesOf (timed e.flatten) ++ leavesOf (timed (flattenElements xs)) := fun xs => by
        rw [flattenElements, timed_append, leavesOf_append]
      rw [hcons, hcons]
      exact (ih hrest).prepend _

/-- A note joins the last leaf of a voice. -/
theorem Voice.joinsLeaf {v v' : Voice} {n : Note} {chordOpen : Bool}
    (h : v.joinChord n chordOpen = .ok v') : JoinsLeaf n v.leaves v'.leaves := by
  obtain ⟨chunk, hchunk, rfl⟩ := of_map_eq_ok h
  have hjoins := joinsLeaf_joinLast hchunk
  simp only [leaves, music, flatten_eq, timed_append, leavesOf_append]
  exact hjoins.prepend _

/-! ## Open tuplets -/

/-- A tuplet within others has the leaves of the outer ones before its own. -/
theorem Tuplet.leaves_within (t : Tuplet) (outer : List Tuplet) :
    (t.within outer).leaves = (t :: outer).reverse.flatMap Tuplet.leaves := by
  induction outer generalizing t with
  | nil => simp [within]
  | cons next outer ih => simp [within, ih, TupletMember.leaves]

/-- Open tuplets have their leaves from the outermost to the innermost. -/
theorem leavesOf_openMusic (tuplets : List Tuplet) :
    leavesOf (openMusic tuplets) = tuplets.reverse.flatMap Tuplet.leaves := by
  cases tuplets with
  | nil => rfl
  | cons t outer => simp [openMusic, leavesOf, VoiceElement.leaves, t.leaves_within]

/-- A note in the innermost tuplet is the last leaf of all that is open. Some tuplets may just have
opened for it. -/
theorem leavesOf_openMusic_append {n : Note} {t : Tuplet} {rest news old : List Tuplet}
    (h : t :: rest = news ++ old) (hnews : ∀ u ∈ news, u.members = []) :
    leavesOf (openMusic (t.append (.note n) :: rest)) = leavesOf (openMusic old) ++ [.note n] := by
  have hempty : news.reverse.flatMap Tuplet.leaves = [] := by
    refine List.flatMap_eq_nil_iff.mpr fun u hu => ?_
    rw [u.leaves_eq, hnews u (List.mem_reverse.mp hu), leavesOfMembers]
  have hall : rest.reverse.flatMap Tuplet.leaves ++ t.leaves =
      old.reverse.flatMap Tuplet.leaves := by
    have hboth := congrArg (fun ts => (List.reverse ts).flatMap Tuplet.leaves) h
    simpa [hempty] using hboth
  rw [leavesOf_openMusic, leavesOf_openMusic, ← hall]
  simp [TupletMember.leaves]

/-- A note that joins the innermost tuplet joins the last leaf of all that is open. -/
theorem joinsLeaf_openMusic {n : Note} {chordOpen : Bool} {t t' : Tuplet} {outer : List Tuplet}
    (h : t.join n chordOpen = .ok t') :
    JoinsLeaf n (leavesOf (openMusic (t :: outer))) (leavesOf (openMusic (t' :: outer))) := by
  have hjoins := (Tuplet.joinsLeaf h).prepend (outer.reverse.flatMap Tuplet.leaves)
  simpa [leavesOf_openMusic] using hjoins

end Partwise
