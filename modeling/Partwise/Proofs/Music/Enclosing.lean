import Partwise.Proofs.Music.Words

/-!
# Music · Enclosing: the tuplets around a note

A tuplet is known by its place among the tuplets of its voice, in the order in which they open. So
the tree of a voice says of every note which tuplets stand around it (`enclosed`), and so do the
brackets of its word, when they are read with a stack (`bracketing`). The two agree
(`bracketing_wordOf`): that is why it is enough to know the word of a voice.

While a voice is being read some tuplets are still open. Its word is `Written` for a state of the
stack if it is what leads to that state, and then the brackets that close what is open.
-/

namespace Partwise

/-! ## Tuplets in a tree -/

mutual

/-- A tuplet and all that are inside it, in the order in which they open. -/
def Tuplet.nodes : Tuplet → List Tuplet
  | ⟨number, actual, normal, divisions, staff, voice, measure, position, members, line⟩ =>
    ⟨number, actual, normal, divisions, staff, voice, measure, position, members, line⟩ ::
      nodesOfMembers members

/-- The tuplets in a member. -/
def TupletMember.nodes : TupletMember → List Tuplet
  | .note _ => []
  | .chord _ => []
  | .tuplet t => t.nodes

/-- The tuplets in some members. -/
def nodesOfMembers : List TupletMember → List Tuplet
  | [] => []
  | m :: ms => m.nodes ++ nodesOfMembers ms

end

/-- The tuplets in an element. -/
def VoiceElement.nodes : VoiceElement → List Tuplet
  | .tuplet t => t.nodes
  | _ => []

mutual

/-- There are as many tuplets in a tuplet as it counts. -/
theorem Tuplet.length_nodes (t : Tuplet) : t.nodes.length = t.count := by
  match t with
  | ⟨_, _, _, _, _, _, _, _, members, _⟩ =>
    rw [Tuplet.nodes, Tuplet.count, List.length_cons, length_nodesOfMembers members, Nat.add_comm]

/-- There are as many tuplets in a member as it counts. -/
theorem TupletMember.length_nodes (m : TupletMember) : m.nodes.length = m.count := by
  match m with
  | .note _ | .chord _ => rfl
  | .tuplet t => exact t.length_nodes

/-- There are as many tuplets in members as they count. -/
theorem length_nodesOfMembers (ms : List TupletMember) :
    (nodesOfMembers ms).length = countOfMembers ms := by
  match ms with
  | [] => rfl
  | m :: ms =>
    rw [nodesOfMembers, countOfMembers, List.length_append, m.length_nodes,
      length_nodesOfMembers ms]

end

/-! ## Notes in a tree -/

/-- A note or rest with the tuplets that stand around it, the outermost first. -/
structure Enclosed where
  note : Sounding
  around : List Nat
deriving DecidableEq, Repr

/-- A note within some tuplets. An invisible rest is none: it was not read as a note. -/
def Sounding.within (n : Sounding) (around : List Nat) : List Enclosed :=
  if n.content.isInvisible then [] else [⟨n, around⟩]

/-- A chord within some tuplets stands there as its first note. -/
def Chord.enclosed (c : Chord) (around : List Nat) : List Enclosed :=
  match c.notes with
  | [] => []
  | n :: _ => n.sounding.within around

mutual

/-- The notes of a tuplet, which is the next one to open within some others. -/
def Tuplet.enclosed (around : List Nat) (next : Nat) : Tuplet → List Enclosed
  | ⟨_, _, _, _, _, _, _, _, members, _⟩ =>
    enclosedInMembers (around ++ [next]) (next + 1) members

/-- The notes of a member of a tuplet. -/
def TupletMember.enclosed (around : List Nat) (next : Nat) : TupletMember → List Enclosed
  | .note n => n.sounding.within around
  | .chord c => c.enclosed around
  | .tuplet t => t.enclosed around next

/-- The notes of some members of a tuplet. -/
def enclosedInMembers (around : List Nat) (next : Nat) : List TupletMember → List Enclosed
  | [] => []
  | m :: ms =>
    m.enclosed around next ++ enclosedInMembers around (next + m.nodes.length) ms

end

/-- The notes of an element that stands in no tuplet. -/
def VoiceElement.enclosed (next : Nat) : VoiceElement → List Enclosed
  | .note n => n.sounding.within []
  | .chord c => c.enclosed []
  | .tuplet t => t.enclosed [] next
  | _ => []

/-- The notes of some elements. -/
def enclosedIn (next : Nat) : List VoiceElement → List Enclosed
  | [] => []
  | e :: es => e.enclosed next ++ enclosedIn (next + e.nodes.length) es

/-! ## Brackets read with a stack -/

/-- What brackets have said: which tuplets started, which of them are open, and every note with
those that were open around it. -/
@[ext]
structure Bracketing where
  starts : List Opening := []
  around : List Nat := []
  notes : List Enclosed := []

namespace Bracketing

/-- A tuplet opens. -/
def push (b : Bracketing) (o : Opening) : Bracketing :=
  { b with starts := b.starts ++ [o], around := b.around ++ [b.starts.length] }

/-- A note comes in. -/
def take (b : Bracketing) (n : Sounding) : Bracketing :=
  { b with notes := b.notes ++ n.within b.around }

/-- The innermost of the open tuplets close. -/
def pop (b : Bracketing) (count : Nat) : Bracketing :=
  { b with around := b.around.take (b.around.length - count) }

/-- One more letter is read. -/
def read (b : Bracketing) : Bracket → Bracketing
  | .opens o => b.push o
  | .sounds n => b.take n
  | .closes => b.pop 1
  | .hollow => b

/-- To close no bracket changes nothing. -/
theorem pop_zero (b : Bracketing) : b.pop 0 = b := by
  ext1 <;> simp [pop]

/-- Brackets that are closed one group after the other are closed at once. -/
theorem pop_pop (b : Bracketing) (m n : Nat) : (b.pop m).pop n = b.pop (m + n) := by
  ext1
  · rfl
  · simp only [pop, List.length_take, List.take_take]
    congr 1
    omega
  · rfl

/-- As many brackets fewer stand around as were closed, down to none. -/
theorem length_around_pop (b : Bracketing) (count : Nat) :
    (b.pop count).around.length = b.around.length - count := by
  simp [pop]

/-- A row of closing brackets closes that many tuplets. -/
theorem read_closings (b : Bracketing) (count : Nat) :
    (closings count).foldl read b = b.pop count := by
  induction count generalizing b with
  | zero => exact b.pop_zero.symm
  | succ count ih =>
    rw [closings, List.replicate_succ, List.foldl_cons]
    exact (ih _).trans ((b.pop_pop 1 count).trans (by rw [Nat.add_comm]))

/-- A row of opening brackets opens their tuplets one after the other. -/
theorem read_openings (b : Bracketing) (starts : List Opening) :
    (starts.map .opens).foldl read b = starts.foldl push b := by
  rw [List.foldl_map]
  rfl

/-- The starts of brackets that open come behind those that were there. -/
theorem starts_pushes (b : Bracketing) (starts : List Opening) :
    (starts.foldl push b).starts = b.starts ++ starts := by
  induction starts generalizing b with
  | nil => simp
  | cons o starts ih => simp [ih, push]

/-- As many brackets more stand around as opened. -/
theorem length_around_pushes (b : Bracketing) (starts : List Opening) :
    (starts.foldl push b).around.length = b.around.length + starts.length := by
  induction starts generalizing b with
  | nil => rfl
  | cons o starts ih =>
    rw [List.foldl_cons, ih, List.length_cons, push, List.length_append, List.length_singleton]
    omega

/-- Some tuplets and notes more, all in what is open, or closed again. -/
def extend (b : Bracketing) (nodes : List Tuplet) (notes : List Enclosed) : Bracketing :=
  { b with starts := b.starts ++ nodes.map Tuplet.opening, notes := b.notes ++ notes }

/-- Nothing that comes in changes nothing. -/
theorem extend_nil (b : Bracketing) : b.extend [] [] = b := by
  ext1 <;> simp [extend]

/-- What comes in one after the other comes in at once. -/
theorem extend_extend (b : Bracketing) (nodes nodes' : List Tuplet) (notes notes' : List Enclosed) :
    (b.extend nodes notes).extend nodes' notes' = b.extend (nodes ++ nodes') (notes ++ notes') := by
  ext1 <;> simp [extend]

/-- A note comes in with all that is open around it. -/
theorem read_note (b : Bracketing) (n : Note) :
    [Bracket.sounds n.sounding].foldl read b = b.extend [] (n.sounding.within b.around) := by
  ext1 <;> simp [read, take, extend]

/-- A chord comes in with all that is open around it. -/
theorem read_chord (b : Bracketing) (c : Chord) :
    c.word.foldl read b = b.extend [] (c.enclosed b.around) := by
  cases hnotes : c.notes with
  | nil =>
    rw [Chord.word, Chord.enclosed, hnotes]
    exact b.extend_nil.symm
  | cons n rest =>
    rw [Chord.word, Chord.enclosed, hnotes]
    exact b.read_note n

/-- A gap between tuplets leaves the brackets as they are. -/
theorem read_gap (b : Bracketing) (ms : List TupletMember) : (gap ms).foldl read b = b := by
  unfold gap
  split <;> rfl

mutual

/-- The word of a tuplet says which tuplets it holds, and its notes with the tuplets around them. -/
theorem read_tuplet (b : Bracketing) (t : Tuplet) :
    t.word.foldl read b = b.extend t.nodes (t.enclosed b.around b.starts.length) := by
  match t with
  | ⟨number, actual, normal, _, _, _, _, _, members, line⟩ =>
    rw [Tuplet.word, List.foldl_cons, List.foldl_append, List.foldl_append, read_gap, read_members]
    ext1 <;> simp [read, push, pop, extend, Tuplet.nodes, Tuplet.enclosed, Tuplet.opening]

/-- The word of a member says so of this member. -/
theorem read_member (b : Bracketing) (m : TupletMember) :
    m.word.foldl read b = b.extend m.nodes (m.enclosed b.around b.starts.length) := by
  match m with
  | .note n => exact b.read_note n
  | .chord c => exact b.read_chord c
  | .tuplet t => exact b.read_tuplet t

/-- The word of some members says so of them. -/
theorem read_members (b : Bracketing) (ms : List TupletMember) :
    (wordOfMembers ms).foldl read b =
      b.extend (nodesOfMembers ms) (enclosedInMembers b.around b.starts.length ms) := by
  match ms with
  | [] => exact b.extend_nil.symm
  | m :: ms =>
    rw [wordOfMembers, List.foldl_append, read_member, read_members, extend_extend,
      nodesOfMembers, enclosedInMembers]
    simp [extend]

end

/-- The word of an element says which tuplets it holds, and its notes with those around them. -/
theorem read_element (b : Bracketing) (e : VoiceElement) (h : b.around = []) :
    e.word.foldl read b = b.extend e.nodes (e.enclosed b.starts.length) := by
  cases e with
  | note n => rw [VoiceElement.enclosed, ← h]; exact b.read_note n
  | chord c => rw [VoiceElement.enclosed, ← h]; exact b.read_chord c
  | tuplet t => rw [VoiceElement.enclosed, ← h]; exact b.read_tuplet t
  | _ => exact b.extend_nil.symm

end Bracketing

/-- What a word says. -/
def bracketing (w : List Bracket) : Bracketing := w.foldl Bracketing.read {}

/-- Words are read one after the other. -/
theorem bracketing_append (v w : List Bracket) :
    bracketing (v ++ w) = w.foldl Bracketing.read (bracketing v) :=
  List.foldl_append

/-- **The word of some music** says which tuplets are in its tree, and all notes with the tuplets
around them. -/
theorem bracketing_wordOf (es : List VoiceElement) : bracketing (wordOf es) =
    { starts := (es.flatMap VoiceElement.nodes).map Tuplet.opening, notes := enclosedIn 0 es } := by
  have hall : ∀ b : Bracketing, b.around = [] → (wordOf es).foldl Bracketing.read b =
      b.extend (es.flatMap VoiceElement.nodes) (enclosedIn b.starts.length es) := by
    induction es with
    | nil => exact fun b _ => b.extend_nil.symm
    | cons e es ih =>
      intro b hb
      rw [wordOf, List.flatMap_cons, List.foldl_append, b.read_element e hb]
      refine (ih (b.extend e.nodes (e.enclosed b.starts.length)) hb).trans ?_
      rw [Bracketing.extend_extend, List.flatMap_cons, enclosedIn]
      simp [Bracketing.extend]
  exact hall {} rfl

mutual

/-- Where a word has no gaps, a tuplet and all that are inside it have members. -/
theorem Tuplet.members_of_full {t : Tuplet} (h : .hollow ∉ t.word) :
    ∀ x ∈ t.nodes, x.members ≠ [] := by
  match t with
  | ⟨_, _, _, _, _, _, _, _, members, _⟩ =>
    rw [Tuplet.word] at h
    simp only [List.mem_cons, List.mem_append, not_or] at h
    intro x hx
    rcases List.mem_cons.mp hx with rfl | hx
    · intro hnone
      have hmembers : members = [] := hnone
      simp [gap, hmembers] at h
    · exact members_of_full_members h.2.1.2 x hx

/-- Where a word has no gaps, all tuplets in a member have members. -/
theorem TupletMember.members_of_full {m : TupletMember} (h : .hollow ∉ m.word) :
    ∀ x ∈ m.nodes, x.members ≠ [] := by
  match m with
  | .note _ | .chord _ => exact fun x hx => nomatch hx
  | .tuplet t => exact Tuplet.members_of_full h

/-- Where a word has no gaps, all tuplets in some members have members. -/
theorem members_of_full_members {ms : List TupletMember} (h : .hollow ∉ wordOfMembers ms) :
    ∀ x ∈ nodesOfMembers ms, x.members ≠ [] := by
  match ms with
  | [] => exact fun x hx => nomatch hx
  | m :: ms =>
    rw [wordOfMembers, List.mem_append, not_or] at h
    intro x hx
    rcases List.mem_append.mp hx with hx | hx
    · exact m.members_of_full h.1 x hx
    · exact members_of_full_members h.2 x hx

end

/-- Where a word has no gaps, all tuplets in the music have members. -/
theorem members_of_full_wordOf {es : List VoiceElement} (h : .hollow ∉ wordOf es) :
    ∀ x ∈ es.flatMap VoiceElement.nodes, x.members ≠ [] := by
  intro x hx
  obtain ⟨e, he, hx⟩ := List.mem_flatMap.mp hx
  have hfull : .hollow ∉ e.word := fun hmem => h (List.mem_flatMap.mpr ⟨e, he, hmem⟩)
  cases e with
  | tuplet t => exact Tuplet.members_of_full hfull x hx
  | _ => exact nomatch hx

mutual

/-- Where a word has no gaps, a tuplet holds notes. -/
theorem Tuplet.notes_of_full {t : Tuplet} (h : .hollow ∉ t.word) : t.notes ≠ [] := by
  match t with
  | ⟨_, _, _, _, _, _, _, _, members, _⟩ =>
    rw [Tuplet.word] at h
    simp only [List.mem_cons, List.mem_append, not_or] at h
    refine notesOfMembers_of_full (fun hnone => ?_) h.2.1.2
    simp [gap, hnone] at h

/-- Where a word has no gaps, a member holds notes. -/
theorem TupletMember.notes_of_full {m : TupletMember} (h : .hollow ∉ m.word) : m.notes ≠ [] := by
  match m with
  | .note n => exact List.cons_ne_nil n []
  | .chord c =>
    intro hnone
    have hnotes : c.notes = [] := hnone
    simp [TupletMember.word, Chord.word, hnotes] at h
  | .tuplet t => exact Tuplet.notes_of_full h

/-- Where a word has no gaps, members hold notes. -/
theorem notesOfMembers_of_full {ms : List TupletMember} (hsome : ms ≠ [])
    (h : .hollow ∉ wordOfMembers ms) : notesOfMembers ms ≠ [] := by
  match ms with
  | [] => exact absurd rfl hsome
  | m :: ms =>
    rw [wordOfMembers, List.mem_append, not_or] at h
    rw [notesOfMembers]
    exact List.append_ne_nil_of_left_ne_nil (m.notes_of_full h.1) _

end

/-! ## Words while tuplets are open -/

/-- A word is what leads to a state of the stack, and then closes the tuplets that are open. -/
structure Written (word : List Bracket) (b : Bracketing) : Prop where
  cut : ∃ w, word = w ++ closings b.around.length ∧ bracketing w = b
  full : .hollow ∉ word

namespace Written

variable {word : List Bracket} {b : Bracketing}

/-- Without a word nothing was written. -/
theorem nil : Written [] {} := ⟨⟨[], rfl, rfl⟩, List.not_mem_nil⟩

/-- Where no tuplet is open, the word says all. -/
theorem bracketing_eq (h : Written word b) (hnone : b.around = []) : bracketing word = b := by
  obtain ⟨w, rfl, rfl⟩ := h.cut
  rw [hnone]
  simp [closings]

/-- A word stays written when open tuplets close. -/
theorem pop (h : Written word b) {count : Nat} (hcount : count ≤ b.around.length) :
    Written word (b.pop count) := by
  obtain ⟨⟨w, rfl, rfl⟩, hfull⟩ := h
  refine ⟨⟨w ++ closings count, ?_, ?_⟩, hfull⟩
  · rw [Bracketing.length_around_pop, List.append_assoc, closings, closings, closings,
      List.replicate_append_replicate]
    congr 2
    omega
  · rw [bracketing_append, Bracketing.read_closings]

/-- A note comes in after its padding and the tuplets that start with it. -/
theorem enter (h : Written word b) {w pads : List Bracket} {starts : List Opening} {n : Sounding}
    (hword : word = w ++ closings b.around.length)
    (hpads : ∀ x ∈ pads, ∃ rest : Sounding, rest.content.isInvisible = true ∧ x = .sounds rest) :
    Written (w ++ pads ++ starts.map .opens ++
      .sounds n :: closings (b.around.length + starts.length))
      ((starts.foldl Bracketing.push b).take n) := by
  obtain ⟨⟨w', hcut, hb⟩, hfull⟩ := h
  have hsame : w' = w := List.append_cancel_right (hcut.symm.trans hword)
  subst hsame
  have hsilent : pads.foldl Bracketing.read b = b := by
    induction pads with
    | nil => rfl
    | cons x pads ih =>
      obtain ⟨rest, hrest, rfl⟩ := hpads x List.mem_cons_self
      have hstep : b.read (.sounds rest) = b := by
        simp [Bracketing.read, Bracketing.take, Sounding.within, hrest]
      rw [List.foldl_cons, hstep]
      exact ih fun y hy => hpads y (List.mem_cons_of_mem _ hy)
  have hlength : ((starts.foldl Bracketing.push b).take n).around.length =
      b.around.length + starts.length :=
    Bracketing.length_around_pushes b starts
  refine ⟨⟨w' ++ pads ++ starts.map .opens ++ [.sounds n], ?_, ?_⟩, ?_⟩
  · rw [hlength]
    simp
  · rw [bracketing_append, bracketing_append, bracketing_append, hb, hsilent,
      Bracketing.read_openings]
    rfl
  · rw [hword] at hfull
    have hpads' : .hollow ∉ pads := by
      intro hmem
      obtain ⟨_, _, heq⟩ := hpads _ hmem
      exact nomatch heq
    simp only [List.mem_append, not_or] at hfull
    simp [hfull.1, hpads', closings]

end Written

end Partwise
