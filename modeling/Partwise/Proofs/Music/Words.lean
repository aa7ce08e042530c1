import Partwise.Voice.Chords

/-!
# Music · Words: music written with brackets

Music is written as a word: a note or rest as itself, a chord as its first note, and a tuplet as a
bracket that opens, what the tuplet holds, and a bracket that closes. So the word says what stands
in which tuplet, and in the order in which a document says it: the brackets open where tuplets
start, and a note is written where it is read. A member of a chord is not written, so it changes
nothing about the word (`word_joinLast`).
-/

namespace Partwise

/-! ## Brackets -/

/-- What a document says of a tuplet that starts. -/
structure Opening where
  number : Nat
  actualNotes : Nat
  normalNotes : Nat
  line : Nat
deriving DecidableEq, Repr

/-- What is known of a note or rest that takes time of its own. -/
structure Sounding where
  content : NoteContent
  line : Nat
  length : WholeNotes
deriving DecidableEq, Repr

/-- A letter of the word that music is written as. -/
inductive Bracket where
  | opens (o : Opening)
  | sounds (n : Sounding)
  | closes
  /-- A chord without notes or a tuplet without members; a document never gives rise to one. -/
  | hollow
deriving DecidableEq, Repr

/-- A number of tuplets close. -/
def closings (count : Nat) : List Bracket := List.replicate count .closes

/-! ## Words -/

/-- What is known of a note as one that takes time of its own. -/
def Note.sounding (n : Note) : Sounding := ⟨n.content, n.line, n.soundingWholeNotes⟩

/-- What a tuplet started with. -/
def Tuplet.opening (t : Tuplet) : Opening := ⟨t.number, t.actualNotes, t.normalNotes, t.line⟩

/-- A chord is written as its first note. -/
def Chord.word (c : Chord) : List Bracket :=
  match c.notes with
  | [] => [.hollow]
  | n :: _ => [.sounds n.sounding]

/-- What is written before the members of a tuplet: nothing, if there are any. -/
def gap (ms : List TupletMember) : List Bracket := if ms.isEmpty then [.hollow] else []

mutual

/-- A tuplet is written as what it holds, in brackets. -/
def Tuplet.word : Tuplet → List Bracket
  | ⟨number, actual, normal, _, _, _, _, _, members, line⟩ =>
    .opens ⟨number, actual, normal, line⟩ :: (gap members ++ wordOfMembers members ++ [.closes])

/-- A member of a tuplet is written as what it is. -/
def TupletMember.word : TupletMember → List Bracket
  | .note n => [.sounds n.sounding]
  | .chord c => c.word
  | .tuplet t => t.word

/-- Members of a tuplet are written one after the other. -/
def wordOfMembers : List TupletMember → List Bracket
  | [] => []
  | m :: ms => m.word ++ wordOfMembers ms

end

/-- An element is written as what it is; what takes no time is not written. -/
def VoiceElement.word : VoiceElement → List Bracket
  | .note n => [.sounds n.sounding]
  | .chord c => c.word
  | .tuplet t => t.word
  | _ => []

/-- Elements are written one after the other. -/
def wordOf (es : List VoiceElement) : List Bracket := es.flatMap VoiceElement.word

/-- There is no gap where a tuplet has members. -/
theorem gap_eq_nil {ms : List TupletMember} (h : ms ≠ []) : gap ms = [] :=
  if_neg (by simpa using h)

/-- The word of a tuplet with members opens, goes through the members and closes. -/
theorem Tuplet.word_eq {t : Tuplet} (h : t.members ≠ []) :
    t.word = .opens t.opening :: (wordOfMembers t.members ++ [.closes]) := by
  cases t with
  | mk => rw [word, gap_eq_nil h]; rfl

/-- The word of some members and then of others is that of all of them. -/
@[simp] theorem wordOfMembers_append (ms ns : List TupletMember) :
    wordOfMembers (ms ++ ns) = wordOfMembers ms ++ wordOfMembers ns := by
  induction ms with
  | nil => rfl
  | cons m ms ih => simp [wordOfMembers, ih]

/-- The word of some elements and then of others is that of all of them. -/
@[simp] theorem wordOf_append (as bs : List VoiceElement) : wordOf (as ++ bs) = wordOf as ++ wordOf bs :=
  List.flatMap_append

/-! ## Members of chords -/

/-- A chord that has a first note keeps it. -/
theorem Chord.word_absorb {c : Chord} (n : Note) (h : .hollow ∉ c.word) :
    (c.absorb n).word = c.word := by
  cases hnotes : c.notes with
  | nil => simp [word, hnotes] at h
  | cons first rest => simp [word, absorb, hnotes]

/-- The first of two notes is the one that the chord is written as. -/
theorem Chord.word_ofPair (first n : Note) : (Chord.ofPair first n).word = [.sounds first.sounding] :=
  rfl

/-- A result that was made of another one is there only if that one is. -/
theorem of_map_eq_ok {ε α β : Type} {x : Except ε α} {f : α → β} {b : β} (h : x.map f = .ok b) :
    ∃ a, x = .ok a ∧ b = f a := by
  cases x with
  | error failure => exact nomatch h
  | ok a =>
    cases h
    exact ⟨a, rfl, rfl⟩

/-- A note joins members only where there are any. -/
theorem ne_nil_of_joinLastMember {n : Note} {chordOpen : Bool} {ms ms' : List TupletMember}
    (h : joinLastMember n chordOpen ms = .ok ms') : ms ≠ [] ∧ ms' ≠ [] := by
  match ms with
  | [] => exact nomatch h
  | [m] =>
    unfold joinLastMember at h
    obtain ⟨m', _, rfl⟩ := of_map_eq_ok h
    exact ⟨List.cons_ne_nil _ _, List.cons_ne_nil _ _⟩
  | m :: next :: ms =>
    unfold joinLastMember at h
    obtain ⟨rest, _, rfl⟩ := of_map_eq_ok h
    exact ⟨List.cons_ne_nil _ _, List.cons_ne_nil _ _⟩

/-- A note joins a tuplet only if that has members. -/
theorem Tuplet.members_ne_nil_of_join {n : Note} {chordOpen : Bool} {t t' : Tuplet}
    (h : t.join n chordOpen = .ok t') : t.members ≠ [] ∧ t'.members ≠ [] := by
  match t with
  | ⟨_, _, _, _, _, _, _, _, members, _⟩ =>
    unfold Tuplet.join at h
    obtain ⟨joined, hjoined, rfl⟩ := of_map_eq_ok h
    exact ne_nil_of_joinLastMember hjoined

mutual

/-- A member that is joined by a note is written as before. -/
theorem TupletMember.word_join {n : Note} {chordOpen : Bool} {m m' : TupletMember}
    (h : m.join n chordOpen = .ok m') (hfull : .hollow ∉ m.word) : m'.word = m.word := by
  match m with
  | .note first =>
    unfold TupletMember.join at h
    split at h
    · exact nomatch h
    · cases h
      exact Chord.word_ofPair first n
  | .chord c =>
    unfold TupletMember.join at h
    split at h
    · cases h
      exact Chord.word_absorb n hfull
    · exact nomatch h
  | .tuplet t =>
    unfold TupletMember.join at h
    obtain ⟨t', ht, rfl⟩ := of_map_eq_ok h
    exact Tuplet.word_join ht hfull

/-- A tuplet that is joined by a note is written as before. -/
theorem Tuplet.word_join {n : Note} {chordOpen : Bool} {t t' : Tuplet}
    (h : t.join n chordOpen = .ok t') (hfull : .hollow ∉ t.word) : t'.word = t.word := by
  match t with
  | ⟨_, _, _, _, _, _, _, _, members, _⟩ =>
    unfold Tuplet.join at h
    obtain ⟨joined, hjoined, rfl⟩ := of_map_eq_ok h
    have hmembers : .hollow ∉ wordOfMembers members := by
      intro hmem
      simp [Tuplet.word, hmem] at hfull
    obtain ⟨hsome, hsome'⟩ := ne_nil_of_joinLastMember hjoined
    simp only [Tuplet.word, gap_eq_nil hsome, gap_eq_nil hsome', word_joinLastMember hjoined hmembers]

/-- Members of which the last is joined by a note are written as before. -/
theorem word_joinLastMember {n : Note} {chordOpen : Bool} {ms ms' : List TupletMember}
    (h : joinLastMember n chordOpen ms = .ok ms') (hfull : .hollow ∉ wordOfMembers ms) :
    wordOfMembers ms' = wordOfMembers ms := by
  match ms with
  | [] => exact nomatch h
  | [m] =>
    unfold joinLastMember at h
    obtain ⟨m', hm, rfl⟩ := of_map_eq_ok h
    have hlast : .hollow ∉ m.word := by simpa [wordOfMembers] using hfull
    simp [wordOfMembers, TupletMember.word_join hm hlast]
  | m :: next :: ms =>
    unfold joinLastMember at h
    obtain ⟨rest, hrest, rfl⟩ := of_map_eq_ok h
    have hlater : .hollow ∉ wordOfMembers (next :: ms) := by
      intro hmem
      rw [wordOfMembers] at hfull
      exact hfull (List.mem_append_right _ hmem)
    rw [wordOfMembers, wordOfMembers, word_joinLastMember hrest hlater]

end

/-- An element that is joined by a note is written as before. -/
theorem VoiceElement.word_join {n : Note} {chordOpen : Bool} {e e' : VoiceElement}
    (h : e.join n chordOpen = .ok e') (hfull : .hollow ∉ e.word) : e'.word = e.word := by
  unfold VoiceElement.join at h
  split at h
  · split at h
    · exact nomatch h
    · cases h
      exact Chord.word_ofPair _ n
  · split at h
    · cases h
      exact Chord.word_absorb n hfull
    · exact nomatch h
  · obtain ⟨t', ht, rfl⟩ := of_map_eq_ok h
    exact Tuplet.word_join ht hfull
  · exact nomatch h

end Partwise
