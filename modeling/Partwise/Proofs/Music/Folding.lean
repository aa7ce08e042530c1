import Mathlib.Algebra.Ring.Rat
import Partwise.Proofs.Music.Content

/-!
# Music · Folding: chords and tuplets keep the notes they take in

A chord member is folded into what stands last, and a tuplet holds its notes outside of its voice
until it is closed. `Voice.joins_joinChord` and `joins_openMusic` say that a chord member comes
last and changes no length. Open tuplets count as the one tuplet that they would be if they were
closed now (`openMusic`): closing them one by one does not change it, and a note in the innermost
one is a note at the end of it (`receives_openMusic`).
-/

namespace Partwise

/-! ## Chord members -/

/-- The notes as imprints, with one more at the end. -/
def AddsImprint (n : Note) (notes notes' : List Note) : Prop :=
  ∃ position, notes'.map Note.imprint =
    notes.map Note.imprint ++ [⟨n.content, n.line, position⟩]

/-- Notes that stand before are no obstacle. -/
theorem AddsImprint.prepend {n : Note} {notes notes' : List Note} (h : AddsImprint n notes notes')
    (before : List Note) : AddsImprint n (before ++ notes) (before ++ notes') := by
  obtain ⟨position, heq⟩ := h
  exact ⟨position, by simp [heq]⟩

/-- A chord that takes in a note has that note last. -/
theorem Chord.addsImprint_absorb (c : Chord) (n : Note) :
    AddsImprint n c.notes (c.absorb n).notes :=
  ⟨c.positionInMeasure, by simp [absorb, Note.imprint]⟩

/-- The chord of two notes has the second one last. -/
theorem Chord.addsImprint_ofPair (first n : Note) :
    AddsImprint n [first] (Chord.ofPair first n).notes :=
  ⟨first.positionInMeasure, by simp [ofPair, ofFirst, absorb, Note.imprint]⟩

/-! ## Tuplets -/

namespace Tuplet

/-- The voice of a tuplet. -/
def key (t : Tuplet) : VoiceKey := ⟨t.staffNumber, t.voiceNumber⟩

/-- The notes of a tuplet are those of its members. -/
theorem notes_eq (t : Tuplet) : t.notes = notesOfMembers t.members := by
  cases t
  rfl

/-- A tuplet sounds as long as its members together. -/
theorem sounding_eq (t : Tuplet) : t.soundingWholeNotes = soundingOfMembers t.members := by
  cases t
  rfl

/-- A tuplet that holds its notes otherwise, and sounds longer by a duration: it stands where it
stood and belongs to the same voice. -/
structure Grows (change : List Note → List Note → Prop) (longer : WholeNotes) (t t' : Tuplet) :
    Prop where
  notes : change t.notes t'.notes
  length : t'.soundingWholeNotes = t.soundingWholeNotes + longer
  position : t'.positionInMeasure = t.positionInMeasure
  key : t'.key = t.key
  members : t'.members ≠ []

end Tuplet

/-- The notes of some members and then of others are those of all of them. -/
@[simp] theorem notesOfMembers_append (ms ns : List TupletMember) :
    notesOfMembers (ms ++ ns) = notesOfMembers ms ++ notesOfMembers ns := by
  induction ms with
  | nil => rfl
  | cons m ms ih => simp [notesOfMembers, ih]

/-- Some members and then others sound as long as all of them. -/
@[simp] theorem soundingOfMembers_append (ms ns : List TupletMember) :
    soundingOfMembers (ms ++ ns) = soundingOfMembers ms + soundingOfMembers ns := by
  induction ms with
  | nil => simp [soundingOfMembers]
  | cons m ms ih => simp [soundingOfMembers, ih, Rat.add_assoc]

mutual

/-- A member that is joined takes in the note and sounds as long as before. -/
theorem TupletMember.of_join {n : Note} {chordOpen : Bool} {m m' : TupletMember}
    (h : m.join n chordOpen = .ok m') :
    AddsImprint n m.notes m'.notes ∧ m'.soundingWholeNotes = m.soundingWholeNotes := by
  match m with
  | .note first =>
    unfold TupletMember.join at h
    split at h
    · exact nomatch h
    · cases h
      exact ⟨Chord.addsImprint_ofPair first n, rfl⟩
  | .chord c =>
    unfold TupletMember.join at h
    split at h
    · cases h
      exact ⟨c.addsImprint_absorb n, rfl⟩
    · exact nomatch h
  | .tuplet t =>
    unfold TupletMember.join at h
    obtain ⟨t', ht, rfl⟩ := of_map_eq_ok h
    have hgrows := Tuplet.of_join ht
    exact ⟨hgrows.notes, hgrows.length.trans (Rat.add_zero _)⟩

/-- A tuplet that is joined takes in the note and sounds as long as before. -/
theorem Tuplet.of_join {n : Note} {chordOpen : Bool} {t t' : Tuplet}
    (h : t.join n chordOpen = .ok t') : t.Grows (AddsImprint n) 0 t' := by
  match t with
  | ⟨_, _, _, _, _, _, _, _, members, _⟩ =>
    unfold Tuplet.join at h
    obtain ⟨joined, hjoined, rfl⟩ := of_map_eq_ok h
    obtain ⟨hnotes, hlength, hmembers⟩ := of_joinLastMember hjoined
    exact ⟨hnotes, hlength.trans (Rat.add_zero _).symm, rfl, rfl, hmembers⟩

/-- Members of which the last is joined take in the note and sound as long as before. -/
theorem of_joinLastMember {n : Note} {chordOpen : Bool} {ms ms' : List TupletMember}
    (h : joinLastMember n chordOpen ms = .ok ms') :
    AddsImprint n (notesOfMembers ms) (notesOfMembers ms') ∧
      soundingOfMembers ms' = soundingOfMembers ms ∧ ms' ≠ [] := by
  match ms with
  | [] => exact nomatch h
  | [m] =>
    unfold joinLastMember at h
    obtain ⟨m', hm, rfl⟩ := of_map_eq_ok h
    obtain ⟨hnotes, hlength⟩ := TupletMember.of_join hm
    refine ⟨?_, by simp [soundingOfMembers, hlength], by simp⟩
    simpa [notesOfMembers] using hnotes
  | m :: next :: ms =>
    unfold joinLastMember at h
    obtain ⟨rest, hrest, rfl⟩ := of_map_eq_ok h
    obtain ⟨hnotes, hlength, _⟩ := of_joinLastMember hrest
    refine ⟨?_, ?_, by simp⟩
    · rw [notesOfMembers, notesOfMembers]
      exact hnotes.prepend m.notes
    · rw [soundingOfMembers, hlength]
      rfl

end

/-! ## Voices joined by a note -/

/-- An element that is joined takes time before and after. -/
theorem VoiceElement.of_join {n : Note} {chordOpen : Bool} {e e' : VoiceElement}
    (h : e.join n chordOpen = .ok e') :
    timed e.flatten = [e] ∧ timed e'.flatten = [e'] ∧ Joins n [e] [e'] := by
  have hword : .hollow ∉ wordOf [e] → wordOf [e'] = wordOf [e] := by
    simpa [wordOf] using VoiceElement.word_join h
  unfold VoiceElement.join at h
  split at h
  · split at h
    · cases h
    · obtain ⟨position, heq⟩ := Chord.addsImprint_ofPair _ n
      cases h
      exact ⟨rfl, rfl, ⟨position, by simpa [imprints, VoiceElement.notes] using heq⟩, rfl, hword⟩
  · next c =>
    split at h
    · obtain ⟨position, heq⟩ := c.addsImprint_absorb n
      cases h
      exact ⟨rfl, rfl, ⟨position, by simpa [imprints, VoiceElement.notes] using heq⟩, rfl, hword⟩
    · cases h
  · next t =>
    obtain ⟨t', ht, rfl⟩ := of_map_eq_ok h
    have hgrows := Tuplet.of_join ht
    obtain ⟨position, heq⟩ := hgrows.notes
    refine ⟨rfl, rfl, ⟨position, by simpa [imprints, VoiceElement.notes] using heq⟩, ?_, hword⟩
    simp [spans, VoiceElement.span, hgrows.position, hgrows.length]
  · cases h

/-- Elements of which the last is joined keep all others. -/
theorem joins_joinLast {n : Note} {chordOpen : Bool} {es es' : List VoiceElement}
    (h : joinLast n chordOpen es = .ok es') :
    Joins n (timed (flattenElements es)) (timed (flattenElements es')) := by
  induction es generalizing es' with
  | nil => exact nomatch h
  | cons e es ih =>
    cases es with
    | nil =>
      obtain ⟨e', he, rfl⟩ := of_map_eq_ok h
      obtain ⟨hbefore, hafter, hjoins⟩ := VoiceElement.of_join he
      simpa [flattenElements, hbefore, hafter] using hjoins
    | cons next es =>
      obtain ⟨rest, hrest, rfl⟩ := of_map_eq_ok h
      have hcons : ∀ xs, timed (flattenElements (e :: xs)) =
          timed e.flatten ++ timed (flattenElements xs) := fun xs => timed_append ..
      rw [hcons, hcons]
      exact (ih hrest).prepend _

/-- Some elements with the last one joined by a note. -/
def JoinsLast (n : Note) (es es' : List VoiceElement) : Prop :=
  ∃ before e e' chordOpen, es = before ++ [e] ∧ es' = before ++ [e'] ∧ e.join n chordOpen = .ok e'

/-- Elements that stand before are no obstacle. -/
theorem JoinsLast.prepend {n : Note} {es es' : List VoiceElement} (h : JoinsLast n es es')
    (before : List VoiceElement) : JoinsLast n (before ++ es) (before ++ es') := by
  obtain ⟨others, e, e', chordOpen, rfl, rfl, hjoin⟩ := h
  exact ⟨before ++ others, e, e', chordOpen, (List.append_assoc ..).symm,
    (List.append_assoc ..).symm, hjoin⟩

/-- Elements of which the last is joined keep it in its place. -/
theorem joinsLast_joinLast {n : Note} {chordOpen : Bool} {es es' : List VoiceElement}
    (h : joinLast n chordOpen es = .ok es') :
    JoinsLast n (timed (flattenElements es)) (timed (flattenElements es')) := by
  induction es generalizing es' with
  | nil => exact nomatch h
  | cons e es ih =>
    have hcons : ∀ xs, timed (flattenElements (e :: xs)) =
        timed e.flatten ++ timed (flattenElements xs) := fun xs => timed_append ..
    cases es with
    | nil =>
      obtain ⟨e', he, rfl⟩ := of_map_eq_ok h
      obtain ⟨hbefore, hafter, -⟩ := VoiceElement.of_join he
      exact ⟨[], e, e', chordOpen, by simp [flattenElements, hbefore],
        by simp [flattenElements, hafter], he⟩
    | cons next es =>
      obtain ⟨rest, hrest, rfl⟩ := of_map_eq_ok h
      rw [hcons, hcons]
      exact (ih hrest).prepend _

/-- A chord member joins the last element of the music of its voice. -/
theorem Voice.joinsLast {v v' : Voice} {n : Note} {chordOpen : Bool}
    (h : v.joinChord n chordOpen = .ok v') : JoinsLast n v.music v'.music := by
  obtain ⟨chunk, hchunk, rfl⟩ := of_map_eq_ok h
  simp only [music, flatten_eq, timed_append]
  exact (joinsLast_joinLast hchunk).prepend _

/-- A chord member joins the music of its voice and changes nothing else of the voice. -/
theorem Voice.of_joinChord {v v' : Voice} {n : Note} {chordOpen : Bool}
    (h : v.joinChord n chordOpen = .ok v') :
    Joins n v.music v'.music ∧ v'.key = v.key ∧ v'.positionInMeasure = v.positionInMeasure := by
  obtain ⟨chunk, hchunk, rfl⟩ := of_map_eq_ok h
  refine ⟨?_, rfl, rfl⟩
  have hjoins := joins_joinLast hchunk
  simp only [music, flatten_eq, timed_append]
  exact hjoins.prepend _

/-! ## Open tuplets -/

namespace Tuplet

/-- A tuplet within the ones around it, from the inside to the outside, once all are closed. -/
def within (t : Tuplet) : List Tuplet → Tuplet
  | [] => t
  | next :: outer => (next.append (.tuplet t)).within outer

variable {t t' : Tuplet} {n : Note}

/-- To stand within some tuplets and these within others is to stand within all of them. -/
theorem within_append (t : Tuplet) (as bs : List Tuplet) :
    t.within (as ++ bs) = (t.within as).within bs := by
  induction as generalizing t with
  | nil => rfl
  | cons a as ih => exact ih _

/-- A member that comes to a tuplet brings its notes behind the others. -/
@[simp] theorem notes_append (t : Tuplet) (m : TupletMember) :
    (t.append m).notes = t.notes ++ m.notes := by
  simp [notes_eq, append, notesOfMembers]

/-- A tuplet sounds longer by the member that comes to it. -/
@[simp] theorem sounding_append (t : Tuplet) (m : TupletMember) :
    (t.append m).soundingWholeNotes = t.soundingWholeNotes + m.soundingWholeNotes := by
  simp [sounding_eq, append, soundingOfMembers]

/-- What grows inside of a tuplet makes it grow. -/
theorem Grows.append_tuplet {change : List Note → List Note → Prop} {longer : WholeNotes}
    (h : t.Grows change longer t')
    (hchange : ∀ before ns ns', change ns ns' → change (before ++ ns) (before ++ ns'))
    (next : Tuplet) :
    (next.append (.tuplet t)).Grows change longer (next.append (.tuplet t')) := by
  refine ⟨?_, ?_, rfl, rfl, by simp [append]⟩
  · rw [notes_append, notes_append]
    exact hchange _ _ _ h.notes
  · rw [sounding_append, sounding_append, TupletMember.soundingWholeNotes, h.length]
    simp [TupletMember.soundingWholeNotes, Rat.add_assoc]

/-- A tuplet grows as the tuplet inside of it does. -/
theorem Grows.within {change : List Note → List Note → Prop} {longer : WholeNotes}
    (h : t.Grows change longer t')
    (hchange : ∀ before ns ns', change ns ns' → change (before ++ ns) (before ++ ns'))
    (outer : List Tuplet) : (t.within outer).Grows change longer (t'.within outer) := by
  induction outer generalizing t t' with
  | nil => exact h
  | cons next outer ih => exact ih (h.append_tuplet hchange next)

/-- A tuplet grows by a note that it takes in, and by the length of that note. -/
theorem grows_append_note (t : Tuplet) (n : Note) :
    t.Grows (fun ns ns' => ns' = ns ++ [n]) n.soundingWholeNotes (t.append (.note n)) :=
  ⟨by simp [TupletMember.notes], by simp [TupletMember.soundingWholeNotes], rfl, rfl,
    by simp [append]⟩

/-- A tuplet that takes in another one which holds nothing but a note. -/
theorem grows_append_tuplet (t : Tuplet) {inner : Tuplet} (hnotes : inner.notes = [n])
    (hlength : inner.soundingWholeNotes = n.soundingWholeNotes) :
    t.Grows (fun ns ns' => ns' = ns ++ [n]) n.soundingWholeNotes (t.append (.tuplet inner)) :=
  ⟨by simp [TupletMember.notes, hnotes], by simp [TupletMember.soundingWholeNotes, hlength], rfl,
    rfl, by simp [append]⟩

end Tuplet

/-- What open tuplets, the innermost first, amount to: the one tuplet that they are once they are
closed. -/
def openMusic : List Tuplet → List VoiceElement
  | [] => []
  | t :: outer => [.tuplet (t.within outer)]

/-- A tuplet that holds one note and nothing else, and begins with it. -/
structure Tuplet.HoldsOnly (n : Note) (t : Tuplet) : Prop where
  notes : t.notes = [n]
  length : t.soundingWholeNotes = n.soundingWholeNotes
  position : t.positionInMeasure = n.positionInMeasure

/-- Tuplets that have just opened at the position of a note hold only this note once it has come
into the innermost. -/
theorem Tuplet.holdsOnly_within {n : Note} {t : Tuplet} (h : t.HoldsOnly n) {news : List Tuplet}
    (hnews : ∀ u ∈ news, u.members = [] ∧ u.positionInMeasure = n.positionInMeasure) :
    (t.within news).HoldsOnly n := by
  induction news generalizing t with
  | nil => exact h
  | cons u news ih =>
    obtain ⟨hmembers, hposition⟩ := hnews u List.mem_cons_self
    refine ih ⟨?_, ?_, hposition⟩ fun v hv => hnews v (List.mem_cons_of_mem _ hv)
    · simp [notes_eq u, hmembers, notesOfMembers, TupletMember.notes, h.notes]
    · simp [sounding_eq u, hmembers, soundingOfMembers, TupletMember.soundingWholeNotes, h.length]

/-- A note that comes into the innermost tuplet comes last in what the open tuplets amount to. Some
of them, `news`, may just have opened for this note. -/
theorem receives_openMusic {n : Note} {t : Tuplet} {rest news old : List Tuplet}
    (h : t :: rest = news ++ old)
    (hnews : ∀ u ∈ news, u.members = [] ∧ u.positionInMeasure = n.positionInMeasure) :
    Receives n (openMusic old) (openMusic (t.append (.note n) :: rest)) := by
  have hconcat : ∀ (before : List Note) (ns ns' : List Note),
      ns' = ns ++ [n] → before ++ ns' = (before ++ ns) ++ [n] := by
    intro before ns ns' heq
    rw [heq, List.append_assoc]
  have hmore : ∀ {u u' : Tuplet},
      u.Grows (fun ns ns' => ns' = ns ++ [n]) n.soundingWholeNotes u' →
      Receives n [.tuplet u] [.tuplet u'] := by
    intro u u' hgrows
    have hspan : (VoiceElement.tuplet u').span = ⟨(VoiceElement.tuplet u).span.position,
        (VoiceElement.tuplet u).span.length + n.soundingWholeNotes⟩ := by
      simp [VoiceElement.span, hgrows.position, hgrows.length]
    exact Receives.more_alone hgrows.notes hspan
  cases news with
  | nil =>
    rw [List.nil_append] at h
    subst h
    exact hmore ((t.grows_append_note n).within hconcat rest)
  | cons u news =>
    rw [List.cons_append] at h
    obtain ⟨rfl, rfl⟩ := List.cons.inj h
    obtain ⟨hmembers, hposition⟩ := hnews t List.mem_cons_self
    have hfirst : (t.append (.note n)).HoldsOnly n :=
      ⟨by simp [Tuplet.notes_eq t, hmembers, notesOfMembers, TupletMember.notes],
        by simp [Tuplet.sounding_eq t, hmembers, soundingOfMembers,
          TupletMember.soundingWholeNotes], hposition⟩
    have hall := Tuplet.holdsOnly_within hfirst
      fun v hv => hnews v (List.mem_cons_of_mem _ hv)
    rw [openMusic, Tuplet.within_append]
    cases old with
    | nil =>
      refine Receives.new_alone hall.notes ?_
      simp [VoiceElement.span, Tuplet.within, hall.position, hall.length]
    | cons v outer =>
      exact hmore ((v.grows_append_tuplet hall.notes hall.length).within hconcat outer)

/-- The word of open tuplets, as far as it is written. -/
def openWord : List Tuplet → List Bracket
  | [] => []
  | t :: outer => openWord outer ++ .opens t.opening :: wordOfMembers t.members

/-- A tuplet within others is written as far as it is open, and then all of them close. -/
theorem Tuplet.word_within {t : Tuplet} (h : t.members ≠ []) (outer : List Tuplet) :
    (t.within outer).word = openWord (t :: outer) ++ closings (t :: outer).length := by
  induction outer generalizing t with
  | nil => simp [within, word_eq h, openWord, closings]
  | cons next outer ih =>
    have hnext : (next.append (.tuplet t)).members ≠ [] := by simp [Tuplet.append]
    rw [within, ih hnext]
    simp [openWord, closings, Tuplet.append, wordOfMembers, TupletMember.word, word_eq h, opening,
      List.replicate_succ]

/-- Open tuplets are written as far as they are open, and then all of them close. -/
theorem wordOf_openMusic {tuplets : List Tuplet}
    (h : ∀ t, tuplets.head? = some t → t.members ≠ []) :
    wordOf (openMusic tuplets) = openWord tuplets ++ closings tuplets.length := by
  cases tuplets with
  | nil => rfl
  | cons t outer =>
    simpa [openMusic, wordOf, VoiceElement.word] using Tuplet.word_within (h t rfl) outer

/-- Of the innermost tuplet only its word matters. -/
theorem openWord_congr {t t' : Tuplet} (ht : t.members ≠ []) (ht' : t'.members ≠ [])
    (outer : List Tuplet) (h : t'.word = t.word) :
    openWord (t' :: outer) = openWord (t :: outer) := by
  rw [Tuplet.word_eq ht, Tuplet.word_eq ht'] at h
  obtain ⟨hopening, hmembers⟩ := List.cons.inj h
  rw [openWord, openWord, hopening, List.append_cancel_right hmembers]

/-- A note in the innermost tuplet is written behind all that is open. -/
theorem openWord_append_note (t : Tuplet) (outer : List Tuplet) (n : Note) :
    openWord (t.append (.note n) :: outer) = openWord (t :: outer) ++ [.sounds n.sounding] := by
  simp [openWord, Tuplet.append, wordOfMembers, TupletMember.word, Tuplet.opening]

/-- Tuplets that have just opened are written as what opens them, the outermost first. -/
theorem openWord_news {news old : List Tuplet} (hnews : ∀ x ∈ news, x.members = []) :
    openWord (news ++ old) = openWord old ++ (news.map Tuplet.opening).reverse.map .opens := by
  induction news with
  | nil => simp
  | cons t news ih =>
    have hrest := ih fun x hx => hnews x (List.mem_cons_of_mem _ hx)
    simp [openWord, hrest, hnews t List.mem_cons_self, wordOfMembers]

/-- Of some members the last is joined. -/
theorem joinLastMember_concat (n : Note) (chordOpen : Bool) (ms : List TupletMember)
    (m : TupletMember) :
    joinLastMember n chordOpen (ms ++ [m]) = (m.join n chordOpen).map fun m' => ms ++ [m'] := by
  induction ms with
  | nil => rfl
  | cons first ms ih =>
    obtain ⟨next, rest, hrest⟩ := List.exists_cons_of_ne_nil (List.concat_ne_nil m ms)
    rw [List.cons_append, hrest, joinLastMember, ← hrest, ih]
    · cases m.join n chordOpen <;> rfl
    · simp

/-- A note that joins the innermost tuplet joins what it is once all have closed. -/
theorem Tuplet.join_within {n : Note} {chordOpen : Bool} {t t' : Tuplet}
    (h : t.join n chordOpen = .ok t') (outer : List Tuplet) :
    (t.within outer).join n chordOpen = .ok (t'.within outer) := by
  induction outer generalizing t t' with
  | nil => exact h
  | cons next outer ih =>
    refine ih ?_
    have hjoin : (next.append (.tuplet t)).join n chordOpen = (joinLastMember n chordOpen
        (next.members ++ [.tuplet t])).map fun members => { next with members } := rfl
    rw [hjoin, joinLastMember_concat, TupletMember.join, h]
    rfl

/-- A note that joins the innermost open tuplet joins the last element of what the open tuplets
amount to. -/
theorem joinsLast_openMusic {n : Note} {chordOpen : Bool} {t t' : Tuplet} {outer : List Tuplet}
    (h : t.join n chordOpen = .ok t') :
    JoinsLast n (openMusic (t :: outer)) (openMusic (t' :: outer)) := by
  refine ⟨[], .tuplet (t.within outer), .tuplet (t'.within outer), chordOpen, rfl, rfl, ?_⟩
  rw [VoiceElement.join, Tuplet.join_within h outer]
  rfl

/-- A note that joins the chord in the innermost tuplet joins what the open tuplets amount to. -/
theorem joins_openMusic {n : Note} {chordOpen : Bool} {t t' : Tuplet} {outer : List Tuplet}
    (h : t.join n chordOpen = .ok t') :
    Joins n (openMusic (t :: outer)) (openMusic (t' :: outer)) := by
  have hgrows := (Tuplet.of_join h).within (fun before _ _ hadds => hadds.prepend before) outer
  obtain ⟨position, heq⟩ := hgrows.notes
  refine ⟨⟨position, by simpa [openMusic, imprints, VoiceElement.notes] using heq⟩, ?_, ?_⟩
  · simp [openMusic, spans, VoiceElement.span, hgrows.position, hgrows.length]
  · intro hfull
    obtain ⟨hsome, hsome'⟩ := Tuplet.members_ne_nil_of_join h
    have hword : wordOf (openMusic (t :: outer)) =
        openWord (t :: outer) ++ closings (t :: outer).length :=
      wordOf_openMusic fun _ heq => Option.some.inj heq ▸ hsome
    have hword' : wordOf (openMusic (t' :: outer)) =
        openWord (t' :: outer) ++ closings (t' :: outer).length :=
      wordOf_openMusic fun _ heq => Option.some.inj heq ▸ hsome'
    have hmembers : .hollow ∉ wordOfMembers t.members := by
      intro hmem
      rw [hword, openWord] at hfull
      exact hfull (by simp [hmem])
    have hinner : .hollow ∉ t.word := by simpa [Tuplet.word_eq hsome] using hmembers
    rw [hword, hword', openWord_congr hsome hsome' outer (Tuplet.word_join h hinner)]
    rfl

end Partwise
