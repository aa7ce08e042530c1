import Mathlib.Data.List.Nodup
import Partwise.Proofs.Music.Conservation
import Partwise.Proofs.Music.Stacking

/-!
# Music · Tuplets: the tuplets of a score are those that its document marks

`Document.tuplets_nest` says of every document that is read what its tuplets are. The tuplets in the
trees of the score are the marks that start them, each exactly once. In every voice they stand in
the order of these marks, and around every note are those that are open when it joins, by the stack
that the marks are read with. None is empty, and none is left
open. -/

namespace Partwise

open Markup

variable {settings : Settings} {m : Moment} {ms : List Moment} {id : String} {key : VoiceKey}

/-! ## Tuplets of voices and scores -/

/-- The tuplets of a voice, in the order in which they open. -/
def Voice.tuplets (v : Voice) : List Tuplet := v.music.flatMap VoiceElement.nodes

/-- The notes of a voice that are no members of chords, each with the tuplets around it. -/
def Voice.enclosed (v : Voice) : List Enclosed := enclosedIn 0 v.music

/-- A tuplet with its part and its voice. -/
abbrev PlacedOpening := (String × VoiceKey) × Opening

/-- The tuplets of a score. -/
def Score.tuplets (score : Score) : List PlacedOpening :=
  score.parts.flatMap fun part => part.voices.flatMap fun voice =>
    voice.tuplets.map fun t => ((part.id, voice.key), t.opening)

/-! ## Marks that start tuplets -/

/-- The marks of a deed that start tuplets. Members of chords start none. -/
def Deed.starts (part? : Option String) : Deed → List PlacedOpening
  | note input =>
    match part? with
    | some id =>
      if input.inChord then [] else input.openings.map fun o => ((id, input.key), o)
    | none => []
  | _ => []

/-- The marks that start tuplets in some moments, from where a given part is current. -/
def tupletStarts (settings : Settings) : Option String → List Moment → List PlacedOpening
  | _, [] => []
  | part?, m :: ms =>
    let deed := m.move.deed settings m.before
    deed.starts part? ++ tupletStarts settings (deed.partAfter part?) ms

/-- The marks of one voice. -/
def startsOf (at' : String × VoiceKey) (starts : List PlacedOpening) : List Opening :=
  (starts.filter fun x => x.1 = at').map Prod.snd

theorem startsOf_append (at' : String × VoiceKey) (xs ys : List PlacedOpening) :
    startsOf at' (xs ++ ys) = startsOf at' xs ++ startsOf at' ys := by
  simp [startsOf]

/-- The marks of one note are all in its voice. -/
theorem startsOf_map (at' there : String × VoiceKey) (os : List Opening) :
    startsOf at' (os.map fun o => (there, o)) = if there = at' then os else [] := by
  induction os with
  | nil => simp [startsOf]
  | cons o os ih =>
    by_cases hthere : there = at'
    · rw [if_pos hthere] at ih ⊢
      rw [List.map_cons, startsOf, List.filter_cons_of_pos (by simpa using hthere), List.map_cons]
      exact congrArg (o :: ·) ih
    · rw [if_neg hthere] at ih ⊢
      rw [List.map_cons, startsOf, List.filter_cons_of_neg (by simpa using hthere)]
      exact ih

/-- The marks of a voice are marks that start tuplets there. -/
theorem map_startsOf (at' : String × VoiceKey) (starts : List PlacedOpening) :
    (startsOf at' starts).map (fun o => (at', o)) = starts.filter fun x => x.1 = at' := by
  rw [startsOf, List.map_map]
  refine (List.map_congr_left fun x hx => ?_).trans (List.map_id _)
  rw [Function.comp, ← of_decide_eq_true (List.mem_filter.mp hx).2]
  rfl

namespace TupletStack

variable {n : TupletStack}

theorem starts_pushes (n : TupletStack) (os : List Opening) (k : VoiceKey) :
    (os.foldl push n).starts k = n.starts k ++ if k = n.key then os else [] := by
  induction os generalizing n with
  | nil => simp
  | cons o os ih =>
    rw [List.foldl_cons, ih]
    by_cases hk : k = n.key
    · simp [push, hk]
    · simp [push, hk]

/-- A note starts the tuplets that are marked on it. -/
theorem starts_note (n : TupletStack) (input : NoteInput) (k : VoiceKey) :
    (n.note input).starts k = n.starts k ++ if k = input.key then input.openings else [] := by
  have hturn : (n.turn input).starts k = n.starts k := by
    rw [turn]
    split <;> rfl
  exact (starts_pushes (n.turn input) input.openings k).trans (by rw [hturn]; rfl)

/-- A moment of the part starts the tuplets that it marks. -/
theorem starts_after (n : TupletStack) (k : VoiceKey) :
    (n.after settings m).starts k =
      n.starts k ++ startsOf (id, k) ((m.move.deed settings m.before).starts (some id)) := by
  unfold after
  generalize m.move.deed settings m.before = deed
  have hnone : n.starts k = n.starts k ++ startsOf (id, k) [] := (List.append_nil _).symm
  cases deed with
  | note input =>
    dsimp only [Deed.starts]
    split
    · exact hnone
    · rw [starts_note, startsOf_map]
      by_cases hk : k = input.key
      · rw [if_pos hk, if_pos (by rw [hk])]
      · rw [if_neg hk, if_neg fun heq => hk (congrArg Prod.snd heq).symm]
  | backup | forward | leaveMeasure | leavePart | enterMeasure | enterPart => exact hnone
  | nothing =>
    dsimp only
    split <;> exact hnone

/-- The stack of a part starts the tuplets that are marked in it. -/
theorem starts_tupletStack (n : TupletStack) (part? : Option String) (k : VoiceKey) :
    (tupletStack settings id part? n ms).starts k =
      n.starts k ++ startsOf (id, k) (tupletStarts settings part? ms) := by
  induction ms generalizing n part? with
  | nil => exact (List.append_nil _).symm
  | cons m ms ih =>
    have hhead : (if part? = some id then n.after settings m else n).starts k =
        n.starts k ++ startsOf (id, k) ((m.move.deed settings m.before).starts part?) := by
      split
      · next hpart =>
        rw [hpart]
        exact n.starts_after k
      · next hpart =>
        have hother : startsOf (id, k) ((m.move.deed settings m.before).starts part?) = [] := by
          unfold Deed.starts
          split
          · split
            · split
              · rfl
              · rw [startsOf_map, if_neg]
                exact fun heq => hpart (congrArg (fun at' => some at'.1) heq)
            · rfl
          · rfl
        rw [hother, List.append_nil]
    rw [tupletStack, ih, hhead, tupletStarts, startsOf_append, List.append_assoc]

end TupletStack

/-- What is filtered by distinct keys, one after the other, is all there is. -/
theorem perm_flatMap_filter {α β : Type} [DecidableEq α] {keys : List α} (hkeys : keys.Nodup)
    {xs : List (α × β)} (hall : ∀ x ∈ xs, x.1 ∈ keys) :
    (keys.flatMap fun k => xs.filter fun x => x.1 = k).Perm xs := by
  induction keys generalizing xs with
  | nil =>
    have hnone : xs = [] := List.eq_nil_iff_forall_not_mem.mpr fun x hx => nomatch hall x hx
    rw [hnone]
    exact .refl _
  | cons k keys ih =>
    obtain ⟨hk, hkeys⟩ := List.nodup_cons.mp hkeys
    have hothers : (keys.flatMap fun k' => xs.filter fun x => x.1 = k') =
        keys.flatMap fun k' => (xs.filter fun x => ¬ x.1 = k).filter fun x => x.1 = k' := by
      refine List.flatMap_congr fun k' hk' => ?_
      rw [List.filter_filter]
      refine List.filter_congr fun x _ => ?_
      by_cases hx : x.1 = k'
      · have hne : k' ≠ k := fun heq => hk (heq ▸ hk')
        simp [hx, hne]
      · simp [hx]
    rw [List.flatMap_cons, hothers]
    refine ((ih hkeys fun x hx => ?_).append_left _).trans ?_
    · obtain ⟨hmem, hne⟩ := List.mem_filter.mp hx
      exact (List.mem_cons.mp (hall x hmem)).resolve_left (by simpa using hne)
    · simpa using List.filter_append_perm (fun x => decide (x.1 = k)) xs

/-! ## Whole documents -/

/-- Where all parts and voices are known by their ids and keys, the tuplets of a score are gathered
by them. -/
theorem Score.tuplets_eq (score : Score) (starts : String × VoiceKey → List Opening)
    (hstarts : ∀ part ∈ score.parts, ∀ voice ∈ part.voices,
      voice.tuplets.map Tuplet.opening = starts (part.id, voice.key)) :
    score.tuplets = (score.parts.flatMap fun part => part.voices.map fun voice =>
      (part.id, voice.key)).flatMap fun at' => (starts at').map fun o => (at', o) := by
  rw [tuplets, List.flatMap_assoc]
  refine List.flatMap_congr fun part hpart => ?_
  rw [List.flatMap_map]
  refine List.flatMap_congr fun voice hvoice => ?_
  rw [← hstarts part hpart voice hvoice, List.map_map]
  rfl

/-- Parts and voices of a score are known by their ids and keys. -/
theorem Reading.Complete.nodup_keys {r : Reading} {score : Score} (h : r.Complete score) :
    (score.parts.flatMap fun part => part.voices.map fun voice => (part.id, voice.key)).Nodup := by
  have hids : (score.parts.map Part.id).Nodup := (h.parts.map _).nodup_iff.mpr h.sound.ids
  refine List.nodup_flatMap.mpr ⟨fun part hpart => ?_, ?_⟩
  · have hkeyed := h.sound.keyed _ part (h.partOf hpart)
    have hmap : (part.voices.map fun voice => (part.id, voice.key)) =
        (part.voices.map Voice.key).map (part.id, ·) := by
      rw [List.map_map]
      rfl
    rw [hmap]
    exact hkeyed.map fun _ _ heq => congrArg Prod.snd heq
  · refine (List.pairwise_map.mp hids).imp fun hne x hx hx' => ?_
    obtain ⟨_, _, rfl⟩ := List.mem_map.mp hx
    obtain ⟨_, _, heq⟩ := List.mem_map.mp hx'
    exact hne (congrArg Prod.fst heq).symm

/-- Music stands in a voice of a part of the score. -/
theorem Reading.Complete.exists_voice {r : Reading} {score : Score} (h : r.Complete score)
    (hmusic : r.music id key ≠ []) :
    ∃ part ∈ score.parts, ∃ voice ∈ part.voices, (part.id, voice.key) = (id, key) := by
  have hheld : (if r.partId? = some id then r.passage.held key else []) = [] :=
    if_neg (by simp [h.partId])
  rw [Reading.music, hheld, List.append_nil] at hmusic
  cases hpart : r.partOf id with
  | none => simp [hpart] at hmusic
  | some part =>
    rw [hpart, Option.elim_some, Part.music] at hmusic
    cases hvoice : part.voice? key with
    | none => simp [hvoice] at hmusic
    | some voice =>
      refine ⟨part, h.parts.mem_iff.mpr (mem_of_partOf hpart), voice,
        List.mem_of_find?_eq_some hvoice, ?_⟩
      rw [id_of_partOf hpart, Part.key_of_voice? hvoice]

/-- The stack that the marks of a part lead to. -/
def Document.stackOf (settings : Settings) (root : Element) (id : String) : TupletStack :=
  tupletStack settings id none {} (trail settings root)

/-- What was read of a document agrees with the stacks of its parts. -/
theorem Document.agrees_stackOf {root : Element} {last : Reading}
    (hfollows : Follows settings {} (trail settings root) last)
    (hunfolds : Unfolds settings {} (trail settings root) last) (id : String) :
    (stackOf settings root id).Agrees last id :=
  (TupletStack.Agrees.begin id).follows hfollows hunfolds

/-- **Tuplets nest as their marks do.** The tuplets of a score are the marks that start them. In
every voice they stand in the order of these marks, the tuplets around a note are those that are
open when it joins, and none is empty. At the end none is open, and every note is in a voice of the
score. -/
theorem Document.tuplets_nest {root : Element} {score : Score}
    (h : (Document.read settings root).score = .ok score) :
    (trail settings root).map Moment.move = movesOf root ∧
      score.tuplets.Perm (tupletStarts settings none (trail settings root)) ∧
      (∀ part ∈ score.parts, ∀ voice ∈ part.voices,
        voice.tuplets.map Tuplet.opening = (stackOf settings root part.id).starts voice.key ∧
          voice.enclosed = (stackOf settings root part.id).notes voice.key ∧
          ∀ t ∈ voice.tuplets, t.members ≠ []) ∧
      ∀ id, (stackOf settings root id).around = [] ∧
        ∀ key, (stackOf settings root id).notes key ≠ [] →
          ∃ part ∈ score.parts, ∃ voice ∈ part.voices, (part.id, voice.key) = (id, key) := by
  obtain ⟨last, hfollows, hunfolds, hcomplete, hmoves⟩ := Document.follows_unfolds h
  have hagrees := agrees_stackOf hfollows hunfolds
  have hclosed : ∀ id, (stackOf settings root id).around = [] := fun id =>
    (hagrees id).outside (by simp [hcomplete.partId])
  have hwords : ∀ id key, (stackOf settings root id).voice key =
      { starts := (last.music id key).flatMap VoiceElement.nodes |>.map Tuplet.opening
        notes := enclosedIn 0 (last.music id key) } := by
    intro id key
    have hnone : ((stackOf settings root id).voice key).around = [] := by
      rw [TupletStack.voice, hclosed, ite_self]
    rw [← bracketing_wordOf, ((hagrees id).written key).bracketing_eq hnone]
  have hmusic : ∀ part ∈ score.parts, ∀ voice ∈ part.voices,
      last.music part.id voice.key = voice.music := by
    intro part hpart voice hvoice
    rw [hcomplete.music hpart, Part.music, hcomplete.voice? hpart hvoice]
    rfl
  have hstarts : ∀ part ∈ score.parts, ∀ voice ∈ part.voices,
      voice.tuplets.map Tuplet.opening = (stackOf settings root part.id).starts voice.key := by
    intro part hpart voice hvoice
    have hvoices := congrArg Bracketing.starts (hwords part.id voice.key)
    rw [hmusic part hpart voice hvoice] at hvoices
    exact hvoices.symm
  have hmarked : ∀ id key, (stackOf settings root id).starts key =
      startsOf (id, key) (tupletStarts settings none (trail settings root)) :=
    fun id key => TupletStack.starts_tupletStack {} none key
  refine ⟨hmoves, ?_, fun part hpart voice hvoice => ⟨hstarts part hpart voice hvoice, ?_, ?_⟩,
    fun id => ⟨hclosed id, fun key hnotes => ?_⟩⟩
  · rw [score.tuplets_eq (fun at' => startsOf at' (tupletStarts settings none (trail settings root)))
      fun part hpart voice hvoice => (hstarts part hpart voice hvoice).trans (hmarked _ _)]
    simp only [map_startsOf]
    refine perm_flatMap_filter hcomplete.nodup_keys ?_
    rintro ⟨⟨id, key⟩, o⟩ hx
    have hsome : startsOf (id, key) (tupletStarts settings none (trail settings root)) ≠ [] :=
      List.ne_nil_of_mem (List.mem_map.mpr ⟨_, List.mem_filter.mpr ⟨hx, decide_eq_true rfl⟩, rfl⟩)
    obtain ⟨part, hpart, voice, hvoice, heq⟩ : ∃ part ∈ score.parts, ∃ voice ∈ part.voices,
        (part.id, voice.key) = (id, key) := by
      refine hcomplete.exists_voice fun hnone => hsome ?_
      have hvoices := congrArg Bracketing.starts (hwords id key)
      rw [hnone] at hvoices
      exact (hmarked id key).symm.trans hvoices
    exact List.mem_flatMap.mpr ⟨part, hpart, List.mem_map.mpr ⟨voice, hvoice, heq⟩⟩
  · have hvoices := congrArg Bracketing.notes (hwords part.id voice.key)
    rw [hmusic part hpart voice hvoice] at hvoices
    exact hvoices.symm
  · have hfull := ((hagrees part.id).written voice.key).full
    rw [hmusic part hpart voice hvoice] at hfull
    exact members_of_full_wordOf hfull
  · refine hcomplete.exists_voice fun hnone => hnotes ?_
    have hvoices := congrArg Bracketing.notes (hwords id key)
    rw [hnone] at hvoices
    exact hvoices

/-- What marks a note of a tuplet: another time, and marks that start or stop tuplets. -/
def tupletMarks (marks : List Element) : List Element :=
  [{ name := "time-modification"
     children := [textElement "actual-notes" "3", textElement "normal-notes" "2"] },
    { name := "notations", children := marks }]

/-- A mark that starts or stops a tuplet. -/
def tupletMark (type number : String) : Element :=
  { name := "tuplet", attributes := [("type", type), ("number", number)] }

/-- A tuplet inside another one, which stops on a member of a chord, and a note behind both. -/
def nestedTuplets : Element :=
  singleMeasure
    [noteElement 1 "C" "1" "2" (tupletMarks [tupletMark "start" "1"]),
      noteElement 2 "D" "1" "1" (tupletMarks [tupletMark "start" "2"]),
      noteElement 3 "E" "1" "1" (tupletMarks []),
      noteElement 4 "G" "1" "1" ({ name := "chord" } :: tupletMarks [tupletMark "stop" "2"]),
      noteElement 5 "F" "1" "2" (tupletMarks [tupletMark "stop" "1"]),
      noteElement 6 "G" "1" "4" []]

/-- The tuplets start on the first and the second note. The inner one holds the second note and the
chord, and the last note is in none. -/
theorem Document.tuplets_nest_inner : ∃ score, ∃ part ∈ score.parts, ∃ voice ∈ part.voices,
    (Document.read {} nestedTuplets).score = .ok score ∧ score.tuplets.length = 2 ∧
      voice.tuplets.map Tuplet.line = [1, 2] ∧
      voice.enclosed.map (fun e => (e.note.line, e.around)) =
        [(1, [0]), (2, [0, 1]), (3, [0, 1]), (5, [0]), (6, [])] := by
  have hthere : hasVoice nestedTuplets "P" ⟨1, 1⟩ (fun _ => true) = true := by
    decide +kernel
  obtain ⟨score, part, hpart, voice, hvoice, hread, hid, hkey, _⟩ := exists_voice hthere
  obtain ⟨_, hall, hvoices, _⟩ := Document.tuplets_nest hread
  obtain ⟨hstarts, hnotes, _⟩ := hvoices part hpart voice hvoice
  have hmarks : (tupletStarts {} none (trail {} nestedTuplets)).length = 2 ∧
      ((stackOf {} nestedTuplets "P").starts ⟨1, 1⟩).map Opening.line = [1, 2] ∧
      ((stackOf {} nestedTuplets "P").notes ⟨1, 1⟩).map (fun e => (e.note.line, e.around)) =
        [(1, [0]), (2, [0, 1]), (3, [0, 1]), (5, [0]), (6, [])] := by
    decide +kernel
  rw [hid, hkey] at hstarts hnotes
  rw [← hstarts, ← hnotes, ← hall.length_eq, List.map_map] at hmarks
  exact ⟨score, part, hpart, voice, hvoice, hread, hmarks⟩

end Partwise
