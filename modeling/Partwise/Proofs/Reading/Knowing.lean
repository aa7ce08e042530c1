import Partwise.Proofs.Reading.Invariants
import Partwise.Proofs.Repeats.Accounts

/-!
# Reading · Knowing: every voice knows the signs in force

Clef, key, time and divisions are in force in a part. Voices that are there when a sign is read
change to it, and voices that begin later begin with it, so whoever reads a voice from its start
knows the signs of its part without looking at the part: `Voice.Knows`. Barlines move signs about
with all other content, but the last one of each kind stays the last (`Voice.Edited.signs`).

All voices of all parts know their signs, at all times (`Document.signs_known`).
-/

namespace Partwise

open Markup

/-! ## Signs -/

namespace VoiceElement

/-- The element is a sign that holds on. -/
def isSign : VoiceElement → Bool
  | clef _ | key _ | time _ => true
  | _ => false

/-- The clef that the element is. -/
def clef? : VoiceElement → Option Clef
  | clef c => some c
  | _ => none

/-- The key that the element is. -/
def key? : VoiceElement → Option Key
  | key k => some k
  | _ => none

/-- The time that the element is. -/
def time? : VoiceElement → Option Time
  | time t => some t
  | _ => none

end VoiceElement

/-- The signs among some elements. -/
def signs (es : List VoiceElement) : List VoiceElement :=
  es.filter VoiceElement.isSign

@[simp] theorem signs_append (as bs : List VoiceElement) : signs (as ++ bs) = signs as ++ signs bs :=
  List.filter_append ..

/-- Implicit starts are no signs. -/
theorem signs_played (es : List VoiceElement) : signs (played es) = signs es := by
  unfold signs played
  rw [List.filter_filter]
  refine List.filter_congr fun e _ => ?_
  cases e <;> simp [VoiceElement.isSign, VoiceElement.isImplicit]

/-- What is looked for among signs is found among all elements. -/
theorem filterMap_signs {β : Type} {f : VoiceElement → Option β}
    (hf : ∀ e, e.isSign = false → f e = none) (es : List VoiceElement) :
    (signs es).filterMap f = es.filterMap f := by
  induction es with
  | nil => rfl
  | cons e es ih =>
    unfold signs at ih ⊢
    by_cases he : e.isSign
    · rw [List.filter_cons_of_pos he, List.filterMap_cons, List.filterMap_cons, ih]
    · rw [List.filter_cons_of_neg he, List.filterMap_cons, hf e (Bool.eq_false_iff.mpr he), ih]

/-- A note joins no sign. -/
theorem VoiceElement.signs_join {n : Note} {chordOpen : Bool} {e e' : VoiceElement}
    (h : e.join n chordOpen = .ok e') : signs e.flatten = [] ∧ signs e'.flatten = [] := by
  unfold join at h
  split at h
  · split at h
    · cases h
    · cases h
      exact ⟨rfl, rfl⟩
  · split at h
    · cases h
      exact ⟨rfl, rfl⟩
    · cases h
  · obtain ⟨t', _, rfl⟩ := of_map_eq_ok h
    exact ⟨rfl, rfl⟩
  · cases h

/-- A note that joins what stands last leaves the signs. -/
theorem signs_joinLast {n : Note} {chordOpen : Bool} {es es' : List VoiceElement}
    (h : joinLast n chordOpen es = .ok es') :
    signs (flattenElements es') = signs (flattenElements es) := by
  induction es generalizing es' with
  | nil => exact nomatch h
  | cons e es ih =>
    cases es with
    | nil =>
      obtain ⟨e', he, rfl⟩ := of_map_eq_ok h
      obtain ⟨hbefore, hafter⟩ := VoiceElement.signs_join he
      simp [flattenElements, hbefore, hafter]
    | cons next es =>
      obtain ⟨rest, hrest, rfl⟩ := of_map_eq_ok h
      rw [flattenElements, flattenElements, signs_append, signs_append, ih hrest]

/-! ## Voices that keep their signs -/

namespace Voice

/-- The voice is on the same staff, with the same signs and divisions. -/
structure SameSigns (v w : Voice) : Prop where
  signs : signs w.flatten = signs v.flatten
  staffNumber : w.staffNumber = v.staffNumber
  divisions : w.divisionsPerWhole = v.divisionsPerWhole

/-- A repeat that is closed leaves the divisions. -/
theorem divisions_closeRepeat (v : Voice) (explicitStart : Bool) (measure : String) :
    (v.closeRepeat explicitStart measure).1.divisionsPerWhole = v.divisionsPerWhole := by
  unfold closeRepeat
  split <;> rfl

/-- A barline leaves the divisions. -/
theorem divisions_takeBarline (v : Voice) (b : Barline) (explicitStart : Bool) (measure : String) :
    (v.takeBarline b explicitStart measure).1.divisionsPerWhole = v.divisionsPerWhole := by
  unfold takeBarline
  split
  · rfl
  · exact v.divisions_closeRepeat explicitStart measure
  · rfl
  · dsimp only
    split
    · rfl
    · exact divisions_closeRepeat ..
  · exact divisions_closeRepeat ..
  · dsimp only
    split
    · rfl
    · exact divisions_closeRepeat ..

/-- The end of a part leaves the divisions. -/
theorem divisions_endRepeats (v : Voice) (explicitStart : Bool) (measure : String) :
    (v.endRepeats explicitStart measure).1.divisionsPerWhole = v.divisionsPerWhole := by
  unfold endRepeats
  split
  · rfl
  · rw [divisions_closeRepeat]
    split <;> rfl

/-- **Whatever is read**, a voice keeps its signs in their order, and its divisions. -/
theorem Edited.signs {v w : Voice} (h : v.Edited w) : v.SameSigns w := by
  have hstaff : w.staffNumber = v.staffNumber := congrArg VoiceKey.staff h.key
  cases h with
  | place => exact ⟨rfl, hstaff, rfl⟩
  | @append e given =>
    refine ⟨?_, hstaff, rfl⟩
    have hnone : Partwise.signs e.flatten = [] := by
      cases e <;> first | rfl | exact nomatch given
    rw [flatten_append, signs_append, hnone, List.append_nil]
  | joinChord joined =>
    obtain ⟨chunk, hchunk, rfl⟩ := of_map_eq_ok joined
    have hsigns := signs_joinLast hchunk
    refine ⟨?_, hstaff, rfl⟩
    simp only [flatten_eq, signs_append]
    exact congrArg _ hsigns
  | takeBarline b explicitStart measure =>
    refine ⟨?_, hstaff, v.divisions_takeBarline ..⟩
    rw [← signs_played, played_takeBarline, signs_append, signs_played, signs_played]
    exact List.append_nil _
  | endRepeats explicitStart measure =>
    refine ⟨?_, hstaff, v.divisions_endRepeats ..⟩
    rw [← signs_played, played_endRepeats, signs_played]
  | flush none => exact ⟨by rw [flatten_flush v none], hstaff, rfl⟩
  | sing n lyrics =>
    obtain ⟨_, _, _, hsung⟩ := v.sing_eq n lyrics
    rw [hsung]
    exact ⟨rfl, rfl, rfl⟩
  | markSlurs slurs kind =>
    obtain ⟨_, _, hmarked⟩ := v.markSlurs_eq slurs kind
    rw [hmarked]
    exact ⟨rfl, rfl, rfl⟩

/-! ## What a voice knows -/

/-- The last element of some kind in a voice, repeats included. -/
def last? {β : Type} (v : Voice) (f : VoiceElement → Option β) : Option β :=
  (v.flatten.filterMap f).getLast?

/-- A sign at the end is the last of its kind, and of no other. -/
theorem last?_append {β : Type} (v : Voice) {e : VoiceElement} (he : e.flatten = [e])
    (f : VoiceElement → Option β) : (v.append e).last? f = (f e).or (v.last? f) := by
  rw [last?, last?, flatten_append, he, List.filterMap_append]
  cases h : f e <;> simp [h]

/-- The last signs in a voice are those in force in its part and on its staff, and there is none
where none is in force. The voice has the divisions of the part. -/
structure Knows (v : Voice) (p : Part) : Prop where
  key : v.last? VoiceElement.key? = p.key?
  time : v.last? VoiceElement.time? = p.time?
  clef : v.last? VoiceElement.clef? = p.clef? v.staffNumber
  clefStaff : ∀ clef, v.last? VoiceElement.clef? = some clef → clef.staffNumber = v.staffNumber
  divisions : v.divisionsPerWhole = p.divisionsPerWhole

namespace Knows

variable {v w : Voice} {p q : Part}

/-- A clef that is in force on the staff of a voice is one of that staff. -/
theorem of_clef (key : v.last? VoiceElement.key? = p.key?)
    (time : v.last? VoiceElement.time? = p.time?)
    (clef : v.last? VoiceElement.clef? = p.clef? v.staffNumber)
    (divisions : v.divisionsPerWhole = p.divisionsPerWhole) : v.Knows p := by
  refine ⟨key, time, clef, fun c hc => ?_, divisions⟩
  rw [clef] at hc
  simpa using List.find?_some hc

/-- Of a voice only its signs matter, its staff and its divisions. -/
theorem of_same (h : v.Knows p) (hsame : v.SameSigns w) : w.Knows p := by
  have hlast : ∀ {β : Type} {f : VoiceElement → Option β},
      (∀ e, e.isSign = false → f e = none) → w.last? f = v.last? f := by
    intro β f hf
    rw [last?, last?, ← filterMap_signs hf, hsame.signs, filterMap_signs hf]
  have hkey := hlast (f := VoiceElement.key?) fun e he => by
    cases e <;> first | rfl | exact nomatch he
  have htime := hlast (f := VoiceElement.time?) fun e he => by
    cases e <;> first | rfl | exact nomatch he
  have hclef := hlast (f := VoiceElement.clef?) fun e he => by
    cases e <;> first | rfl | exact nomatch he
  refine of_clef (hkey.trans h.key) (htime.trans h.time) ?_ (hsame.divisions.trans h.divisions)
  rw [hclef, hsame.staffNumber, h.clef]

/-- Of a part only what is in force in it matters. -/
theorem of_part (h : v.Knows p) (hkey : q.key? = p.key?) (htime : q.time? = p.time?)
    (hclefs : q.clefs = p.clefs) (hdivisions : q.divisionsPerWhole = p.divisionsPerWhole) :
    v.Knows q := by
  refine of_clef (h.key.trans hkey.symm) (h.time.trans htime.symm) ?_
    (h.divisions.trans hdivisions.symm)
  rw [h.clef, Part.clef?, Part.clef?, hclefs]

/-- A voice that begins knows the signs of its part. -/
theorem newVoice (p : Part) (key : VoiceKey) : (p.newVoice key).Knows p := by
  have hflatten : (p.newVoice key).flatten = p.opening key.staff := by
    have hopening : (p.newVoice key).flatten = flattenElements (p.opening key.staff) := rfl
    rw [hopening, Part.opening]
    cases p.clef? key.staff <;> cases p.key? <;> cases p.time? <;> rfl
  have hlast : ∀ {β : Type} (f : VoiceElement → Option β),
      (p.newVoice key).last? f = ((p.opening key.staff).filterMap f).getLast? :=
    fun f => by rw [last?, hflatten]
  refine of_clef ?_ ?_ ?_ rfl
  · rw [hlast, Part.opening]
    cases p.clef? key.staff <;> cases p.key? <;> cases p.time? <;> rfl
  · rw [hlast, Part.opening]
    cases p.clef? key.staff <;> cases p.key? <;> cases p.time? <;> rfl
  · show _ = p.clef? key.staff
    rw [hlast, Part.opening]
    cases p.clef? key.staff <;> cases p.key? <;> cases p.time? <;> rfl

/-- A voice that changes to a key knows it. -/
theorem withKey (h : v.Knows p) (key : Key) : (v.append (.key key)).Knows (p.withKey key) := by
  refine of_clef ?_ ?_ ?_ h.divisions
  · rw [v.last?_append rfl]
    rfl
  · rw [v.last?_append rfl]
    exact h.time
  · rw [v.last?_append rfl]
    exact h.clef

/-- A voice that changes to a time knows it. -/
theorem withTime (h : v.Knows p) (time : Time) : (v.append (.time time)).Knows (p.withTime time) := by
  refine of_clef ?_ ?_ ?_ h.divisions
  · rw [v.last?_append rfl]
    exact h.key
  · rw [v.last?_append rfl]
    rfl
  · rw [v.last?_append rfl]
    exact h.clef

/-- Voices on the staff of a clef change to it and know it; for others nothing changes. -/
theorem withClef (h : v.Knows p) (clef : Clef) :
    (if v.staffNumber = clef.staffNumber then v.append (.clef clef) else v).Knows
      (p.withClef clef) := by
  have hfound : (p.withClef clef).clef? v.staffNumber =
      if v.staffNumber = clef.staffNumber then some clef else p.clef? v.staffNumber :=
    find?_upsert Nat.blt Clef.staffNumber clef p.clefs v.staffNumber
  split
  · next hstaff =>
    rw [if_pos hstaff] at hfound
    refine of_clef ?_ ?_ ?_ h.divisions
    · rw [v.last?_append rfl]
      exact h.key
    · rw [v.last?_append rfl]
      exact h.time
    · rw [v.last?_append rfl]
      exact hfound.symm
  · next hstaff =>
    rw [if_neg hstaff] at hfound
    exact of_clef h.key h.time (h.clef.trans hfound.symm) h.divisions

end Knows

end Voice

/-! ## Parts and documents -/

/-- All voices of the part know its signs. -/
def Part.SignsKnown (p : Part) : Prop :=
  ∀ v ∈ p.voices, v.Knows p

/-- That voices know the signs of their part is an invariant. -/
theorem Part.signsKnown_invariant : PartInvariant Part.SignsKnown where
  declare _ _ _ hv := nomatch hv
  ensureVoice {p} key h := by
    unfold Part.ensureVoice
    split
    · exact h
    · intro v hv
      rcases mem_upsert hv with rfl | hv
      · exact (Voice.Knows.newVoice p key).of_part rfl rfl rfl rfl
      · exact (h v hv).of_part rfl rfl rfl rfl
  edit {p f} h hf := by
    intro v hv
    obtain ⟨w, hw, rfl⟩ := List.mem_map.mp hv
    rcases hf w hw with hedited | hsame
    · exact ((h w hw).of_same hedited.signs).of_part rfl rfl rfl rfl
    · rw [hsame]
      exact (h w hw).of_part rfl rfl rfl rfl
  ensureStaves _ h v hv := (h v hv).of_part rfl rfl rfl rfl
  enterMeasure _ h v hv := (h v hv).of_part rfl rfl rfl rfl
  withKey key h v hv := by
    obtain ⟨w, hw, rfl⟩ := List.mem_map.mp hv
    exact (h w hw).withKey key
  withTime time h v hv := by
    obtain ⟨w, hw, rfl⟩ := List.mem_map.mp hv
    exact (h w hw).withTime time
  withClef clef h v hv := by
    obtain ⟨w, hw, rfl⟩ := List.mem_map.mp hv
    exact (h w hw).withClef clef
  withDivisions _ h v hv := by
    obtain ⟨w, hw, rfl⟩ := List.mem_map.mp hv
    exact ⟨(h w hw).key, (h w hw).time, (h w hw).clef, (h w hw).clefStaff, rfl⟩

/-- **Every voice knows the signs in force**, before and after every move of a document, whether it
is read to its end or not, and in its score. -/
theorem Document.signs_known (settings : Settings) (root : Element) :
    (∀ m ∈ trail settings root,
      (∀ p ∈ m.before.parts, p.SignsKnown) ∧ ∀ p ∈ m.after.parts, p.SignsKnown) ∧
      ∀ score, (Document.read settings root).score = .ok score →
        ∀ p ∈ score.parts, p.SignsKnown :=
  ⟨fun _ hm => Part.signsKnown_invariant.trail hm,
    fun _ h => Part.signsKnown_invariant.score h⟩

/-- Attributes with a key. -/
def keyElement (fifths : String) : Element :=
  { name := "attributes"
    children := [{ name := "key", children := [textElement "fifths" fifths] }] }

/-- A repeat, after which the key changes, and a second voice that begins after it. -/
def keyAfterRepeat : Element :=
  singleMeasure [keyElement "1", noteElement 1 "C" "1" "1" [],
    barlineElement "right" "backward", keyElement "-3", noteElement 2 "C" "2" "1" []]

/-- The voice that begins late tells which key its part is in. -/
theorem Document.signs_known_lateVoice : ∃ score, ∃ part ∈ score.parts,
    (Document.read {} keyAfterRepeat).score = .ok score ∧
      part.key? = some { fifths := -3, mode := .major } := by
  have hthere : hasVoice keyAfterRepeat "P" ⟨1, 2⟩ (fun voice =>
      voice.last? VoiceElement.key? = some { fifths := -3, mode := .major }) = true := by
    decide +kernel
  obtain ⟨score, part, hpart, voice, hvoice, hread, -, -, hlast⟩ := exists_voice hthere
  have hknows := (Document.signs_known {} keyAfterRepeat).2 score hread part hpart voice hvoice
  exact ⟨score, part, hpart, hread, hknows.key.symm.trans (of_decide_eq_true hlast)⟩

end Partwise
