import Mathlib.Tactic.Linarith
import Mathlib.Algebra.Order.Ring.Rat
import Partwise.Proofs.Music.Closing
import Partwise.Proofs.Music.Leaves
import Partwise.Proofs.Reading.Keeping
import Partwise.Reading.Cursor

/-!
# Music · Giving: one voice is given content

While a note or a rest is put into a voice, only this voice and the passage change. `Giving` holds
on to the voice as it is now, and to what matters of the passage: where the document stands, the
open tuplets, and the positions that the voice has come to. The steps of the cursor are each one
equation between voices: `Giving.catchUp` pads a voice that is behind the document, and
`Giving.advance` moves it
forward. -/

namespace Partwise

/-! ## Checked positions -/

section

variable {line : Nat}

/-- A demanded value that was given is the one that was there. -/
theorem gives_demand {α : Type} {x? : Option α} {failure : Failure} {a : α}
    (h : Gives (demand x? failure) a) : x? = some a := by
  cases x? with
  | none => exact absurd h not_gives_throw
  | some found => rw [h.pure]

/-- A later position that was given is the sum of the position and the duration. -/
theorem gives_later {position duration sum : WholeNotes}
    (h : Gives (later line position duration) sum) : sum = position + duration :=
  WholeNotes.plus?_eq_some (gives_demand h)

/-- An earlier position that was given is the difference of the position and the duration. -/
theorem gives_earlier {position duration difference : WholeNotes}
    (h : Gives (earlier line position duration) difference) :
    difference = position - duration :=
  WholeNotes.minus?_eq_some (gives_demand h)

end

/-- Positions are compared as they stand. -/
theorem WholeNotes.blt_iff (x y : WholeNotes) : Rat.blt x y = true ↔ x < y := by
  exact Iff.rfl

/-! ## Padding -/

/-- The elements that bring a voice from one position to a later one. -/
structure Pads (line : Nat) (start stop : WholeNotes) (pads : List VoiceElement) : Prop where
  imprints_eq : imprints pads =
    if start < stop then [⟨.rest false true, line, start⟩] else []
  spans_eq : spans pads = if start < stop then [⟨start, stop - start⟩] else []
  word_eq : wordOf pads =
    if start < stop then [.sounds ⟨.rest false true, line, stop - start⟩] else []

/-- No padding is needed to stay where one is. -/
theorem Pads.none {line : Nat} {start stop : WholeNotes} (h : ¬ start < stop) :
    Pads line start stop [] :=
  ⟨by rw [if_neg h]; rfl, by rw [if_neg h]; rfl, by rw [if_neg h]; rfl⟩

/-- A single rest pads a voice up to a later position. -/
theorem Pads.rest {line : Nat} (v : Voice) {stop : WholeNotes} {measure : String}
    (h : v.positionInMeasure < stop) : Pads line v.positionInMeasure stop
      [.note (skipRest v (stop - v.positionInMeasure) measure line)] := by
  refine ⟨?_, ?_, ?_⟩
  · rw [if_pos h]
    rfl
  · rw [if_pos h]
    rfl
  · rw [if_pos h]
    rfl

/-- The rest that brings a voice from one position to a later one. -/
def padRests (key : VoiceKey) (line : Nat) (start stop : WholeNotes) : List Note :=
  if start < stop then [Note.skip (stop - start) key.staff key.voice "" line] else []

/-- The elements are single rests, as they are asked for. -/
def Rests (read : List Note) (pads : List VoiceElement) : Prop :=
  ∃ rests : List Note, pads = rests.map .note ∧ List.Forall₂ (Note.Dressed ∅) read rests

/-- Such rests are not written. -/
theorem invisible_of_padRests {key : VoiceKey} {line : Nat} {start stop : WholeNotes}
    {rests : List Note} (h : List.Forall₂ (Note.Dressed ∅) (padRests key line start stop) rests) :
    ∀ n ∈ rests, n.isInvisibleRest = true := by
  unfold padRests at h
  split at h
  · cases h with
    | cons hdressed hnone =>
      cases hnone
      intro n hn
      rw [List.mem_singleton.mp hn, hdressed.isInvisibleRest]
      rfl
  · cases h
    exact fun _ hn => absurd hn List.not_mem_nil

/-- A rest of a voice is what it should be. -/
theorem Note.dressed_skipRest {v : Voice} {key : VoiceKey} (h : v.key = key)
    (duration : WholeNotes) (measure : String) (line : Nat) :
    Note.Dressed ∅ (Note.skip duration key.staff key.voice "" line)
      (skipRest v duration measure line) := by
  subst h
  exact ⟨rfl, rfl, rfl⟩

/-! ## Positions that are reached -/

/-- The passage after a voice came to some positions. -/
def Passage.reachAll (p : Passage) (key : VoiceKey) (stops : List WholeNotes) : Passage :=
  stops.foldl (fun p stop => p.reach key stop) p

/-- How far a voice comes depends on the headway alone. -/
theorem Passage.headway_reach {p q : Passage} (h : p.headway = q.headway) (key : VoiceKey)
    (stop : WholeNotes) : (p.reach key stop).headway = (q.reach key stop).headway := by
  obtain ⟨hmeasure, hextents⟩ := Prod.mk.injEq .. ▸ h
  unfold headway reach extent
  rw [hmeasure, hextents]

theorem Passage.headway_reachAll_concat (p : Passage) (key : VoiceKey) (stops : List WholeNotes)
    (stop : WholeNotes) :
    (p.reachAll key (stops ++ [stop])).headway = ((p.reachAll key stops).reach key stop).headway := by
  rw [reachAll, List.foldl_append]
  rfl

theorem Passage.headway_reachAll {p q : Passage} (h : p.headway = q.headway) (key : VoiceKey)
    (stops : List WholeNotes) : (p.reachAll key stops).headway = (q.reachAll key stops).headway := by
  induction stops generalizing p q with
  | nil => exact h
  | cons stop stops ih => exact ih (headway_reach h key stop)

/-- However far a voice comes, the measure is the same. -/
theorem Passage.measureNumber_reachAll (p : Passage) (key : VoiceKey) (stops : List WholeNotes) :
    (p.reachAll key stops).measureNumber = p.measureNumber := by
  induction stops generalizing p with
  | nil => rfl
  | cons stop stops ih => exact ih (p.reach key stop)

/-- Where padding brings a voice. -/
def padStops (start stop : WholeNotes) : List WholeNotes := if start < stop then [stop] else []

/-! ## Giving -/

/-- The reading `s` is `r` with the voice of a key turned into `v`, the document standing at
`position`, and these tuplets open. On the way the voice has reached some positions. -/
structure Giving (r s : Reading) (part : Part) (key : VoiceKey) (v : Voice)
    (position : WholeNotes) (tuplets : List Tuplet) (reached : List WholeNotes) : Prop where
  becomes : ∃ part' q, Becomes r s part' q ∧ part.Turns part' key v
  position : s.passage.position = position
  tuplets : s.passage.tuplets = tuplets
  current : s.passage.current = r.passage.current
  headway : s.passage.headway = (r.passage.reachAll key reached).headway

namespace Giving

variable {r s t : Reading} {part : Part} {key : VoiceKey} {v : Voice} {position : WholeNotes}
  {tuplets : List Tuplet} {reached : List WholeNotes} {line : Nat} {u : Unit}

/-- A voice begins, or is there already. -/
theorem begin (hpart : r.part? = some part) {w : Voice}
    (h : Ends (Partwise.voiceAt line key) r w s) :
    w = part.voiceOrNew key ∧
      Giving r s part key (part.voiceOrNew key) r.passage.position r.passage.tuplets [] := by
  obtain ⟨hw, hbecomes⟩ := (Becomes.refl hpart).voiceAt h
  refine ⟨hw, ⟨_, _, hbecomes, Part.Turns.ensureVoice part key⟩, ?_, ?_, ?_, ?_⟩ <;>
    rw [hbecomes.passage]
  rfl

/-- To look at the voice finds it as it was given, and changes nothing. -/
theorem voiceAt (h : Giving r s part key v position tuplets reached) {w : Voice}
    (hrun : Ends (Partwise.voiceAt line key) s w t) :
    w = v ∧ Giving r t part key v position tuplets reached := by
  obtain ⟨⟨part', q, hbecomes, hturns⟩, hposition, htuplets, hcurrent, hheadway⟩ := h
  obtain ⟨hw, hnext⟩ := hbecomes.voiceAt hrun
  rw [hturns.voiceOrNew_self] at hw
  rw [hturns.ensureVoice_self] at hnext
  have hsame : t.passage = s.passage := hnext.passage.trans hbecomes.passage.symm
  exact ⟨hw, ⟨part', q, hnext, hturns⟩, by rw [hsame, hposition], by rw [hsame, htuplets],
    by rw [hsame, hcurrent], by rw [hsame, hheadway]⟩

/-- A change of the voice goes on with the changed voice. -/
theorem modify (h : Giving r s part key v position tuplets reached) {f : Voice → Voice}
    (hrun : Ends (Partwise.changePart line fun p => p.modifyVoice key f) s u t)
    (hf : ∀ w : Voice, w.key = key → (f w).key = key) :
    Giving r t part key (f v) position tuplets reached := by
  obtain ⟨⟨part', q, hbecomes, hturns⟩, hposition, htuplets, hcurrent, hheadway⟩ := h
  have hnext := hbecomes.changePart hrun rfl
  have hsame : t.passage = s.passage := hnext.passage.trans hbecomes.passage.symm
  exact ⟨⟨_, q, hnext, hturns.modifyVoice hf⟩, by rw [hsame, hposition],
    by rw [hsame, htuplets], by rw [hsame, hcurrent], by rw [hsame, hheadway]⟩

/-- The voice is changed; that it is there is made sure of. -/
theorem changeVoice (h : Giving r s part key v position tuplets reached) {f : Voice → Voice}
    (hrun : Ends (Partwise.changeVoice line key f) s u t)
    (hf : ∀ w : Voice, w.key = key → (f w).key = key) :
    Giving r t part key (f v) position tuplets reached := by
  obtain ⟨_, s₁, hvoice, hchange⟩ := hrun.bind
  obtain ⟨_, hat⟩ := hvoice.discard
  exact (h.voiceAt hat).2.modify hchange hf

/-- A passage with the same current voice and headway may take the place of the one that was given.
-/
theorem of_passage (h : Giving r s part key v position tuplets reached) {q : Passage}
    (ht : t = { s with passage := q }) (hcurrent : q.current = s.passage.current)
    {more : List WholeNotes} (hheadway : q.headway = (r.passage.reachAll key more).headway) :
    Giving r t part key v q.position q.tuplets more := by
  obtain ⟨⟨part', q', hbecomes, hturns⟩, _, _, hcurrent', _⟩ := h
  subst ht
  exact ⟨⟨part', q, ⟨hbecomes.partId, hbecomes.same_partId, rfl, hbecomes.here, hbecomes.others,
    hbecomes.ids⟩, hturns⟩, rfl, rfl, hcurrent.trans hcurrent', hheadway⟩

/-- A change of the passage that keeps the current voice and the headway goes on with its position
and its tuplets. -/
theorem changePassage (h : Giving r s part key v position tuplets reached) {f : Passage → Passage}
    (hrun : Ends (Partwise.changePassage f) s u t)
    (hcurrent : ∀ q, (f q).current = q.current) (hheadway : ∀ q, (f q).headway = q.headway) :
    Giving r t part key v (f s.passage).position (f s.passage).tuplets reached :=
  h.of_passage hrun.changePassage (hcurrent _) ((hheadway _).trans h.headway)

/-- What only speaks or decodes changes nothing. -/
theorem lift (h : Giving r s part key v position tuplets reached) {α : Type} {x : Journaled α} {a : α}
    (hrun : Ends (liftM x) s a t) : Gives x a ∧ Giving r t part key v position tuplets reached := by
  obtain ⟨hx, rfl⟩ := hrun.lift
  exact ⟨hx, h⟩

/-- While a voice is given music, the measure stays the same. -/
theorem measureNumber (h : Giving r s part key v position tuplets reached) :
    s.passage.measureNumber = r.passage.measureNumber :=
  (congrArg Prod.fst h.headway).trans (r.passage.measureNumber_reachAll key reached)

/-! ## The steps of the cursor -/

/-- The voice moves forward, and the document stands where it stands. -/
theorem advance (h : Giving r s part key v position tuplets reached) {duration : WholeNotes}
    (hrun : Ends (Partwise.advance line key duration) s u t) :
    Giving r t part key { v with positionInMeasure := v.positionInMeasure + duration }
      (v.positionInMeasure + duration) tuplets (reached ++ [v.positionInMeasure + duration]) := by
  obtain ⟨w, s₁, hvoice, hrest₁⟩ := hrun.bind
  obtain ⟨rfl, hat⟩ := h.voiceAt hvoice
  obtain ⟨sum, s₂, hsum, hrest₂⟩ := hrest₁.bind
  obtain ⟨hgives, hadded⟩ := hat.lift hsum
  obtain ⟨_, s₃, hpart, hpassage⟩ := hrest₂.bind
  have hmoved := hadded.modify hpart fun _ hw => hw
  rw [gives_later hgives] at hmoved hpassage
  rw [← hmoved.tuplets]
  refine hmoved.of_passage hpassage.changePassage rfl ?_
  rw [Passage.headway_reachAll_concat, ← Passage.headway_reach hmoved.headway]
  rfl

/-- A voice goes on only if the sum of its position and the duration can be formed within words. -/
theorem checked_advance (h : Giving r s part key v position tuplets reached)
    {duration : WholeNotes} (hrun : Ends (Partwise.advance line key duration) s u t) :
    v.positionInMeasure.plus? duration = some (v.positionInMeasure + duration) := by
  obtain ⟨w, s₁, hvoice, hrest⟩ := hrun.bind
  obtain ⟨rfl, hat⟩ := h.voiceAt hvoice
  obtain ⟨sum, s₂, hsum, -⟩ := hrest.bind
  obtain ⟨hgives, -⟩ := hat.lift hsum
  rw [gives_demand hgives, gives_later hgives]

/-- A rest that the voice is given stands at its end. -/
theorem rest (h : Giving r s part key v position tuplets reached) {duration : WholeNotes}
    (hrun : Ends (Partwise.rest line key duration) s u t) :
    Giving r t part key (v.append (.note (skipRest v duration r.passage.measureNumber line)))
      position tuplets reached := by
  obtain ⟨_, _, hget, hchange⟩ := hrun.bind
  obtain ⟨rfl, rfl⟩ := hget.get
  rw [← h.measureNumber]
  exact h.changeVoice hchange fun _ hw => hw

/-- A voice comes up to where the document stands, if it is behind. -/
theorem catchUp (hrun : Ends (Partwise.catchUp line key) r u t) :
    ∃ part w pads, r.part? = some part ∧
      Giving r t part key w r.passage.position r.passage.tuplets
        (padStops (part.cursor key) r.passage.position) ∧
      Pads line (part.cursor key) r.passage.position pads ∧ w.music = part.music key ++ pads ∧
      w.positionInMeasure = max r.passage.position (part.cursor key) ∧
      Rests (padRests key line (part.cursor key) r.passage.position) pads ∧
      w.singing = part.singing key := by
  obtain ⟨_, _, hget, hrest₁⟩ := hrun.bind
  obtain ⟨rfl, rfl⟩ := hget.get
  obtain ⟨w, s₁, hvoice, hrest₂⟩ := hrest₁.bind
  obtain ⟨part, _, hcurrent, _⟩ := hvoice.bind
  have hpart := hcurrent.currentPart.1
  obtain ⟨hw, hat⟩ := begin hpart hvoice
  refine ⟨part, ?_⟩
  have hkey : w.key = key := by
    rw [hw]
    exact Part.key_voiceOrNew
  rw [part.cursor_eq, part.music_eq, part.singing_eq, ← hw]
  rw [← hw] at hat
  obtain ⟨gap, s₂, hgap, hrest₃⟩ := hrest₂.bind
  obtain ⟨hgives, hfound⟩ := hat.lift hgap
  have hdifference := gives_earlier hgives
  split at hrest₃
  · next hbehind =>
    have hpositive := (WholeNotes.blt_iff _ _).mp hbehind
    have hlt : w.positionInMeasure < r.passage.position := by linarith
    have hstop : w.positionInMeasure + gap = r.passage.position := by linarith
    obtain ⟨_, s₃, hrest, hrest₄⟩ := hrest₃.bind
    have hpadded := hfound.rest hrest
    obtain ⟨_, s₄, htell, hadvance⟩ := hrest₄.bind
    have harrived := (hpadded.lift htell).2.advance hadvance
    simp only [Voice.append, hstop] at harrived
    rw [padStops, if_pos hlt]
    refine ⟨_, [.note (skipRest w gap r.passage.measureNumber line)], hpart, harrived, ?_,
      w.music_append _, (max_eq_left hlt.le).symm, ⟨[skipRest w gap _ line], rfl, ?_⟩, rfl⟩
    · rw [hdifference]
      exact Pads.rest w hlt
    · rw [padRests, if_pos hlt, hdifference]
      exact .cons (Note.dressed_skipRest hkey _ _ _) .nil
  · next hbehind =>
    have hnonpositive := mt (WholeNotes.blt_iff 0 gap).mpr hbehind
    have hle : w.positionInMeasure ≥ r.passage.position := by linarith
    rw [hrest₃.pure.2]
    rw [padStops, if_neg (not_lt.mpr hle)]
    refine ⟨w, [], hpart, hfound, Pads.none (not_lt.mpr hle), by rw [List.append_nil],
      (max_eq_right hle).symm, ⟨[], rfl, ?_⟩, rfl⟩
    rw [padRests, if_neg (not_lt.mpr hle)]
    exact .nil

/-! ## What is heard of it -/

/-- The music of the voice, with what its open tuplets hold. -/
theorem music_here (h : Giving r s part key v position tuplets reached)
    (hkey : ∀ t ∈ tuplets, t.key = key) : s.music part.id key = v.music ++ openMusic tuplets := by
  obtain ⟨⟨part', q, hbecomes, hturns⟩, _, rfl, _, _⟩ := h
  have hpassage := hbecomes.passage
  subst hpassage
  rw [← hturns.id, hbecomes.music_here, hturns.music_here, Passage.held_of_key hkey]

/-- The music of the other voices of the part. -/
theorem music_other (h : Giving r s part key v position tuplets reached)
    (hkey : ∀ t ∈ tuplets, t.key = key) {k : VoiceKey} (hk : k ≠ key) :
    s.music part.id k = part.music k := by
  obtain ⟨⟨part', q, hbecomes, hturns⟩, _, rfl, _, _⟩ := h
  have hpassage := hbecomes.passage
  subst hpassage
  rw [← hturns.id, hbecomes.music_here, hturns.music k hk, Passage.held_of_ne hkey hk,
    List.append_nil]

/-- The music of the other parts stays as it was. -/
theorem music_elsewhere (h : Giving r s part key v position tuplets reached) {id : String}
    (hid : id ≠ part.id) (k : VoiceKey) : s.music id k = r.music id k := by
  obtain ⟨⟨part', q, hbecomes, hturns⟩, _, _, _, _⟩ := h
  exact hbecomes.music_other (by rwa [hturns.id]) k

/-- How far the voice has come. -/
theorem cursor_here (h : Giving r s part key v position tuplets reached) :
    s.cursor key = v.positionInMeasure := by
  obtain ⟨⟨part', q, hbecomes, hturns⟩, _, _, _, _⟩ := h
  rw [hbecomes.cursor, hturns.cursor_here]

/-- How far the other voices have come. -/
theorem cursor_other (h : Giving r s part key v position tuplets reached) (hpart : r.part? = some part)
    {k : VoiceKey} (hk : k ≠ key) : s.cursor k = r.cursor k := by
  obtain ⟨⟨part', q, hbecomes, hturns⟩, _, _, _, _⟩ := h
  rw [hbecomes.cursor, hturns.cursor k hk, (Becomes.refl hpart).cursor]

theorem partId (h : Giving r s part key v position tuplets reached) :
    r.partId? = some part.id ∧ s.partId? = some part.id := by
  obtain ⟨⟨part', q, hbecomes, hturns⟩, _, _, _, _⟩ := h
  rw [← hturns.id, hbecomes.same_partId]
  exact ⟨hbecomes.partId, hbecomes.partId⟩

/-- What the reading remembers of the lyrics of the voice is what the voice does. -/
theorem singing_here (h : Giving r s part key v position tuplets reached) :
    s.singing part.id key = v.singing := by
  obtain ⟨⟨part', q, hbecomes, hturns⟩, _, _, _, _⟩ := h
  rw [← hturns.id, hbecomes.singing_here, hturns.singing_here]

/-- What the other voices remember of their lyrics stays as it was. -/
theorem singing_other (h : Giving r s part key v position tuplets reached) (hpart : r.part? = some part)
    {id : String} {k : VoiceKey} (hne : (id, k) ≠ (part.id, key)) :
    s.singing id k = r.singing id k := by
  obtain ⟨⟨part', q, hbecomes, hturns⟩, _, _, _, _⟩ := h
  refine hbecomes.singing_same hpart hturns.id id fun hid => hturns.singing k ?_
  rintro rfl
  exact hne (by rw [hid])

/-- Giving keeps the invariants, if the open tuplets are those of the voice. -/
theorem sound (h : Giving r s part key v position tuplets reached) (hr : r.Sound)
    (hpart : r.part? = some part) (hkey : ∀ t ∈ tuplets, t.key = key)
    (hmembers : ∀ t, tuplets.head? = some t → t.members ≠ [])
    (hreached : tuplets ≠ [] → position ≤ v.positionInMeasure) : s.Sound := by
  have hcursor := h.cursor_here
  obtain ⟨⟨part', q, hbecomes, hturns⟩, hposition, htuplets, _, _⟩ := h
  have hpassage := hbecomes.passage
  subst hpassage
  apply hbecomes.sound hr hpart hturns.keyed
  intro k hk
  cases tuplets with
  | nil => simp [Passage.tupletKey?, htuplets] at hk
  | cons t outer =>
    rw [Passage.tupletKey?_cons htuplets, hkey t List.mem_cons_self] at hk
    cases hk
    refine ⟨by rwa [htuplets], by rwa [htuplets], ?_, part', hbecomes.part?, ?_⟩
    · rw [hposition, hcursor]
      exact hreached (by simp)
    · rw [hturns.here]
      rfl

/-- Giving does not open repeats in other parts. -/
theorem closed (h : Giving r s part key v position tuplets reached) (hr : r.Closed) : s.Closed := by
  obtain ⟨⟨part', q, hbecomes, _⟩, _, _, _, _⟩ := h
  exact hbecomes.closed hr

end Giving

end Partwise
