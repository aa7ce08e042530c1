import Partwise.Proofs.Music.Boundaries
import Partwise.Proofs.Reading.Disciplines
import Partwise.Proofs.Reading.Keeping
import Partwise.Proofs.Repeats.Starts

/-!
# Repeats · Barlines: barlines come to all voices that are there

Between two barlines nothing happens to the repeats of any voice: `Unbarred` says so of a step, and
`Unbarred.discipline` proves it of all music but barlines and the ends of parts. What these do is
`Barred`: every voice of the part that is there takes the barline, and no other voice does. A voice
that comes in later begins without any repeat, whatever barlines its part has met before.
-/

namespace Partwise

open Markup

variable {r s t : Reading} {part part' : Part} {q : Passage} {line : Nat} {u : Unit} {id : String}
  {key : VoiceKey}

/-! ## Voices of a reading -/

/-- The voice of a part, or an empty one that has not begun. -/
def Part.voiceOrEmpty (p : Part) (key : VoiceKey) : Voice :=
  (p.voice? key).getD (.empty key.voice key.staff 0)

/-- The voice of a part, or an empty one that has not begun. -/
def Reading.voiceOf (r : Reading) (id : String) (key : VoiceKey) : Voice :=
  (r.partOf id).elim (.empty key.voice key.staff 0) (·.voiceOrEmpty key)

/-- The voice has begun. -/
def Reading.hasVoice (r : Reading) (id : String) (key : VoiceKey) : Bool :=
  (r.partOf id).any fun part => (part.voice? key).isSome

/-- A voice begins with signs, and without barlines. -/
theorem Part.bars_newVoice (p : Part) (key : VoiceKey) (divisions : Nat) :
    (p.newVoice key).bars = (Voice.empty key.voice key.staff divisions).bars := by
  have hplain : ∀ e ∈ p.opening key.staff, e.Plain := by
    intro e he
    simp only [opening, List.mem_append, List.mem_map] at he
    rcases he with (⟨_, _, rfl⟩ | ⟨_, _, rfl⟩) | ⟨_, _, rfl⟩ <;> exact ⟨rfl, rfl⟩
  have hrepeats : (p.opening key.staff).filterMap VoiceElement.repeat? = [] :=
    List.filterMap_eq_nil_iff.mpr fun e he => (hplain e he).repeated
  have hfirst : firstBarline? (p.opening key.staff) = none := by
    cases hopening : p.opening key.staff with
    | nil => rfl
    | cons e es => exact (hplain e (by simp [hopening])).barline
  simp only [Voice.bars, newVoice, Voice.empty, hrepeats, hfirst]
  rfl

/-- What barlines have made of a voice that has not begun is that of an empty voice. -/
theorem Part.bars_voiceOrEmpty (p : Part) (key : VoiceKey) : (p.voiceOrEmpty key).bars =
    ((p.voice? key).map Voice.bars).getD (Voice.empty key.voice key.staff 0).bars :=
  (Option.getD_map ..).symm

/-- That a voice begins changes nothing of what barlines have made of the voices. -/
theorem Part.bars_ensureVoice (p : Part) (key k : VoiceKey) :
    ((p.ensureVoice key).voiceOrEmpty k).bars = (p.voiceOrEmpty k).bars := by
  unfold voiceOrEmpty
  rw [voice?_ensureVoice]
  split
  · next hk =>
    subst hk
    unfold voiceOrNew
    cases p.voice? k with
    | none => exact p.bars_newVoice k 0
    | some v => rfl
  · rfl

/-! ## Between barlines -/

/-- No barline has come between the readings. -/
structure Unbarred (r s : Reading) : Prop where
  partId : s.partId? = r.partId?
  markers : s.passage.markers = r.passage.markers
  bars : ∀ id key, (s.voiceOf id key).bars = (r.voiceOf id key).bars
  /-- A voice that has begun is there still. -/
  lasting : ∀ id key, r.hasVoice id key = true → s.hasVoice id key = true

namespace Unbarred

/-- Between a reading and itself no barline has come. -/
theorem refl (r : Reading) : Unbarred r r := ⟨rfl, rfl, fun _ _ => rfl, fun _ _ hthere => hthere⟩

/-- If no barline has come in two steps, none has come in both together. -/
theorem trans (h : Unbarred r s) (h' : Unbarred s t) : Unbarred r t :=
  ⟨h'.partId.trans h.partId, h'.markers.trans h.markers,
    fun id key => (h'.bars id key).trans (h.bars id key),
    fun id key hthere => h'.lasting id key (h.lasting id key hthere)⟩

/-- The current part has become another one, which barlines have left alone. -/
theorem of_becomes (hpart : r.part? = some part) (h : Becomes r s part' q)
    (hid : part'.id = part.id) (hmarkers : q.markers = r.passage.markers)
    (hbars : ∀ key, (part'.voiceOrEmpty key).bars = (part.voiceOrEmpty key).bars)
    (hlasting : ∀ key, (part.voice? key).isSome = true → (part'.voice? key).isSome = true) :
    Unbarred r s := by
  have hbefore := (Becomes.refl hpart).here
  have hafter := h.here
  rw [hid] at hafter
  refine ⟨h.same_partId, by rw [h.passage, hmarkers], fun id key => ?_, fun id key hthere => ?_⟩
  · by_cases hhere : id = part.id
    · rw [hhere, Reading.voiceOf, Reading.voiceOf, hbefore, hafter]
      exact hbars key
    · rw [Reading.voiceOf, Reading.voiceOf, h.others id (by rwa [hid])]
  · by_cases hhere : id = part.id
    · rw [hhere, Reading.hasVoice, hbefore] at hthere
      rw [hhere, Reading.hasVoice, hafter]
      exact hlasting key hthere
    · rwa [Reading.hasVoice, h.others id (by rwa [hid])]

/-- No barline comes by looking for a voice. -/
theorem voiceAt {v : Voice} (h : Ends (Partwise.voiceAt line key) r v s) : Unbarred r s := by
  obtain ⟨part, _, hcurrent, _⟩ := h.bind
  have hpart := hcurrent.currentPart.1
  refine of_becomes hpart ((Becomes.refl hpart).voiceAt h).2 Part.id_ensureVoice rfl
    (part.bars_ensureVoice key) fun k hthere => ?_
  rw [Part.voice?_ensureVoice]
  split
  · rfl
  · exact hthere

/-- No barline comes by a change of the passage that leaves the markers alone. -/
theorem changePassage {f : Passage → Passage} (h : Ends (Partwise.changePassage f) r u s)
    (hf : (f r.passage).markers = r.passage.markers) : Unbarred r s := by
  rw [h.changePassage]
  exact ⟨rfl, hf, fun _ _ => rfl, fun _ _ hthere => hthere⟩

/-- No barline comes by a change of the part that leaves alone what barlines have made of its
voices. -/
theorem changePart {f : Part → Part} (h : Ends (Partwise.changePart line f) r u s)
    (hf : Part.Silent f) : Unbarred r s := by
  obtain ⟨part, hpart, _⟩ := h.changePart
  obtain ⟨hid, hvoices⟩ := hf part
  refine of_becomes hpart ((Becomes.refl hpart).changePart h hid) hid rfl (fun key => ?_)
    fun key hthere => ?_
  · rw [Part.bars_voiceOrEmpty, Part.bars_voiceOrEmpty, hvoices]
  · rwa [← Option.isSome_map, hvoices, Option.isSome_map]

/-- A voice is put back in a new state, which barlines have left alone. -/
theorem writeBack {v w : Voice} (hat : Ends (Partwise.voiceAt line key) r v s)
    (h : Ends (Partwise.changePart line fun part => part.modifyVoice key fun _ => w) s u t)
    (hkey : w.key = v.key) (hbars : w.bars = v.bars) : Unbarred r t := by
  obtain ⟨part, _, hcurrent, _⟩ := hat.bind
  have hpart := hcurrent.currentPart.1
  obtain ⟨rfl, hthere⟩ := (Becomes.refl hpart).voiceAt hat
  have hw : w.key = key := hkey.trans part.key_voiceOrNew
  refine of_becomes hpart (hthere.changePart h rfl) Part.id_ensureVoice rfl (fun k => ?_)
    fun k hbegun => ?_
  · rw [← part.bars_ensureVoice key k, Part.voiceOrEmpty, Part.voiceOrEmpty,
      Part.voice?_modifyVoice fun _ _ => hw, Part.voice?_ensureVoice]
    by_cases hk : k = key
    · simp only [if_pos hk, Option.map_some, Option.getD_some]
      exact hbars
    · simp only [if_neg hk]
  · rw [Part.voice?_modifyVoice fun _ _ => hw, Part.voice?_ensureVoice]
    by_cases hk : k = key
    · simp [hk]
    · simpa [hk] using hbegun

/-- No barline comes by decoding. -/
theorem lift {α : Type} {x : Journaled α} {a : α} (h : Ends (liftM x) r a s) : Unbarred r s := by
  rw [h.lift.2]
  exact refl r

/-- What leaves parts and passage alone is no barline. -/
theorem of_sameMusic (h : SameMusic r s) : Unbarred r s := by
  have hparts : ∀ id, s.partOf id = r.partOf id := fun id => by
    rw [Reading.partOf, Reading.partOf, h.parts]
  refine ⟨h.partId, by rw [h.passage], fun id key => ?_, fun id key hthere => ?_⟩
  · rw [Reading.voiceOf, Reading.voiceOf, hparts]
  · rwa [Reading.hasVoice, hparts]

/-- A part that is declared has no voices yet. -/
theorem of_declared (h : Declared r s part) : Unbarred r s := by
  refine ⟨h.partId, by rw [h.passage], fun id key => ?_, fun id key hthere => ?_⟩
  · rw [Reading.voiceOf, Reading.voiceOf, h.partOf]
    cases r.partOf id with
    | some p => rfl
    | none =>
      have hempty : part.voiceOrEmpty key = .empty key.voice key.staff 0 := by
        simp [Part.voiceOrEmpty, Part.voice?, h.silent]
      simp only [Option.none_or]
      split
      · exact congrArg Voice.bars hempty
      · rfl
  · unfold Reading.hasVoice at hthere ⊢
    rw [h.partOf]
    cases hpart : r.partOf id with
    | some p => simpa [hpart] using hthere
    | none => simp [hpart] at hthere

/-- No barline comes by a note that sings. -/
theorem singNote {settings : Settings} {n sung : Note} {lyrics : List Element}
    (h : Ends (Partwise.singNote settings key n lyrics) r sung s) : Unbarred r s := by
  unfold Partwise.singNote at h
  split at h
  · rw [h.pure.2]
    exact refl r
  · obtain ⟨found, r₁, hlyrics, hrest₁⟩ := h.bind
    have hsame := hlyrics.mapM fun _ _ _ _ hread => hread.lift.2
    subst hsame
    obtain ⟨v, r₂, hvoice, hrest₂⟩ := hrest₁.bind
    obtain ⟨_, r₃, htold, hrest₃⟩ := hrest₂.bind
    have hquiet : r₃ = r₂ := htold.forM (P := (· = r₂)) rfl fun _ _ _ _ heq htell =>
      htell.tell.trans heq
    subst hquiet
    obtain ⟨_, r₄, hback, hpure⟩ := hrest₃.bind
    rw [hpure.pure.2]
    obtain ⟨hkey, hbars⟩ := @Voice.Silent.sing n found v
    exact writeBack hvoice hback hkey hbars

/-- No barline comes by a member of a chord that joins its voice. -/
theorem joinInVoice {n : Note} {chordOpen : Bool}
    (h : Ends (Partwise.joinChord.joinInVoice key n chordOpen) r u s) : Unbarred r s := by
  obtain ⟨v, r₁, hvoice, hmatch⟩ := h.bind
  split at hmatch
  · next w hjoin =>
    obtain ⟨chunk, hchunk, rfl⟩ := of_map_eq_ok hjoin
    obtain ⟨hrepeats, hfirst⟩ := bars_joinLast hchunk
    refine writeBack hvoice hmatch rfl ?_
    simp only [Voice.bars, hrepeats, hfirst]
  · exact absurd hmatch not_ends_throw

/-- To leave alone what barlines have made of the voices is a discipline. -/
theorem discipline :
    Discipline fun α x => ∀ {r : Reading} {a : α} {s : Reading}, Ends x r a s → Unbarred r s where
  pure a _ _ _ h := by
    rw [h.pure.2]
    exact refl _
  throw _ _ _ _ _ h := absurd h not_ends_throw
  lift _ _ _ _ h := lift h
  bind hx hf _ _ _ h := by
    obtain ⟨a, _, hfirst, hrest⟩ := h.bind
    exact (hx hfirst).trans (hf a hrest)
  look _ hf _ _ _ h := by
    obtain ⟨_, _, hget, hrest⟩ := h.bind
    obtain ⟨rfl, rfl⟩ := hget.get
    exact hf _ hrest
  currentPart h := by
    rw [h.currentPart.2]
    exact refl _
  voiceAt h := voiceAt h
  changePassage hf _ _ _ h := changePassage h (hf.silent _)
  changeMarks hf _ _ _ h := changePassage h (hf _)
  drop h := lift h
  hollow h := lift h
  changePart hf _ _ _ h := changePart h hf
  singNote h := singNote h
  joinInVoice h := joinInVoice h

/-- An element of the header or of the part list is no barline. -/
theorem readHeader {settings : Settings} {e : Element} (hname : e.name ∈ headerNames)
    (h : Ends (readLeaf settings e) r u s) : Unbarred r s := by
  unfold readLeaf at h
  split at h
  · exact of_sameMusic (.identify h)
  · exact of_sameMusic (.identify h)
  · exact of_sameMusic (.identify h)
  · exact of_sameMusic (.identify h)
  · exact of_sameMusic (.readPartGroup h)
  · rcases Declared.of_readScorePart h with hsame | ⟨t, part, hsame, hdeclared⟩
    · exact of_sameMusic hsame
    · exact (of_sameMusic hsame).trans (of_declared hdeclared)
  all_goals simp_all [headerNames]

/-- **All elements but barlines** leave alone what barlines have made of the voices. -/
theorem readLeaf {settings : Settings} {e : Element} (hname : e.name ≠ "barline")
    (h : Ends (Partwise.readLeaf settings e) r u s) : Unbarred r s := by
  by_cases hheader : e.name ∈ headerNames
  · exact readHeader hheader h
  · exact discipline.readMusic hheader hname (fun _ => .of_lift fun _ _ _ _ => lift) h

/-- No barline comes by the end of a measure. -/
theorem leaveMeasure {e : Element} (h : Ends (Partwise.leaveMeasure e) r u s) : Unbarred r s :=
  discipline.leaveMeasure (.of_lift fun _ _ _ _ => lift) h

end Unbarred

/-! ## Barlines -/

/-- All voices of a part that are there have changed, and no other voice has. -/
structure Barred (f : Voice → Voice) (id : String) (r s : Reading) : Prop where
  same : ∀ id' key, s.hasVoice id' key = r.hasVoice id' key
  there : ∀ key, s.hasVoice id key = true → s.voiceOf id key = f (r.voiceOf id key)
  absent : ∀ key, s.hasVoice id key = false → s.voiceOf id key = r.voiceOf id key
  others : ∀ id' key, id' ≠ id → s.voiceOf id' key = r.voiceOf id' key

namespace Barred

variable {f g : Voice → Voice}

/-- All voices that are there change twice, one change after the other. -/
theorem trans (h : Barred f id r s) (h' : Barred g id s t) :
    Barred (fun v => g (f v)) id r t := by
  refine ⟨fun id' key => (h'.same id' key).trans (h.same id' key), ?_, ?_, ?_⟩
  · intro key hthere
    rw [h'.there key hthere, h.there key (h'.same id key ▸ hthere)]
  · intro key habsent
    rw [h'.absent key habsent, h.absent key (h'.same id key ▸ habsent)]
  · intro id' key hid
    rw [h'.others id' key hid, h.others id' key hid]

/-- A change of all voices of the current part has come to those of that part and to no others. -/
theorem mapVoices (h : Ends (Partwise.changePart line fun p => p.mapVoices f) r u s)
    (hf : ∀ v, (f v).key = v.key) :
    s.passage = r.passage ∧ s.partId? = r.partId? ∧ ∃ id, r.partId? = some id ∧ Barred f id r s := by
  obtain ⟨part, hpart, _⟩ := h.changePart
  have hbefore := Becomes.refl hpart
  have hafter := hbefore.changePart h rfl
  have hthere : ∀ key, (part.mapVoices f).voice? key = (part.voice? key).map f := fun key =>
    Part.voice?_mapVoices hf
  have hhere : s.partOf part.id = some (part.mapVoices f) := hafter.here
  refine ⟨hafter.passage, hafter.same_partId, part.id, hafter.partId, ?_, ?_, ?_, ?_⟩
  · intro id' key
    by_cases hid : id' = part.id
    · simp [Reading.hasVoice, hid, hhere, hbefore.here, hthere]
    · rw [Reading.hasVoice, Reading.hasVoice, hafter.others id' hid]
  · intro key hsome
    simp only [Reading.hasVoice, hhere, hthere, Option.any_some, Option.isSome_map] at hsome
    obtain ⟨v, hv⟩ := Option.isSome_iff_exists.mp hsome
    simp [Reading.voiceOf, hhere, hbefore.here, Part.voiceOrEmpty, hthere, hv]
  · intro key hnone
    simp only [Reading.hasVoice, hhere, hthere, Option.any_some, Option.isSome_map,
      Option.isSome_eq_false_iff, Option.isNone_iff_eq_none] at hnone
    simp [Reading.voiceOf, hhere, hbefore.here, Part.voiceOrEmpty, hthere, hnone]
  · intro id' key hid
    rw [Reading.voiceOf, Reading.voiceOf, hafter.others id' hid]

/-- All voices of the current part change, and what closes thereby is told. -/
theorem changeVoices {f : Voice → Voice × Option Closing}
    (h : Ends (Partwise.changeVoices line f) r u s) (hf : ∀ v, (f v).1.key = v.key) :
    s.passage = r.passage ∧ s.partId? = r.partId? ∧
      ∃ id, r.partId? = some id ∧ Barred (fun v => (f v).1) id r s := by
  obtain ⟨part, s₀, hcurrent, hrest₁⟩ := h.bind
  obtain ⟨_, rfl⟩ := hcurrent.currentPart
  obtain ⟨_, r₁, htold, hchange⟩ := hrest₁.bind
  have hsame : r₁ = s₀ := by
    refine htold.forM (P := (· = s₀)) rfl fun v _ s t heq hone => ?_
    subst heq
    split at hone
    · exact hone.tell
    · exact hone.pure.2
  subst hsame
  exact mapVoices hchange hf

end Barred

/-- **A barline** is taken by all voices of the part that are there, and the part remembers it. -/
theorem Barred.readBarline {e : Element} (h : Ends (Partwise.readBarline e) r u s) :
    ∃ b id t, Gives (Barline.ofElement e r.passage.measureNumber) b ∧ r.partId? = some id ∧
      s.partId? = some id ∧ Unbarred r t ∧
      s.passage.markers = (passMarkers b r.passage.markers).1 ∧
      Barred (fun v => (v.takeBarline b (passMarkers b r.passage.markers).2
        r.passage.measureNumber).1) id t s := by
  obtain ⟨_, r₁, hbreak, hrest₁⟩ := h.bind
  have hbroken := Unbarred.discipline.breakOff hbreak
  have hmeasure := Keeps.measureNumber_breakOff _ _ _ hbreak
  obtain ⟨_, _, hget, hrest₂⟩ := hrest₁.bind
  obtain ⟨rfl, rfl⟩ := hget.get
  extract_lets passage measure at hrest₂
  obtain ⟨b, r₂, hread, hrest₃⟩ := hrest₂.bind
  obtain ⟨hgives, rfl⟩ := hread.lift
  obtain ⟨_, r₃, htell, hrest₄⟩ := hrest₃.bind
  cases htell.tell
  obtain ⟨_, r₄, hvoice, hrest₅⟩ := hrest₄.bind
  obtain ⟨_, hat⟩ := hvoice.discard
  have hready := hbroken.trans (Unbarred.voiceAt hat)
  have hmarkers : passage.markers = r.passage.markers := hbroken.markers
  rw [hmarkers] at hrest₅
  have hnumber : measure = r.passage.measureNumber := hmeasure
  rw [hnumber] at hgives hrest₅
  rcases hpass : passMarkers b r.passage.markers with ⟨markers, explicitStart⟩
  rw [hpass] at hrest₅
  obtain ⟨_, r₅, hmark, hchange⟩ := hrest₅.bind
  obtain ⟨hpassage, hpartId, id, hid, hbarred⟩ := changeVoices hchange fun v =>
    (v.like_takeBarline ..).key
  have hmarked := hmark.changePassage
  subst hmarked
  have hhere : r.partId? = some id := hready.partId ▸ hid
  refine ⟨b, id, r₄, hgives, hhere, hpartId.trans hid, hready, ?_, ?_⟩
  · rw [hpassage, hpass]
  · rw [hpass]
    exact ⟨hbarred.same, hbarred.there, hbarred.absent, hbarred.others⟩

/-- **The end of a part** comes to all its voices. -/
theorem Barred.leavePart {e : Element} (h : Ends (Partwise.leavePart e) r u s) :
    ∃ id t measure, r.partId? = some id ∧ s.partId? = none ∧ Unbarred r t ∧
      s.passage.markers = [] ∧
      Barred (fun v => (v.endRepeats (r.passage.markers.contains .repeatStart) measure).1.flush)
        id t s := by
  obtain ⟨_, r₁, hsettle, hrest₁⟩ := h.bind
  obtain ⟨_, r₂, hcheck, hrest₂⟩ := hrest₁.bind
  have hready := (Unbarred.discipline.settle hsettle).trans (Unbarred.discipline.checkBars hcheck)
  obtain ⟨_, r₃, hend, hrest₃⟩ := hrest₂.bind
  obtain ⟨_, r₄, hflush, hleave⟩ := hrest₃.bind
  obtain ⟨_, _, hget, hrest₄⟩ := hend.bind
  obtain ⟨rfl, rfl⟩ := hget.get
  extract_lets passage explicitStart at hrest₄
  obtain ⟨_, r₅, hmark, hrest₅⟩ := hrest₄.bind
  obtain ⟨part, _, hcurrent, hrest₆⟩ := hrest₅.bind
  obtain ⟨_, rfl⟩ := hcurrent.currentPart
  obtain ⟨_, r₆, hchange, hfound⟩ := hrest₆.bind
  have hsame : r₃ = r₆ := by
    split at hfound
    · exact hfound.find
    · exact hfound.pure.2
  subst hsame
  obtain ⟨hpassage, hpartId, id, hid, hended⟩ := changeVoices hchange fun v =>
    (v.like_endRepeats ..).key
  obtain ⟨hpassage', hpartId', id', hid', hflushed⟩ := mapVoices hflush fun _ => rfl
  have hsame : id' = id := Option.some.inj (hid'.symm.trans (hpartId.trans hid))
  subst hsame
  have hexplicit : explicitStart = r.passage.markers.contains .repeatStart :=
    congrArg (List.contains · .repeatStart) hready.markers
  rw [hexplicit] at hended
  have hleft := hleave.modify
  subst hleft
  have hmarked := hmark.changePassage
  subst hmarked
  obtain ⟨hhas, hthere, habsent, hothers⟩ := hended.trans hflushed
  refine ⟨id', r₂, passage.measureNumber, hready.partId ▸ hid, rfl, hready, ?_, hhas, hthere,
    habsent, hothers⟩
  change r₄.passage.markers = []
  rw [hpassage', hpassage]

end Partwise
