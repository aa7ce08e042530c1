import Partwise.Proofs.Music.Unheard

/-!
# Music · Boundaries: the part list, parts and measures

The part list and the header bring no music. Where a measure begins, all voices and the document
stand at zero again (`MeasureBegins`); where the music of a part begins or ends, the music of all
parts stays what it is (`PartBegins`, `PartEnds`). A part that ended has no pending repeat in any
voice, so all its music is among the closed content.
-/

namespace Partwise

open Markup

variable {r s : Reading} {line : Nat} {u : Unit}

/-! ## Header and part list -/

/-- What leaves parts and passage alone is not heard. -/
theorem Quiet.of_sameMusic (hr : r.Sound) (h : SameMusic r s) : Quiet r s := by
  obtain ⟨hparts, hpartId, hpassage⟩ := h
  have hpartOf : ∀ id, s.partOf id = r.partOf id := fun id => by
    rw [Reading.partOf, Reading.partOf, hparts]
  have hpart : s.part? = r.part? := by
    rw [Reading.part?_eq, Reading.part?_eq, hpartId]
    exact congrArg _ (funext hpartOf)
  have hcursor : s.cursor = r.cursor := by
    funext key
    rw [Reading.cursor, Reading.cursor, hpart]
  refine ⟨?_, ⟨hparts ▸ hr.ids, ?_, ?_⟩, ?_, .inr (by rw [hpassage])⟩
  · ext1
    · exact hpartId
    · funext id key
      change s.music id key = r.music id key
      rw [Reading.music, Reading.music, hpartOf, hpartId, hpassage]
    · funext id key
      change s.singing id key = r.singing id key
      rw [Reading.singing, Reading.singing, hpartOf]
    · exact hcursor
    · exact congrArg Passage.position hpassage
    · exact congrArg Passage.current hpassage
  · intro id p hp
    exact hr.keyed id p (hpartOf id ▸ hp)
  · intro key hkey
    obtain ⟨hsame, hmembers, hreached, hbegun⟩ := hr.tuplets key (hpassage ▸ hkey)
    rw [← hpassage] at hsame hmembers hreached
    rw [← hcursor] at hreached
    rw [← hpart] at hbegun
    exact ⟨hsame, hmembers, hreached, hbegun⟩
  · intro hclosed id p hid hp
    exact hclosed id p (hpartId ▸ hid) (hpartOf id ▸ hp)

/-- A group that starts or stops leaves the music alone. -/
theorem SameMusic.readPartGroup {e : Element} (h : Ends (Partwise.readPartGroup e) r u s) :
    SameMusic r s := by
  unfold Partwise.readPartGroup at h
  extract_lets number at h
  split at h
  · obtain ⟨group, r₁, hread, hrest₁⟩ := h.bind
    cases hread.lift.2
    obtain ⟨_, r₂, htell, hopen⟩ := hrest₁.bind
    cases htell.tell
    exact .changePartList hopen
  · obtain ⟨_, _, hget, hrest₁⟩ := h.bind
    obtain ⟨rfl, rfl⟩ := hget.get
    split at hrest₁
    · obtain ⟨_, r₁, htake, hclose⟩ := hrest₁.bind
      exact (SameMusic.changePartList htake).trans (.closeGroup hclose)
    · cases hrest₁.find
      exact .refl _
  · cases h.find
    exact .refl _

/-- A group that starts or stops is not heard. -/
theorem Quiet.readPartGroup (hr : r.Sound) {e : Element}
    (h : Ends (Partwise.readPartGroup e) r u s) : Quiet r s :=
  of_sameMusic hr (.readPartGroup h)

/-- The reading `s` is `r` with one part more, which has no music yet and an id of its own. -/
structure Declared (r s : Reading) (part : Part) : Prop where
  silent : part.voices = []
  new : ∀ p ∈ r.parts, p.id ≠ part.id
  parts : s.parts = r.parts ++ [part]
  partId : s.partId? = r.partId?
  passage : s.passage = r.passage

namespace Declared

variable {part : Part}

/-- A part that was there is still found first. -/
theorem partOf (h : Declared r s part) (id : String) :
    s.partOf id = (r.partOf id).or (if part.id = id then some part else none) := by
  simp only [Reading.partOf, h.parts, List.find?_append, List.find?_cons, List.find?_nil]
  by_cases hid : part.id = id <;> simp [hid]

/-- A part that is found was there, or is the one that was declared. -/
theorem of_partOf (h : Declared r s part) {id : String} {p : Part} (hp : s.partOf id = some p) :
    r.partOf id = some p ∨ p = part := by
  rw [h.partOf] at hp
  rcases Option.or_eq_some_iff.mp hp with hold | ⟨_, hp⟩
  · exact .inl hold
  · split at hp
    · exact .inr (Option.some.inj hp).symm
    · cases hp

/-- No voice moves. -/
theorem cursor (h : Declared r s part) : s.cursor = r.cursor := by
  funext key
  simp only [Reading.cursor, Reading.part?_eq, h.partId]
  cases r.partId? with
  | none => rfl
  | some id =>
    rw [Option.bind_some, Option.bind_some, h.partOf]
    cases r.partOf id with
    | none => split <;> simp [Part.cursor, Part.voice?, h.silent]
    | some p => rfl

/-- No voice gets music. -/
theorem music (h : Declared r s part) : s.music = r.music := by
  funext id key
  have hmusic : ∀ key, part.music key = [] := by simp [Part.music, Part.voice?, h.silent]
  rw [Reading.music, Reading.music, h.partOf, h.partId, h.passage]
  cases r.partOf id with
  | none => split <;> simp [hmusic]
  | some p => rfl

/-- No voice remembers anything else. -/
theorem singing (h : Declared r s part) : s.singing = r.singing := by
  funext id key
  have hsinging : part.singing key = {} := by simp [Part.singing, Part.voice?, h.silent]
  rw [Reading.singing, Reading.singing, h.partOf]
  cases r.partOf id with
  | none => split <;> simp [hsinging]
  | some p => rfl

/-- A sound reading stays so when a part is declared. -/
theorem sound (h : Declared r s part) (hr : r.Sound) : s.Sound := by
  refine ⟨?_, ?_, ?_⟩
  · rw [h.parts, List.map_append, List.nodup_append]
    refine ⟨hr.ids, by simp, ?_⟩
    intro id hid id' hid' heq
    obtain ⟨p, hp, rfl⟩ := List.mem_map.mp hid
    exact h.new p hp (by simpa [heq] using hid')
  · intro id p hp
    rcases h.of_partOf hp with hold | rfl
    · exact hr.keyed id p hold
    · simp [Part.Keyed, h.silent]
  · intro key hkey
    obtain ⟨hsame, hmembers, hreached, begun, hbegun, hvoice⟩ :=
      hr.tuplets key (h.passage ▸ hkey)
    obtain ⟨id, hid, hpart⟩ := Option.bind_eq_some_iff.mp (r.part?_eq ▸ hbegun)
    rw [← h.passage] at hsame hmembers hreached
    rw [← h.cursor] at hreached
    refine ⟨hsame, hmembers, hreached, begun, ?_, hvoice⟩
    rw [Reading.part?_eq, h.partId, hid, Option.bind_some, h.partOf, hpart]
    rfl

/-- A part that is declared is not heard. -/
theorem quiet (h : Declared r s part) (hr : r.Sound) : Quiet r s := by
  refine ⟨?_, h.sound hr, ?_, .inr (by rw [h.passage])⟩
  · ext1
    · exact h.partId
    · exact h.music
    · exact h.singing
    · exact h.cursor
    · exact congrArg Passage.position h.passage
    · exact congrArg Passage.current h.passage
  · intro hclosed id p hid hp v hv
    rcases h.of_partOf hp with hold | rfl
    · exact hclosed id p (h.partId ▸ hid) hold v hv
    · rw [h.silent] at hv
      cases hv

end Declared

/-- A declaration leaves the music alone, apart from the part that it declares. -/
theorem Declared.of_readScorePart {e : Element} (h : Ends (Partwise.readScorePart e) r u s) :
    SameMusic r s ∨ ∃ t part, SameMusic r t ∧ Declared t s part := by
  unfold Partwise.readScorePart at h
  split at h
  · next id _ =>
    obtain ⟨_, _, hget, hrest₁⟩ := h.bind
    obtain ⟨rfl, rfl⟩ := hget.get
    split at hrest₁
    · cases hrest₁.find
      exact .inl (.refl _)
    · next hnew =>
      obtain ⟨_, _, hget', hrest₂⟩ := hrest₁.bind
      obtain ⟨rfl, rfl⟩ := hget'.get
      extract_lets declare at hrest₂
      obtain ⟨r₁, hsame, hdeclare⟩ : ∃ r₁, SameMusic r r₁ ∧ Ends (declare ()) r₁ u s := by
        split at hrest₂
        · obtain ⟨_, r₁, hopen, hdeclare⟩ := hrest₂.bind
          exact ⟨r₁, .changePartList hopen, hdeclare⟩
        · exact ⟨r, .refl r, hrest₂⟩
      obtain ⟨_, r₂, hlist, hrest₃⟩ := hdeclare.bind
      have hlisted := hsame.trans (.changePartList hlist)
      obtain ⟨_, r₃, htell, hadd⟩ := hrest₃.bind
      cases htell.tell
      have hadded := hadd.modify
      have hnone : ∀ p ∈ r₂.parts, p.id ≠ (Part.ofElement e id).id := by
        rw [hlisted.parts]
        simpa [Part.ofElement] using hnew
      refine .inr ⟨r₂, Part.ofElement e id, hlisted, rfl, hnone, ?_, ?_, ?_⟩ <;> rw [hadded]
  · exact absurd h not_ends_throw

/-- A declaration is not heard. -/
theorem Quiet.readScorePart (hr : r.Sound) {e : Element}
    (h : Ends (Partwise.readScorePart e) r u s) : Quiet r s := by
  rcases Declared.of_readScorePart h with hsame | ⟨t, part, hsame, hdeclared⟩
  · exact of_sameMusic hr hsame
  · have hquiet := of_sameMusic hr hsame
    exact hquiet.trans (hdeclared.quiet hquiet.sound)

/-- What says who made the work leaves the music alone. -/
theorem SameMusic.identify {f : Identification → Identification}
    (h : Ends (Partwise.identify f) r u s) : SameMusic r s := by
  have hs := h.modify
  rw [hs]
  exact ⟨rfl, rfl, rfl⟩

/-- What says who made the work is not heard. -/
theorem Quiet.identify (hr : r.Sound) {f : Identification → Identification}
    (h : Ends (Partwise.identify f) r u s) : Quiet r s :=
  of_sameMusic hr (.identify h)

/-! ## Measures -/

/-- A measure begins: all voices and the document stand at zero. -/
structure MeasureBegins (r s : Reading) : Prop where
  inPart : ∃ id, r.partId? = some id
  view : s.view = { r.view with cursor := fun _ => 0, position := 0 }
  sound : s.Sound
  closed : r.Closed → s.Closed
  tuplets : TupletsGoOn r s

/-- The voice, at the start of the measure. -/
def Voice.rewound (v : Voice) : Voice := { v with positionInMeasure := 0 }

/-- A part of which all voices stand at the start of the measure. -/
theorem Part.of_rewound {p q : Part} (hq : q.voices = p.voices.map Voice.rewound)
    (key : VoiceKey) : q.music key = p.music key ∧ q.singing key = p.singing key ∧
      q.cursor key = 0 ∧ ((p.voice? key).isSome → (q.voice? key).isSome) := by
  have hvoice : q.voice? key = (p.voice? key).map Voice.rewound := by
    rw [← voice?_mapVoices (f := Voice.rewound) fun _ => rfl]
    simp only [voice?, hq, mapVoices]
  rw [music, music, singing, singing, cursor, hvoice]
  cases p.voice? key <;> simp [Voice.music, Voice.flatten, Voice.singing, Voice.rewound]

/-- A part of which all voices are put back to the start, in a passage that begins anew. -/
theorem MeasureBegins.of_becomes (hr : r.Sound) {part part' : Part} {q : Passage}
    (hpart : r.part? = some part) (h : Becomes r s part' q) (hid : part'.id = part.id)
    (hvoices : part'.voices = part.voices.map Voice.rewound) (hposition : q.position = 0)
    (hcurrent : q.current = r.passage.current) (htuplets : q.tuplets = r.passage.tuplets) :
    MeasureBegins r s := by
  have hrewound := Part.of_rewound hvoices
  have hkey : q.tupletKey? = r.passage.tupletKey? := by simp [Passage.tupletKey?, htuplets]
  have hcursor : s.cursor = fun _ => 0 := by
    funext key
    rw [h.cursor, (hrewound key).2.2.1]
  refine ⟨⟨_, h.partId⟩, ?_, h.sound hr hpart (fun hkeyed => hkeyed.of_map hvoices fun _ => rfl)
    ?_, h.closed, .inr (by rw [h.passage, hkey])⟩
  · ext1
    · exact h.same_partId
    · funext id key
      refine h.music_same hpart hid id fun _ => ?_
      rw [(hrewound key).1, Passage.held, Passage.held, hkey, htuplets]
    · funext id key
      exact h.singing_same hpart hid id fun _ => (hrewound key).2.1
    · exact hcursor
    · exact (congrArg Passage.position h.passage).trans hposition
    · exact (congrArg Passage.current h.passage).trans hcurrent
  · intro key htuplet
    obtain ⟨hsame, hmembers, _, begun, hbegun, hvoice⟩ := hr.tuplets key (hkey ▸ htuplet)
    rw [hpart] at hbegun
    cases hbegun
    rw [← htuplets, ← h.passage] at hsame hmembers
    refine ⟨hsame, hmembers, ?_, part', h.part?, (hrewound key).2.2.2 hvoice⟩
    have hstart : s.cursor key = s.passage.position := by rw [h.passage, hposition, hcursor]
    exact hstart ▸ Rat.le_refl

/-- A measure begins also if a quiet step comes before it. -/
theorem MeasureBegins.after_quiet {t : Reading} (hquiet : Quiet r s) (h : MeasureBegins s t) :
    MeasureBegins r t :=
  ⟨hquiet.partId ▸ h.inPart, by rw [h.view, hquiet.view], h.sound,
    fun hclosed => h.closed (hquiet.closed hclosed),
    hquiet.tuplets.trans h.tuplets⟩

/-- A measure that is entered begins in all that is heard. -/
theorem MeasureBegins.enterMeasure (hr : r.Sound) {e : Element}
    (h : Ends (Partwise.enterMeasure e) r u s) : MeasureBegins r s := by
  obtain ⟨_, r₁, hcheck, hrest₁⟩ := h.bind
  have hchecked := Quiet.checkBars hr hcheck
  obtain ⟨_, r₂, htell, hrest₂⟩ := hrest₁.bind
  have htold := hchecked.trans (Quiet.lift hchecked.sound htell)
  obtain ⟨_, r₃, hpart, hpassage⟩ := hrest₂.bind
  obtain ⟨part, hcurrent, _⟩ := hpart.changePart
  have hbecomes := ((Becomes.refl hcurrent).changePart hpart rfl).changePassage hpassage
  exact (of_becomes htold.sound hcurrent hbecomes rfl rfl rfl rfl rfl).after_quiet htold

/-! ## Parts -/

/-- The music of a part begins, for all its voices anew. -/
structure PartBegins (id : String) (r s : Reading) : Prop where
  partId : s.partId? = some id
  passage : s.passage = {}
  music : r.partId? = none → s.music = r.music
  singing : s.singing = r.singing
  sound : s.Sound
  closed : r.partId? = none → r.Closed → s.Closed

/-- A part that is entered begins in all that is heard, under the id of its element. -/
theorem PartBegins.enterPart (hr : r.Sound) {e : Element}
    (h : Ends (Partwise.enterPart e) r u s) : PartBegins ((e.attr? "id").getD "") r s := by
  obtain ⟨_, _, hget, hrest₁⟩ := h.bind
  obtain ⟨rfl, rfl⟩ := hget.get
  split at hrest₁
  · obtain ⟨_, r₁, htell, hset⟩ := hrest₁.bind
    have hs := hset.modify
    rw [htell.tell] at hs
    subst hs
    refine ⟨rfl, rfl, ?_, rfl, ⟨hr.ids, hr.keyed, fun key hkey => nomatch hkey⟩,
      fun hnone hclosed id p _ hp => hclosed id p (by simp [hnone]) hp⟩
    intro hnone
    funext id key
    change _ ++ _ = _ ++ _
    simp [hnone, Reading.partOf, Passage.held, Passage.tupletKey?]
  · exact absurd hrest₁ not_ends_throw

/-- The music of a part ends. -/
structure PartEnds (r s : Reading) : Prop where
  inPart : r.partId? ≠ none
  partId : s.partId? = none
  music : s.music = r.music
  singing : s.singing = r.singing
  positions : ∀ id, r.partId? = some id → ∀ key, s.positionOf id key = r.positionOf id key
  tuplets : s.passage.tuplets = []
  sound : s.Sound
  closed : r.Closed → s.Closed

/-- The repeats of a part end, and none is pending any more. -/
theorem Ends.endRepeats (h : Ends (Partwise.endRepeats line) r u s) :
    ∃ part, s.part? = some part ∧ ∀ v ∈ part.voices, v.pending? = none := by
  obtain ⟨_, _, _, hrest₁⟩ := h.bind
  obtain ⟨_, _, _, hrest₂⟩ := hrest₁.bind
  obtain ⟨part, _, _, hrest₃⟩ := hrest₂.bind
  obtain ⟨_, r₂, hvoices, hfound⟩ := hrest₃.bind
  have hs : s = r₂ := by
    split at hfound
    · exact hfound.find
    · exact hfound.pure.2
  subst hs
  obtain ⟨_, _, _, hrest₄⟩ := hvoices.bind
  obtain ⟨_, r₃, _, hchange⟩ := hrest₄.bind
  obtain ⟨before, hbefore, _⟩ := hchange.changePart
  refine ⟨_, ((Becomes.refl hbefore).changePart hchange rfl).part?, ?_⟩
  intro v hv
  obtain ⟨w, _, rfl⟩ := List.mem_map.mp hv
  exact w.pending?_endRepeats ..

/-- The end of repeats is not heard. -/
theorem Quiet.endRepeats (hr : r.Sound) (h : Ends (Partwise.endRepeats line) r u s) :
    Quiet r s := by
  obtain ⟨_, _, hget, hrest₁⟩ := h.bind
  obtain ⟨rfl, rfl⟩ := hget.get
  obtain ⟨_, r₁, hpassage, hrest₂⟩ := hrest₁.bind
  have hmarked := changePassage hr hpassage rfl rfl rfl
  obtain ⟨part, _, hcurrent, hrest₃⟩ := hrest₂.bind
  obtain ⟨_, rfl⟩ := hcurrent.currentPart
  obtain ⟨_, r₂, hvoices, hfound⟩ := hrest₃.bind
  have hquiet := hmarked.trans (changeVoices hmarked.sound hvoices fun v => v.like_endRepeats ..)
  have hs : s = r₂ := by
    split at hfound
    · exact hfound.find
    · exact hfound.pure.2
  rwa [hs]

/-- Where no repeat is pending, all chunks are closed if only those of such voices are. -/
theorem Part.voices_flush {part : Part} (hpending : ∀ v ∈ part.voices, v.pending? = none) :
    (part.mapVoices Voice.flush).voices =
      part.voices.map fun v => if v.pending? = none then v.flush else v :=
  List.map_congr_left fun v hv => by rw [if_pos (hpending v hv)]

/-- The chunks of a part are closed where no repeat is pending. -/
theorem Quiet.flush (hr : r.Sound) {part : Part} (hpart : r.part? = some part)
    (hpending : ∀ v ∈ part.voices, v.pending? = none)
    (h : Ends (Partwise.changePart line fun p => p.mapVoices Voice.flush) r u s) :
    Quiet r s ∧ ∃ part', s.part? = some part' ∧ ∀ v ∈ part'.voices, v.pending? = none := by
  have hbecomes := (Becomes.refl hpart).changePart h rfl
  have hlike : part.Like (part.mapVoices Voice.flush) := by
    refine Part.Like.of_map rfl (Part.voices_flush hpending) ?_
    intro v
    split
    · next hnone => exact ⟨rfl, v.music_flush hnone, rfl, rfl⟩
    · exact Voice.Like.refl v
  refine ⟨of_becomes hr hpart hbecomes hlike rfl rfl rfl, _, hbecomes.part?, ?_⟩
  intro v hv
  obtain ⟨w, hw, rfl⟩ := List.mem_map.mp hv
  exact hpending w hw

/-- Where no tuplet is open, none is opened by what goes on. -/
theorem TupletsGoOn.none (h : TupletsGoOn r s) (hnone : r.passage.tuplets = []) :
    s.passage.tuplets = [] := by
  rcases h with h | h
  · exact h
  · simpa [Passage.tupletKey?, hnone] using h

/-- A part that is left ends in all that is heard. -/
theorem PartEnds.leavePart (hr : r.Sound) {e : Element}
    (h : Ends (Partwise.leavePart e) r u s) : PartEnds r s := by
  obtain ⟨_, r₁, hsettle, hrest₁⟩ := h.bind
  obtain ⟨hsettled, hnone⟩ := Quiet.settle hr hsettle
  obtain ⟨_, r₂, hcheck, hrest₂⟩ := hrest₁.bind
  have hchecked := Quiet.checkBars hsettled.sound hcheck
  obtain ⟨_, r₃, hrepeats, hrest₃⟩ := hrest₂.bind
  have hended := Quiet.endRepeats hchecked.sound hrepeats
  obtain ⟨part, hpart, hpending⟩ := hrepeats.endRepeats
  obtain ⟨_, r₄, hflush, hleave⟩ := hrest₃.bind
  obtain ⟨hflushed, part', hpart', hpending'⟩ := Quiet.flush hended.sound hpart hpending hflush
  have hquiet := ((hsettled.trans hchecked).trans hended).trans hflushed
  have hsilent : r₄.passage.tuplets = [] :=
    ((hchecked.tuplets.trans hended.tuplets).trans hflushed.tuplets).none hnone
  obtain ⟨id, hid, hfound⟩ := Option.bind_eq_some_iff.mp (r₄.part?_eq ▸ hpart')
  have hs := hleave.modify
  subst hs
  refine ⟨?_, rfl, ?_, hquiet.singing, ?_, hsilent,
    ⟨hquiet.sound.ids, hquiet.sound.keyed, ?_⟩, ?_⟩
  · rw [← hquiet.partId, hid]
    simp
  · funext id key
    rw [← hquiet.music]
    change _ ++ _ = _ ++ _
    simp [Reading.partOf, Passage.held, Passage.tupletKey?, hsilent]
  · intro id' hid' key
    rw [Reading.positionOf_current hid', ← hquiet.cursor key,
      ← Reading.positionOf_current (hquiet.partId.trans hid')]
    exact Reading.positionOf_congr rfl key
  · intro key hkey
    change r₄.passage.tupletKey? = some key at hkey
    simp [Passage.tupletKey?, hsilent] at hkey
  · intro hclosed id' p _ hp
    by_cases hid' : id' = id
    · have hsame : r₄.partOf id = some p := hid' ▸ hp
      rw [hfound] at hsame
      cases hsame
      exact hpending'
    · exact hquiet.closed hclosed id' p (by rw [hid]; simpa using Ne.symm hid') hp

end Partwise
