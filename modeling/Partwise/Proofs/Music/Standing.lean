import Mathlib.Data.List.Find
import Partwise.Proofs.Music.Tuplets
import Partwise.Proofs.Reading.Knowing

/-!
# Music · Standing: where signs and directions stand among the notes

Clefs, keys, times and standing directions are put at the end of a voice at once. What a voice holds
up to such an element is never touched again: barlines only move it about, and a member of a chord
joins what takes time (`Voice.Edited.begins`). So the notes that come later come behind it.

Notes are not always put into their voice at once, though. While tuplets are open these hold all
notes that were read since the outermost one opened, and they come into the voice once it closes. A
sign or direction that is read meanwhile stands before notes that the document has before it
(`Document.standing_placed`), since tuplets have only notes, chords and tuplets as members.
-/

namespace Partwise

open Markup

/-! ## What a voice begins with -/

namespace Voice

/-- What is played of the voice begins with the elements. -/
def Begins (v : Voice) (es : List VoiceElement) : Prop := es <+: played v.flatten

variable {v w : Voice} {es : List VoiceElement} {e : VoiceElement}

/-- A voice begins with the same as long as all that is done to it comes behind. -/
theorem Begins.append (h : v.Begins es) {more : List VoiceElement}
    (hw : played w.flatten = played v.flatten ++ more) : w.Begins es := by
  rw [Begins, hw]
  exact List.IsPrefix.trans h (List.prefix_append _ _)

/-- A voice that flattens to the same begins with the same. -/
theorem Begins.of_flatten (h : v.Begins es) (hw : w.flatten = v.flatten) : w.Begins es := by
  rwa [Begins, hw]

end Voice

/-- What a note joins takes time, and so does what comes of it. -/
theorem VoiceElement.timed_join {n : Note} {chordOpen : Bool} {e e' : VoiceElement}
    (h : e.join n chordOpen = .ok e') :
    e.isTimed = true ∧ e.flatten = [e] ∧ e'.flatten = [e'] := by
  unfold join at h
  split at h
  · split at h
    · cases h
    · cases h
      exact ⟨rfl, rfl, rfl⟩
  · split at h
    · cases h
      exact ⟨rfl, rfl, rfl⟩
    · cases h
  · obtain ⟨t', _, rfl⟩ := of_map_eq_ok h
    exact ⟨rfl, rfl, rfl⟩
  · cases h

/-- A note joins the last of some elements, which takes time. -/
theorem flatten_joinLast {n : Note} {chordOpen : Bool} {es es' : List VoiceElement}
    (h : joinLast n chordOpen es = .ok es') : ∃ before e e', e.isTimed = true ∧
      flattenElements es = before ++ [e] ∧ flattenElements es' = before ++ [e'] := by
  induction es generalizing es' with
  | nil => exact nomatch h
  | cons e es ih =>
    cases es with
    | nil =>
      obtain ⟨e', he, rfl⟩ := of_map_eq_ok h
      obtain ⟨htimed, hbefore, hafter⟩ := VoiceElement.timed_join he
      exact ⟨[], e, e', htimed, by simp [flattenElements, hbefore],
        by simp [flattenElements, hafter]⟩
    | cons next es =>
      obtain ⟨rest, hrest, rfl⟩ := of_map_eq_ok h
      obtain ⟨before, x, x', htimed, hbefore, hafter⟩ := ih hrest
      refine ⟨e.flatten ++ before, x, x', htimed, ?_, ?_⟩
      · rw [flattenElements, hbefore, List.append_assoc]
      · rw [flattenElements, hafter, List.append_assoc]

/-- **What a voice begins with** it goes on to begin with, up to an element that takes no time. -/
theorem Voice.Edited.begins {v w : Voice} (h : v.Edited w) {es : List VoiceElement}
    {e : VoiceElement} (he : e.isTimed = false) (hv : v.Begins (es ++ [e])) :
    w.Begins (es ++ [e]) := by
  cases h with
  | place => exact hv
  | @append x given => exact hv.append (by rw [flatten_append, played_append])
  | joinChord joined =>
    obtain ⟨chunk, hchunk, rfl⟩ := of_map_eq_ok joined
    obtain ⟨before, x, x', htimed, hbefore, hafter⟩ := flatten_joinLast hchunk
    have hplayed : ∀ (c : List VoiceElement) (y : VoiceElement), flattenElements c = before ++ [y] →
        played { v with chunk := c }.flatten =
          played (flattenElements v.elements ++ v.pendingFlat ++ before) ++ played [y] := by
      intro c y hy
      rw [← played_append, List.append_assoc, ← hy, flatten_eq]
      rfl
    have hx : played [x] = [x] := by
      cases x <;> first | rfl | exact nomatch htimed
    have hbegins : es ++ [e] <+:
        played (flattenElements v.elements ++ v.pendingFlat ++ before) ++ [x] := by
      rw [← hx, ← hplayed v.chunk x hbefore]
      exact hv
    rw [Begins, hplayed chunk x' hafter]
    rcases List.prefix_concat_iff.mp hbegins with hwhole | hinside
    · -- the last element would take time
      obtain rfl := List.singleton_inj.mp (List.append_inj_right' hwhole rfl)
      exact nomatch he.symm.trans htimed
    · exact hinside.trans (List.prefix_append _ _)
  | takeBarline b explicitStart measure => exact hv.append (v.played_takeBarline ..)
  | endRepeats explicitStart measure =>
    exact hv.append ((v.played_endRepeats ..).trans (List.append_nil _).symm)
  | flush none => exact hv.of_flatten (flatten_flush v none)
  | sing n lyrics =>
    obtain ⟨_, _, _, hsung⟩ := v.sing_eq n lyrics
    rw [hsung]
    exact hv
  | markSlurs slurs kind =>
    obtain ⟨_, _, hmarked⟩ := v.markSlurs_eq slurs kind
    rw [hmarked]
    exact hv

/-! ## What the voice of a part begins with -/

namespace Part

variable {p q : Part} {id : String} {key : VoiceKey} {es : List VoiceElement} {e : VoiceElement}

/-- If the part is the one with the id, its voice begins with the elements. -/
def VoiceBegins (id : String) (key : VoiceKey) (es : List VoiceElement) (p : Part) : Prop :=
  p.id = id → ∃ v, p.voice? key = some v ∧ v.Begins es

/-- A voice of a part begins with the same once all voices have changed to such as begin with what
they began with. -/
theorem VoiceBegins.of_map (h : p.VoiceBegins id key es) {f : Voice → Voice} (hid : q.id = p.id)
    (hq : q.voices = p.voices.map f)
    (hf : ∀ v ∈ p.voices, (f v).key = v.key ∧ (v.Begins es → (f v).Begins es)) :
    q.VoiceBegins id key es := by
  intro hat
  obtain ⟨v, hv, hbegins⟩ := h (hid.symm.trans hat)
  have hmem := List.mem_of_find?_eq_some hv
  have hsame : p.voices.find? ((fun w => decide (w.key = key)) ∘ f) =
      p.voices.find? fun w => w.key = key :=
    List.find?_congr fun w hw => by simp [(hf w hw).1]
  refine ⟨f v, ?_, (hf v hmem).2 hbegins⟩
  rw [voice?, hq, List.find?_map, hsame]
  exact congrArg (Option.map f) hv

/-- **Whatever is read**, the voice goes on to begin with the same. -/
theorem voiceBegins_keeps (he : e.isTimed = false) :
    PartKeeps (VoiceBegins id key (es ++ [e])) where
  ensureVoice {p} k h := by
    intro hat
    obtain ⟨v, hv, hbegins⟩ := h (id_ensureVoice.symm.trans hat)
    refine ⟨v, ?_, hbegins⟩
    rw [voice?_ensureVoice]
    split
    · next hk =>
      rw [voiceOrNew, ← hk, hv]
      rfl
    · exact hv
  edit h hf := h.of_map rfl rfl fun v hv => by
    rcases hf v hv with hedited | hsame
    · exact ⟨hedited.key, hedited.begins he⟩
    · rw [hsame]
      exact ⟨rfl, fun hbegins => hbegins⟩
  ensureStaves _ h := h
  enterMeasure _ h := h
  withKey k h := h.of_map rfl rfl fun v _ =>
    ⟨rfl, fun hbegins => hbegins.append (by rw [Voice.flatten_append, played_append])⟩
  withTime t h := h.of_map rfl rfl fun v _ =>
    ⟨rfl, fun hbegins => hbegins.append (by rw [Voice.flatten_append, played_append])⟩
  withClef c h := h.of_map rfl rfl fun v _ => by
    split
    · exact ⟨rfl, fun hbegins => hbegins.append (by rw [Voice.flatten_append, played_append])⟩
    · exact ⟨rfl, fun hbegins => hbegins⟩
  withDivisions _ h := h.of_map rfl rfl fun v _ => ⟨rfl, fun hbegins => hbegins⟩

end Part

/-! ## What a move puts into a voice -/

/-- What a clef element puts into the voices on a staff: its clef, if it belongs there. -/
def Markup.Element.clefOn (e : Element) (staff : Nat) : List VoiceElement :=
  (result (Clef.ofElement e)).elim [] fun clef =>
    if clef.staffNumber = staff then [.clef clef] else []

/-- The signs that attributes put into the voices on a staff. -/
def Markup.Element.signsOn (e : Element) (staff : Nat) : List VoiceElement :=
  ((e.child? "key").bind fun child => result (Key.ofElement child)).toList.map .key ++
    ((e.child? "time").bind fun child => result (Time.ofElement child)).toList.map .time ++
    (e.childrenNamed "clef").flatMap fun child => child.clefOn staff

/-- The clefs, keys, times and directions that a move puts at the end of a voice of the part that is
being read. Signs are put into voices that have begun; a direction may be the first that its voice
is given. -/
def Move.stands (settings : Settings) (r : Reading) (key : VoiceKey) : Move → List VoiceElement
  | leaf e =>
    match e.name with
    | "attributes" =>
      if (r.part?.bind fun part => part.voice? key).isSome then e.signsOn key.staff else []
    | "direction" =>
      if result ((r.surroundings settings).place e r.passage.current) = some key then
        (result (DirectionContent.ofElement e)).elim [] fun content =>
          content.standing.map .direction
      else []
    | "sound" =>
      if r.passage.current = key then
        (e.attr? "tempo").toList.map fun tempo => .direction (.tempo (.ofSound tempo))
      else []
    | _ => []
  | _ => []

/-- The change of a part puts the elements at the end of a voice, if the voice has begun. -/
def Part.Puts (key : VoiceKey) (es : List VoiceElement) (f : Part → Part) : Prop :=
  ∀ p, (f p).id = p.id ∧ ∀ v, p.voice? key = some v →
    ∃ w, (f p).voice? key = some w ∧ w.flatten = v.flatten ++ es

namespace Part.Puts

variable {key : VoiceKey} {es : List VoiceElement} {f : Part → Part}

/-- All voices change, and the one with the key is given the elements. -/
theorem of_map (g : Voice → Voice) (hf : ∀ p, (f p).id = p.id ∧ (f p).voices = p.voices.map g)
    (hkey : ∀ v, (g v).key = v.key) (hg : ∀ v, v.key = key → (g v).flatten = v.flatten ++ es) :
    Puts key es f := by
  intro p
  refine ⟨(hf p).1, fun v hv => ⟨g v, ?_, hg v (key_of_voice? hv)⟩⟩
  have hmap := voice?_mapVoices (p := p) (k := key) hkey
  rw [hv] at hmap
  rw [voice?, (hf p).2]
  exact hmap

/-- A change of key puts the key at the end of every voice. -/
theorem withKey (k : Key) : Puts key [.key k] (Part.withKey · k) :=
  of_map _ (fun _ => ⟨rfl, rfl⟩) (fun _ => rfl) fun v _ => v.flatten_append _

/-- A change of time puts the time at the end of every voice. -/
theorem withTime (time : Time) : Puts key [.time time] (Part.withTime · time) :=
  of_map _ (fun _ => ⟨rfl, rfl⟩) (fun _ => rfl) fun v _ => v.flatten_append _

/-- A clef is put at the end of the voices of its staff, and of no others. -/
theorem withClef (clef : Clef) :
    Puts key (if clef.staffNumber = key.staff then [.clef clef] else []) (Part.withClef · clef) := by
  refine of_map _ (fun _ => ⟨rfl, rfl⟩) (fun v => by split <;> rfl) ?_
  rintro v rfl
  by_cases hstaff : v.staffNumber = clef.staffNumber
  · rw [if_pos hstaff, if_pos (show clef.staffNumber = v.key.staff from hstaff.symm)]
    exact v.flatten_append _
  · have hclef : clef.staffNumber ≠ v.key.staff := fun heq => hstaff (Eq.symm heq)
    rw [if_neg hstaff, if_neg hclef, List.append_nil]

/-- Staves that come to a part put nothing into a voice. -/
theorem ensureStaves (count : Nat) : Puts key [] (Part.ensureStaves · count) :=
  fun _ => ⟨rfl, fun v hv => ⟨v, hv, (List.append_nil _).symm⟩⟩

/-- Divisions put nothing into a voice. -/
theorem withDivisions (perWhole : Nat) : Puts key [] (Part.withDivisions · perWhole) :=
  of_map _ (fun _ => ⟨rfl, rfl⟩) (fun _ => rfl) fun _ _ => (List.append_nil _).symm

/-- An element that a voice is given stands at its end. -/
theorem append (e : VoiceElement) :
    Puts key e.flatten fun p => (p.ensureVoice key).modifyVoice key fun v => v.append e := by
  intro p
  have hturns := (Turns.ensureVoice p key).modifyVoice (f := fun v => v.append e) fun _ hkey => hkey
  refine ⟨hturns.id, fun v hv => ⟨v.append e, ?_, v.flatten_append e⟩⟩
  rw [hturns.here, voiceOrNew, hv]
  rfl

end Part.Puts

/-- A voice of the part that is being read was `v`, and the elements came to its end. -/
structure Reading.Gains (r s : Reading) (id : String) (key : VoiceKey) (v : Voice)
    (es : List VoiceElement) : Prop where
  gained : ∃ part passage, Becomes r s part passage ∧ part.id = id ∧
    ∃ w, part.voice? key = some w ∧ w.flatten = v.flatten ++ es

namespace Reading.Gains

variable {r s t : Reading} {id : String} {key : VoiceKey} {v : Voice} {es : List VoiceElement}
  {settings : Settings} {line : Nat} {u : Unit}

/-- A voice that has begun gained nothing in no step. -/
theorem refl {part : Part} (hpart : r.part? = some part) (hv : part.voice? key = some v) :
    Gains r r part.id key v [] :=
  ⟨part, r.passage, Becomes.refl hpart, rfl, v, hv, (List.append_nil _).symm⟩

/-- A voice gains what a change of the part puts into it. -/
theorem changePart (h : Gains r s id key v es) {f : Part → Part} {more : List VoiceElement}
    (hf : Part.Puts key more f) (hrun : Ends (Partwise.changePart line f) s u t) :
    Gains r t id key v (es ++ more) := by
  obtain ⟨part, passage, hbecomes, hid, w, hw, hflatten⟩ := h.gained
  obtain ⟨hsame, hputs⟩ := hf part
  obtain ⟨w', hw', hmore⟩ := hputs w hw
  refine ⟨f part, passage, hbecomes.changePart hrun hsame, hsame.trans hid, w', hw', ?_⟩
  rw [hmore, hflatten, List.append_assoc]

/-- A voice gains nothing by what only speaks or decodes. -/
theorem lift (h : Gains r s id key v es) {α : Type} {x : Journaled α} {a : α}
    (hrun : Ends (liftM x) s a t) : Gains r t id key v es := by
  obtain ⟨_, rfl⟩ := hrun.lift
  exact h

/-- One more element is put at the end of the voice. -/
theorem appendTo (h : Gains r s id key v es) {e : VoiceElement}
    (hrun : Ends (Partwise.appendTo line key e) s u t) : Gains r t id key v (es ++ e.flatten) := by
  obtain ⟨part, passage, hbecomes, hid, w, hw, hflatten⟩ := h.gained
  obtain ⟨hsame, hputs⟩ := Part.Puts.append e part
  obtain ⟨w', hw', hmore⟩ := hputs w hw
  refine ⟨_, passage, hbecomes.appendTo hrun, hsame.trans hid, w', hw', ?_⟩
  rw [hmore, hflatten, List.append_assoc]

/-- An element is put at the end of the voice, which may begin with it. -/
theorem begin {part : Part} {passage : Passage} (h : Becomes r s part passage) {e : VoiceElement}
    (hrun : Ends (Partwise.appendTo line key e) s u t) :
    Gains r t part.id key (part.voiceOrNew key) e.flatten := by
  have hturns := (Part.Turns.ensureVoice part key).modifyVoice (f := fun v => v.append e)
    fun _ hkey => hkey
  exact ⟨_, passage, h.appendTo hrun, hturns.id, _, hturns.here, Voice.flatten_append _ e⟩

/-- Elements are put there one after the other. -/
theorem forM (h : Gains r s id key v es) {α : Type} {f : α → Step Unit}
    {g : α → List VoiceElement} (hf : ∀ a {s t : Reading} {es}, Gains r s id key v es →
      Ends (f a) s () t → Gains r t id key v (es ++ g a)) {as : List α}
    (hrun : Ends (as.forM f) s u t) : Gains r t id key v (es ++ as.flatMap g) := by
  induction as generalizing s es with
  | nil =>
    have hnil : Ends (Pure.pure ()) s u t := hrun
    rw [hnil.pure.2, List.flatMap_nil, List.append_nil]
    exact h
  | cons a as ih =>
    obtain ⟨_, _, hfirst, hrest⟩ := Ends.bind hrun
    rw [List.flatMap_cons, ← List.append_assoc]
    exact ih (hf a h hfirst) hrest

/-- A sign is read from a child, if there is one. -/
theorem changeByChild (h : Gains r s id key v es) {α : Type} {e : Element} {name : String}
    {read : Element → Journaled α} {change : Part → α → Part} {g : α → List VoiceElement}
    (hsteady : ∀ child, Steady (read child)) (hputs : ∀ a, Part.Puts key (g a) (change · a))
    (hrun : Ends (Partwise.changeByChild e name read change) s u t) :
    Gains r t id key v
      (es ++ ((e.child? name).bind fun child => result (read child)).toList.flatMap g) := by
  unfold Partwise.changeByChild at hrun
  split at hrun
  · next child hchild =>
    obtain ⟨a, _, hread, hchange⟩ := hrun.bind
    obtain ⟨hgives, rfl⟩ := hread.lift
    have hgained := h.changePart (hputs a) hchange
    rw [hchild, Option.bind_some, hgives.result (hsteady child)]
    simpa using hgained
  · next hnone =>
    rw [hrun.pure.2]
    cases hchild : e.child? name with
    | none => simpa using h
    | some child => exact absurd hchild (hnone child)

/-- Attributes put their signs into a voice. -/
theorem readAttributes {part : Part} (hpart : r.part? = some part) (hv : part.voice? key = some v)
    {e : Element} (h : Ends (Partwise.readAttributes e) r u s) :
    Gains r s part.id key v (e.signsOn key.staff) := by
  unfold Partwise.readAttributes at h
  extract_lets signs at h
  obtain ⟨r₁, hdivided, hsigns⟩ : ∃ r₁, Gains r r₁ part.id key v [] ∧ Ends (signs ()) r₁ u s := by
    have hrefl := refl hpart hv
    split at h
    · obtain ⟨_, r₁, hread, hsigns⟩ := h.bind
      obtain ⟨perWhole, _, hdecode, hrest⟩ := hread.bind
      obtain ⟨_, _, hchange, htell⟩ := hrest.bind
      rw [htell.tell] at hsigns
      exact ⟨_, (hrefl.lift hdecode).changePart (.withDivisions perWhole) hchange, hsigns⟩
    · exact ⟨r, hrefl, h⟩
  obtain ⟨_, r₂, hkey, hrest⟩ := hsigns.bind
  have hkeys := hdivided.changeByChild Key.steady .withKey hkey
  obtain ⟨_, r₃, htime, hrest⟩ := hrest.bind
  have htimes := hkeys.changeByChild Time.steady .withTime htime
  obtain ⟨_, r₄, hstaves, hrest⟩ := hrest.bind
  have hstaved := htimes.changeByChild (g := fun _ => []) steady_staffCountOfElement
    .ensureStaves hstaves
  obtain ⟨_, r₅, hclefs, hskipped⟩ := hrest.bind
  have hall := hstaved.forM (g := fun child => child.clefOn key.staff) (fun child _ _ _ hat hrun => by
    obtain ⟨clef, _, hread, hchange⟩ := hrun.bind
    rw [Element.clefOn, hread.lift.1.result (Clef.steady child)]
    exact (hat.lift hread).changePart (.withClef clef) hchange) hclefs
  have hend := hall.forM (g := fun _ => []) (fun _ _ _ _ hat hrun => by
    rw [List.append_nil]
    exact hat.lift hrun) hskipped
  have hnone {α : Type} (l : List α) : (l.flatMap fun _ => ([] : List VoiceElement)) = [] :=
    List.flatMap_eq_nil_iff.mpr fun _ _ => rfl
  simpa [Element.signsOn, List.map_eq_flatMap, List.append_assoc, hnone] using hend

/-- A direction that has anything to put into a voice puts it into its own. -/
theorem readDirection {part : Part} (hpart : r.part? = some part) {e : Element}
    (h : Ends (Partwise.readDirection settings e) r u s)
    (hplace : result ((r.surroundings settings).place e r.passage.current) = some key)
    {content : DirectionContent} (hcontent : result (DirectionContent.ofElement e) = some content)
    (hsome : content.standing ≠ []) :
    Gains r s part.id key (part.voiceOrNew key) (content.standing.map .direction) := by
  obtain ⟨_, _, hget, hrest₁⟩ := h.bind
  obtain ⟨rfl, rfl⟩ := hget.get
  obtain ⟨_, _, hsurroundings, hrest₂⟩ := hrest₁.bind
  obtain ⟨rfl, rfl⟩ := hsurroundings.surroundings
  obtain ⟨place, _, hat, hrest₃⟩ := hrest₂.bind
  obtain ⟨hplaced, rfl⟩ := hat.lift
  obtain ⟨read, _, hread, hrest₄⟩ := hrest₃.bind
  obtain ⟨hgives, rfl⟩ := hread.lift
  obtain ⟨_, r₁, hpassage, hstand⟩ := hrest₄.bind
  obtain rfl : place = key :=
    Option.some.inj ((hplaced.result (Surroundings.steady_place _ e _)).symm.trans hplace)
  obtain rfl : read = content :=
    Option.some.inj ((hgives.result (DirectionContent.steady e)).symm.trans hcontent)
  have hpending := (Becomes.refl hpart).changePassage hpassage
  obtain ⟨direction, rest, hdirections⟩ := List.exists_cons_of_ne_nil hsome
  rw [hdirections] at hstand ⊢
  obtain ⟨_, r₂, hfirst, hothers⟩ := Ends.bind hstand
  have hall := (begin hpending hfirst).forM (g := fun direction => [.direction direction])
    (fun direction _ _ _ hso hrun => hso.appendTo (e := .direction direction) hrun) hothers
  rw [List.map_cons, List.map_eq_flatMap]
  exact hall

/-- A sound with a tempo puts it into the current voice. -/
theorem readSound {part : Part} (hpart : r.part? = some part) {e : Element}
    (h : Ends (Partwise.readSound e) r u s) {tempo : String} (htempo : e.attr? "tempo" = some tempo) :
    Gains r s part.id r.passage.current (part.voiceOrNew r.passage.current)
      [.direction (.tempo (.ofSound tempo))] := by
  unfold Partwise.readSound at h
  rw [htempo] at h
  obtain ⟨_, _, hget, happend⟩ := h.bind
  obtain ⟨rfl, rfl⟩ := hget.get
  exact begin (Becomes.refl hpart) happend

/-- **What a move stands in a voice**, it puts at its end. -/
theorem perform {part : Part} (hpart : r.part? = some part) {m : Move}
    (h : Ends (m.perform settings) r u s) (hstands : m.stands settings r key ≠ []) :
    Gains r s part.id key (part.voiceOrNew key) (m.stands settings r key) := by
  cases m with
  | leaf e =>
    have hleaf : Ends (Partwise.readLeaf settings e) r u s := h
    unfold Move.stands at hstands ⊢
    dsimp only at hstands ⊢
    split at hstands
    · next hname =>
      rw [readLeaf_attributes hname] at hleaf
      rw [hpart, Option.bind_some] at hstands ⊢
      split at hstands
      · next hbegun =>
        obtain ⟨v, hv⟩ := Option.isSome_iff_exists.mp hbegun
        rw [if_pos hbegun, Part.voiceOrNew, hv]
        exact readAttributes hpart hv hleaf
      · exact absurd rfl hstands
    · next hname =>
      rw [readLeaf_direction hname] at hleaf
      split at hstands
      · next hplace =>
        rw [if_pos hplace]
        cases hcontent : result (DirectionContent.ofElement e) with
        | none => simp [hcontent] at hstands
        | some content =>
          refine readDirection hpart hleaf hplace hcontent fun hnone => hstands ?_
          simp [hcontent, hnone]
      · exact absurd rfl hstands
    · next hname =>
      rw [readLeaf_sound hname] at hleaf
      split at hstands
      · next hcurrent =>
        subst hcurrent
        rw [if_pos rfl]
        cases htempo : e.attr? "tempo" with
        | none => simp [htempo] at hstands
        | some tempo => exact readSound hpart hleaf htempo
      · exact absurd rfl hstands
    · exact absurd rfl hstands
  | _ => exact absurd rfl hstands

end Reading.Gains

/-! ## Standing elements of a document -/

/-- What stands in a voice takes no time and is played. -/
theorem Move.of_mem_stands {m : Move} {settings : Settings} {r : Reading} {key : VoiceKey}
    {e : VoiceElement} (h : e ∈ m.stands settings r key) :
    e.isTimed = false ∧ e.isImplicit = false := by
  have hsigns : ∀ {child : Element}, e ∈ child.signsOn key.staff →
      e.isTimed = false ∧ e.isImplicit = false := by
    intro child hmem
    simp only [Element.signsOn, List.mem_append, List.mem_map, List.mem_flatMap] at hmem
    rcases hmem with (⟨_, -, rfl⟩ | ⟨_, -, rfl⟩) | ⟨clef, -, hclef⟩
    · exact ⟨rfl, rfl⟩
    · exact ⟨rfl, rfl⟩
    · unfold Element.clefOn at hclef
      cases hread : result (Clef.ofElement clef) with
      | none => simp [hread] at hclef
      | some _ =>
        rw [hread, Option.elim_some] at hclef
        split at hclef
        · rw [List.mem_singleton.mp hclef]
          exact ⟨rfl, rfl⟩
        · exact absurd hclef List.not_mem_nil
  cases m with
  | leaf child =>
    unfold stands at h
    dsimp only at h
    split at h
    · split at h
      · exact hsigns h
      · exact absurd h List.not_mem_nil
    · split at h
      · cases hcontent : result (DirectionContent.ofElement child) with
        | none => simp [hcontent] at h
        | some content =>
          rw [hcontent, Option.elim_some] at h
          obtain ⟨_, -, rfl⟩ := List.mem_map.mp h
          exact ⟨rfl, rfl⟩
      · exact absurd h List.not_mem_nil
    · split at h
      · obtain ⟨_, -, rfl⟩ := List.mem_map.mp h
        exact ⟨rfl, rfl⟩
      · exact absurd h List.not_mem_nil
    · exact absurd h List.not_mem_nil
  | _ => exact absurd h List.not_mem_nil

/-- **What was put at the end of a voice** stays where it is, whatever is read then. -/
theorem Reading.Gains.begins {r s t : Reading} {settings : Settings} {id : String} {key : VoiceKey}
    {v : Voice} {xs ys : List VoiceElement} {e : VoiceElement} {ms : List Moment} {part : Part}
    (h : Gains r s id key v (xs ++ e :: ys))
    (hstands : ∀ x ∈ xs ++ e :: ys, x.isTimed = false ∧ x.isImplicit = false) (hs : s.Sound)
    (hsame : Likeness.same.Alike s s) (hrun : Follows settings s ms t) (hpart : part ∈ t.parts)
    (hid : part.id = id) :
    ∃ w, part.voice? key = some w ∧ w.Begins (played v.flatten ++ xs ++ [e]) := by
  obtain ⟨now, passage, hbecomes, rfl, w, hw, hflatten⟩ := h.gained
  have he := hstands e (by simp)
  have hplayed : played (xs ++ e :: ys) = xs ++ e :: ys :=
    List.filter_eq_self.mpr fun x hx => by simp [(hstands x hx).2]
  have hbegun : ∀ p ∈ s.parts, p.VoiceBegins now.id key (played v.flatten ++ xs ++ [e]) := by
    intro p hp hid
    obtain rfl : p = now :=
      Option.some.inj ((hs.partOf_of_mem hp).symm.trans (hid ▸ hbecomes.here))
    refine ⟨w, hw, ys, ?_⟩
    rw [hflatten, played_append, hplayed]
    simp
  exact (Part.voiceBegins_keeps he.1).follows (fun _ hother hsameId => absurd hsameId hother) hrun
    hs hsame (List.mem_map_of_mem (Reading.mem_of_partOf hbecomes.here)) hbegun part hpart hid

/-- What is played with an element in it is an element with others around it. -/
theorem split_played {es as bs : List VoiceElement} {e : VoiceElement}
    (h : played es = as ++ e :: bs) :
    ∃ as' bs', es = as' ++ e :: bs' ∧ played as' = as ∧ played bs' = bs := by
  obtain ⟨first, rest, rfl, hfirst, hrest⟩ := List.filter_eq_append_iff.mp h
  obtain ⟨skipped, last, rfl, hskipped, -, hlast⟩ := List.filter_eq_cons_iff.mp hrest
  refine ⟨first ++ skipped, last, (List.append_assoc ..).symm, ?_, hlast⟩
  rw [played_append, played, hfirst, played, List.filter_eq_nil_iff.mpr hskipped, List.append_nil]

/-- What is written of the notes among some elements. -/
def writtenIn (es : List VoiceElement) : List (NoteContent × Nat) :=
  (imprints (timed es)).map Imprint.written

/-- What is written among some elements and then others is what is written among them all. -/
theorem writtenIn_append (as bs : List VoiceElement) :
    writtenIn (as ++ bs) = writtenIn as ++ writtenIn bs := by
  simp [writtenIn]

/-- What takes no time is not written. -/
theorem writtenIn_of_still {es : List VoiceElement} (h : ∀ e ∈ es, e.isTimed = false) :
    writtenIn es = [] := by
  rw [writtenIn, timed, List.filter_eq_nil_iff.mpr fun e he => by simp [h e he]]
  rfl

/-- What is written among elements is among those that are played. -/
theorem writtenIn_played (es : List VoiceElement) : writtenIn (played es) = writtenIn es := by
  rw [writtenIn, timed_played, writtenIn]

/-- All that open tuplets hold takes time. -/
theorem Passage.timed_held (p : Passage) (key : VoiceKey) : timed (p.held key) = p.held key := by
  unfold held
  split
  · cases p.tuplets <;> rfl
  · rfl

/-- Open tuplets hold notes of the voice that they belong to. -/
theorem TupletStack.Agrees.written_held_eq_nil {n : TupletStack} {r : Reading} {id : String}
    {key : VoiceKey} (h : n.Agrees r id) (hid : r.partId? = some id) :
    writtenIn (r.passage.held key) = [] ↔ r.passage.tupletKey? ≠ some key := by
  rw [writtenIn, Passage.timed_held, imprints, List.map_eq_nil_iff, List.map_eq_nil_iff]
  by_cases hkey : r.passage.tupletKey? = some key
  · refine iff_of_false (fun hnone => ?_) fun hnot => hnot hkey
    have hfull := (h.written key).full
    rw [Reading.music, if_pos hid, wordOf_append, List.mem_append, not_or, Passage.held,
      if_pos hkey] at hfull
    rw [Passage.held, if_pos hkey] at hnone
    cases htuplets : r.passage.tuplets with
    | nil => simp [Passage.tupletKey?, htuplets] at hkey
    | cons t outer =>
      have hword : .hollow ∉ (t.within outer).word := by
        simpa [htuplets, openMusic, wordOf, VoiceElement.word] using hfull.2
      refine Tuplet.notes_of_full hword ?_
      simpa [htuplets, openMusic, VoiceElement.notes] using hnone
  · rw [Passage.held, if_neg hkey]
    exact iff_of_true rfl hkey

/-- What was played so far of a voice of a part. If it has not begun, it is what it would begin
with. -/
def Reading.playedOf (r : Reading) (id : String) (key : VoiceKey) : List VoiceElement :=
  (r.partOf id).elim [] fun part => played (part.voiceOrNew key).flatten

/-- What is written of a voice that is being read is what was put into it, and what open tuplets
hold of it. -/
theorem Reading.written_music {r : Reading} {id : String} (hid : r.partId? = some id)
    (key : VoiceKey) : (imprints (r.music id key)).map Imprint.written =
      writtenIn (r.playedOf id key) ++ writtenIn (r.passage.held key) := by
  rw [Reading.music, if_pos hid, imprints_append, List.map_append, writtenIn, writtenIn,
    Passage.timed_held, Reading.playedOf]
  cases r.partOf id with
  | none => rfl
  | some part =>
    rw [Option.elim_some, Option.elim_some, timed_played, Part.music_eq]
    rfl

/-- A move that stands something in a voice means nothing for the music. -/
theorem Move.deed_of_stands {m : Move} {settings : Settings} {r : Reading} {key : VoiceKey}
    (h : m.stands settings r key ≠ []) : m.deed settings r = .nothing := by
  cases m with
  | leaf e =>
    unfold stands at h
    dsimp only at h
    split at h
    · next hname => simp [deed, Deed.ofLeaf, hname]
    · next hname => simp [deed, Deed.ofLeaf, hname]
    · next hname => simp [deed, Deed.ofLeaf, hname]
    · exact absurd rfl h
  | _ => exact absurd rfl h

/-- What a move puts at the end of a voice stands in the score behind all that the voice had
then. -/
theorem Document.exists_standing {settings : Settings} {root : Element} {score : Score}
    (h : (Document.read settings root).score = .ok score) {part : Part} (hpart : part ∈ score.parts)
    {voice : Voice} (hvoice : voice ∈ part.voices) {before after : List Moment} {m : Moment}
    (htrail : trail settings root = before ++ m :: after) (hid : m.before.partId? = some part.id)
    {xs ys : List VoiceElement} {e : VoiceElement}
    (hstands : m.move.stands settings m.before voice.key = xs ++ e :: ys) :
    ∃ as bs, voice.flatten = as ++ e :: bs ∧
      played as = m.before.playedOf part.id voice.key ++ xs := by
  obtain ⟨last, hfollows, hunfolds, hcomplete, -⟩ := Document.follows_unfolds h
  rw [htrail] at hfollows hunfolds
  obtain ⟨_, -, hrest⟩ := hfollows.of_append
  obtain ⟨rfl, hstep, hafter⟩ := hrest.of_cons
  obtain ⟨-, hunfoldsRest⟩ := hunfolds.cut
  obtain ⟨-, hdoes, -, -⟩ := hunfoldsRest.of_cons
  have halike := Likeness.same_uniform.trail
    (Likeness.same_sings.policy Likeness.same_lawful settings)
    (show m ∈ trail settings root by simp [htrail])
  -- the elements go into the voice of the part that is being read
  obtain ⟨now, hnow⟩ := Option.isSome_iff_exists.mp (halike.1.declared part.id hid)
  have hfound : m.before.partOf part.id = some now := by
    rwa [Reading.part?_eq, hid, Option.bind_some] at hnow
  have hplayed : m.before.playedOf part.id voice.key = played (now.voiceOrNew voice.key).flatten := by
    rw [Reading.playedOf, hfound]
    rfl
  have hsome : m.move.stands settings m.before voice.key ≠ [] := by simp [hstands]
  have hgains := Reading.Gains.perform hnow hstep hsome
  rw [hstands] at hgains
  obtain ⟨w, hw, more, hmore⟩ := hgains.begins
    (fun x hx => Move.of_mem_stands (hstands ▸ hx)) hdoes.sound halike.2 hafter
    (hcomplete.parts.subset hpart) (Reading.id_of_partOf hfound).symm
  obtain rfl : w = voice := Option.some.inj (hw.symm.trans (hcomplete.voice? hpart hvoice))
  rw [List.append_assoc, List.singleton_append, ← hplayed] at hmore
  obtain ⟨as, bs, hflatten, has, -⟩ := split_played hmore.symm
  exact ⟨as, bs, hflatten, has⟩

/-- **Standing elements** stay where they are put. In the end there stand before such an element
the notes that the document has before it, and behind it those that the document has after it, but
for the notes that open tuplets of its voice hold where it is read: these stand behind it. There are
none exactly if no tuplet of the voice is open. -/
theorem Document.standing_placed {settings : Settings} {root : Element} {score : Score}
    (h : (Document.read settings root).score = .ok score) {part : Part} (hpart : part ∈ score.parts)
    {voice : Voice} (hvoice : voice ∈ part.voices) {before after : List Moment} {m : Moment}
    (htrail : trail settings root = before ++ m :: after) (hid : m.before.partId? = some part.id)
    {xs ys : List VoiceElement} {e : VoiceElement}
    (hstands : m.move.stands settings m.before voice.key = xs ++ e :: ys) :
    ∃ as bs, voice.flatten = as ++ e :: bs ∧
      played as = m.before.playedOf part.id voice.key ++ xs ∧
      writtenIn as ++ writtenIn (m.before.passage.held voice.key) =
        (arrivals settings part.id voice.key none before).map Arrived.written ∧
      writtenIn bs = writtenIn (m.before.passage.held voice.key) ++
        (arrivals settings part.id voice.key (some part.id) after).map Arrived.written ∧
      (writtenIn (m.before.passage.held voice.key) = [] ↔
        m.before.passage.tupletKey? ≠ some voice.key) := by
  obtain ⟨as, bs, hflatten, has⟩ := Document.exists_standing h hpart hvoice htrail hid hstands
  obtain ⟨last, hfollows, hunfolds, hcomplete, -⟩ := Document.follows_unfolds h
  rw [htrail] at hfollows hunfolds
  obtain ⟨_, hbefore, hrest⟩ := hfollows.of_append
  obtain ⟨rfl, -, -⟩ := hrest.of_cons
  obtain ⟨hunfoldsBefore, hunfoldsRest⟩ := hunfolds.cut
  have hsome : m.move.stands settings m.before voice.key ≠ [] := by simp [hstands]
  have hstill : ∀ x ∈ xs ++ e :: ys, x.isTimed = false := fun x hx =>
    (Move.of_mem_stands (hstands ▸ hx)).1
  -- what is written before the element, and what is held, is all that has arrived so far
  have hxs : writtenIn xs = [] :=
    writtenIn_of_still fun x hx => hstill x (List.mem_append_left _ hx)
  have hput : writtenIn (m.before.playedOf part.id voice.key) = writtenIn as := by
    rw [← writtenIn_played as, has, writtenIn_append, hxs, List.append_nil]
  have hso := hunfoldsBefore.written_eq part.id voice.key
  rw [Reading.written_music hid, hput] at hso
  -- what is written in the end is all that, and then what arrives after it
  have hlast := hunfoldsRest.written_eq part.id voice.key
  rw [Reading.written_music hid, hput, hcomplete.music hpart, Part.music,
    hcomplete.voice? hpart hvoice, hid, arrivals, Move.deed_of_stands hsome, if_pos rfl,
    @Deed.brings_other _ _ .nothing (Option.some_ne_none _).symm, List.nil_append,
    List.append_assoc] at hlast
  have hend : writtenIn voice.flatten = writtenIn as ++ writtenIn bs := by
    rw [hflatten, ← List.singleton_append, writtenIn_append, writtenIn_append,
      @writtenIn_of_still [e] (by simpa using hstill e (by simp)), List.nil_append]
  refine ⟨as, bs, hflatten, has, hso, List.append_cancel_left (hend.symm.trans hlast), ?_⟩
  exact ((TupletStack.Agrees.begin part.id).follows hbefore hunfoldsBefore).written_held_eq_nil hid

/-- A segno after the first note of a tuplet, with a note before the tuplet. -/
def segnoInTuplet : Element :=
  singleMeasure
    [noteElement 1 "C" "1" "2" [],
      noteElement 2 "D" "1" "1" (tupletMarks [tupletMark "start" "1"]),
      { name := "direction"
        children := [{ name := "direction-type", children := [{ name := "segno" }] }] },
      noteElement 3 "E" "1" "1" (tupletMarks []),
      noteElement 4 "F" "1" "1" (tupletMarks [tupletMark "stop" "1"])]

/-- The segno of `segnoInTuplet` is the seventh of its moves. -/
theorem trail_segnoInTuplet : trail {} segnoInTuplet = (trail {} segnoInTuplet).take 6 ++
    (trail {} segnoInTuplet).get ⟨6, by decide +kernel⟩ :: (trail {} segnoInTuplet).drop 7 := by
  rw [List.get_eq_getElem, ← List.drop_eq_getElem_cons, List.take_append_drop]

/-- The segno is put before the tuplet, and so before the note that had opened it. -/
theorem Document.standing_placed_segnoInTuplet : ∃ score, ∃ part ∈ score.parts,
    ∃ voice ∈ part.voices, ∃ as bs, (Document.read {} segnoInTuplet).score = .ok score ∧
      voice.flatten = as ++ .direction .segno :: bs ∧
      (writtenIn as).map Prod.snd = [1] ∧ (writtenIn bs).map Prod.snd = [2, 3, 4] := by
  have hthere : hasVoice segnoInTuplet "P" ⟨1, 1⟩ (fun _ => true) = true := by
    decide +kernel
  obtain ⟨score, part, hpart, voice, hvoice, hread, hid, hkey, _⟩ := exists_voice hthere
  obtain ⟨as, bs, hflatten, -, has, hbs, -⟩ := Document.standing_placed hread hpart hvoice
    trail_segnoInTuplet (by rw [hid]; decide +kernel)
    (show _ = [] ++ .direction .segno :: [] by rw [hkey]; decide +kernel)
  rw [hid, hkey] at has hbs
  refine ⟨score, part, hpart, voice, hvoice, as, bs, hread, hflatten, ?_, ?_⟩
  · have hlines := congrArg (List.map Prod.snd) has
    rw [List.map_append] at hlines
    refine List.append_cancel_right (hlines.trans ?_)
    decide +kernel
  · rw [hbs]
    decide +kernel

/-- The voice had begun, and it does not have the segno behind all notes that stand before it in the
document. -/
theorem Document.misplaced_segnoInTuplet : ∃ score, ∃ part ∈ score.parts, ∃ voice ∈ part.voices,
    ∃ before m after, (Document.read {} segnoInTuplet).score = .ok score ∧
      trail {} segnoInTuplet = before ++ m :: after ∧ m.before.partId? = some part.id ∧
      (m.before.part?.bind fun part => part.voice? voice.key).isSome ∧
      m.move.stands {} m.before voice.key = [.direction .segno] ∧
      ¬ ∃ as bs, voice.flatten = as ++ .direction .segno :: bs ∧
        ∀ a ∈ arrivals {} part.id voice.key none before, a.written ∈ writtenIn as := by
  have hthere : hasVoice segnoInTuplet "P" ⟨1, 1⟩ (fun voice =>
      (List.range voice.flatten.length).all fun i =>
        voice.flatten[i]? ≠ some (.direction .segno) ||
          ((writtenIn (voice.flatten.take i)).map Prod.snd).all (· ≠ 2)) = true := by
    decide +kernel
  obtain ⟨score, part, hpart, voice, hvoice, hread, hid, hkey, hplace⟩ := exists_voice hthere
  refine ⟨score, part, hpart, voice, hvoice, _, _, _, hread, trail_segnoInTuplet,
    by rw [hid]; decide +kernel, by rw [hkey]; decide +kernel, by rw [hkey]; decide +kernel, ?_⟩
  rintro ⟨as, bs, hflatten, hall⟩
  have hat := List.all_eq_true.mp hplace as.length (List.mem_range.mpr (by simp [hflatten]))
  have hbefore : ∀ w ∈ writtenIn as, w.2 ≠ 2 := by
    simpa [hflatten] using hat
  have harrived : ((arrivals {} "P" ⟨1, 1⟩ none ((trail {} segnoInTuplet).take 6)).any fun a =>
      a.line = 2) = true := by
    decide +kernel
  obtain ⟨a, ha, hline⟩ := List.any_eq_true.mp harrived
  exact hbefore _ (hall a (by rwa [hid, hkey])) (of_decide_eq_true hline)

end Partwise
