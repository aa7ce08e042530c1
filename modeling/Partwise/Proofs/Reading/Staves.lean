import Partwise.Proofs.Music.Guises
import Partwise.Proofs.Reading.Invariants
import Partwise.Proofs.Reading.Seals

/-!
# Reading · Staves: parts keep their staves, voices and clefs in order

The staves of a part are ascending and so are its voices and clefs, and every voice stands on one of
the staves. That a part gets staves by their count keeps the voices it has, since all staves have
positive numbers: elements name only such staves, and the passage remembers no other voice than
theirs.

`Reading.InOrder` says so of a reading, and `Tidies x P` of a step: it keeps a reading in order, and
comes to a value of a kind. It holds of every move (`Tidies.perform`), so of the parts of a score
(`Document.parts_tidy`).
-/

namespace Partwise

open Markup

variable {α β : Type} {line : Nat} {key : VoiceKey} {settings : Settings} {e : Element}

/-! ## Parts in order -/

/-- Staves, voices and clefs are ascending, staves have positive numbers, and every voice stands on
a staff of the part. -/
structure Part.InOrder (p : Part) : Prop where
  staves : p.staves.Pairwise (· < ·)
  positive : ∀ n ∈ p.staves, 0 < n
  voices : Ascending (p.voices.map Voice.key)
  placed : ∀ v ∈ p.voices, v.staffNumber ∈ p.staves
  clefs : (p.clefs.map Clef.staffNumber).Pairwise (· < ·)

/-- Numbers are kept in an order. -/
theorem numberOrders : Orders Nat.blt where
  irrefl a := by simp
  trans := by
    simp only [Nat.blt_eq]
    omega
  total := by
    simp only [Nat.blt_eq]
    omega

/-- A list of ascending numbers stays so when one comes in at its place. -/
theorem upsert_numbers {k : Nat} {ns : List Nat} (h : ns.Pairwise (· < ·)) :
    (upsert Nat.blt id k ns).Pairwise (· < ·) :=
  (numberOrders.ascending_upsert (h.imp fun hlt => Nat.blt_eq.mpr hlt)).imp
    fun hlt => Nat.blt_eq.mp hlt

namespace Part.InOrder

variable {p q : Part}

/-- A new voice comes in at its place, and its staff with it. -/
theorem ensureVoice (h : p.InOrder) (hkey : 0 < key.staff) : (p.ensureVoice key).InOrder := by
  unfold Part.ensureVoice
  split
  · exact h
  · refine ⟨upsert_numbers h.staves, fun n hn => ?_, ?_, fun v hv => ?_, h.clefs⟩
    · rcases mem_upsert hn with rfl | hn
      · exact hkey
      · exact h.positive n hn
    · show Ascending (List.map Voice.key (upsert _ _ _ _))
      rw [@map_upsert _ _ _ _ _ _ (fun k => k) _ _ fun _ => rfl]
      exact VoiceKey.orders.ascending_upsert h.voices
    · rcases mem_upsert hv with rfl | hv
      · exact mem_upsert_self ..
      · exact mem_upsert_iff.mpr (.inr (h.placed v hv))

/-- Staves and clefs are what they were, and the voices change and keep their keys. -/
theorem of_map (h : p.InOrder) (hstaves : q.staves = p.staves) (hclefs : q.clefs = p.clefs)
    {f : Voice → Voice} (hvoices : q.voices = p.voices.map f) (hf : ∀ v, (f v).key = v.key) :
    q.InOrder := by
  have hkeys : q.voices.map Voice.key = p.voices.map Voice.key := by
    rw [hvoices, List.map_map]
    exact List.map_congr_left fun v _ => hf v
  refine ⟨hstaves ▸ h.staves, hstaves ▸ h.positive, hkeys ▸ h.voices, fun v hv => ?_,
    hclefs ▸ h.clefs⟩
  obtain ⟨w, hw, hkey⟩ := List.mem_map.mp (hkeys ▸ List.mem_map_of_mem hv)
  rw [hstaves, show v.staffNumber = w.staffNumber from congrArg VoiceKey.staff hkey.symm]
  exact h.placed w hw

/-- Voices that change and keep their keys stay in order. -/
theorem mapVoices (h : p.InOrder) {f : Voice → Voice} (hf : ∀ v, (f v).key = v.key) :
    (p.mapVoices f).InOrder :=
  h.of_map rfl rfl rfl hf

/-- A voice that changes and keeps its key stays at its place. -/
theorem modifyVoice (h : p.InOrder) {f : Voice → Voice} (hf : ∀ v, v.key = key → (f v).key = key) :
    (p.modifyVoice key f).InOrder := by
  refine h.mapVoices fun v => ?_
  split
  · next hkey => exact (hf v hkey).trans hkey.symm
  · rfl

/-- The staves up to a number come in. No voice stands on a staff before the first of them. -/
theorem ensureStaves (h : p.InOrder) (count : Nat) : (p.ensureStaves count).InOrder := by
  refine ⟨?_, fun n hn => ?_, h.voices, fun v hv => ?_, h.clefs⟩
  · refine List.pairwise_append.mpr ⟨List.pairwise_lt_range', h.staves.filter _, ?_⟩
    intro a ha b hb
    have hcount := of_decide_eq_true (List.mem_filter.mp hb).2
    have hrange := List.mem_range'_1.mp ha
    omega
  · rcases List.mem_append.mp hn with hrange | hkept
    · exact (List.mem_range'_1.mp hrange).1
    · exact h.positive n (List.mem_filter.mp hkept).1
  · have hstaff := h.placed v hv
    have hpositive := h.positive _ hstaff
    by_cases hcount : count < v.staffNumber
    · exact List.mem_append_right _ (List.mem_filter.mpr ⟨hstaff, decide_eq_true hcount⟩)
    · exact List.mem_append_left _ (List.mem_range'_1.mpr ⟨hpositive, by omega⟩)

/-- A part in order stays so when a clef comes into force on its staff. -/
theorem setClef (h : p.InOrder) (clef : Clef) : (p.setClef clef).InOrder := by
  refine ⟨h.staves, h.positive, h.voices, h.placed, ?_⟩
  show (List.map Clef.staffNumber (upsert _ _ _ _)).Pairwise _
  rw [@map_upsert _ _ _ _ _ _ (fun n => n) _ _ fun _ => rfl]
  exact upsert_numbers h.clefs

/-- A part that is declared is in order, for it has no staves. -/
theorem declared (id : String) : (Part.ofElement e id).InOrder :=
  ⟨.nil, fun _ hn => absurd hn List.not_mem_nil, .nil, fun _ hv => absurd hv List.not_mem_nil, .nil⟩

end Part.InOrder

/-! ## Readings in order -/

/-- The voices that the passage remembers stand on staves with positive numbers. -/
structure Passage.Staffed (q : Passage) : Prop where
  current : 0 < q.current.staff
  unchecked : ∀ k ∈ q.unchecked, 0 < k.staff
  tuplets : ∀ t ∈ q.tuplets, 0 < t.staffNumber

/-- A voice on a staff with a positive number may be given content. -/
theorem Passage.Staffed.touch {q : Passage} (h : q.Staffed) (hkey : 0 < key.staff) :
    (q.touch key).Staffed :=
  ⟨h.current, fun k hk => (mem_upsert hk).elim (fun heq => heq ▸ hkey) (h.unchecked k), h.tuplets⟩

/-- All parts are in order, and the passage remembers voices on staves with positive numbers. -/
structure Reading.InOrder (r : Reading) : Prop where
  parts : ∀ p ∈ r.parts, p.InOrder
  passage : r.passage.Staffed

/-- The step keeps a reading in order, and comes to a value of the kind. -/
def Tidies (x : Step α) (P : α → Prop) : Prop :=
  ∀ r a s, r.InOrder → Ends x r a s → s.InOrder ∧ P a

namespace Tidies

variable {P : α → Prop} {Q : β → Prop} {duration : WholeNotes}

/-! ## Elementary steps -/

/-- A step that only gives a value keeps a reading in order. -/
theorem pure {a : α} (ha : P a) : Tidies (Pure.pure a : Step α) P := by
  intro r b s hr h
  rw [h.pure.1, h.pure.2]
  exact ⟨hr, ha⟩

/-- A step that fails keeps a reading in order, since it never ends well. -/
theorem throw (failure : Failure) : Tidies (MonadExcept.throw failure : Step α) P :=
  fun _ _ _ _ h => absurd h not_ends_throw

/-- What a decoder comes to is of a kind if all that it gives is. -/
theorem lift {x : Journaled α} (hx : ∀ a, Gives x a → P a) : Tidies (liftM x) P := by
  intro r a s hr h
  rw [h.lift.2]
  exact ⟨hr, hx a h.lift.1⟩

/-- Decoders keep a reading in order, whatever they come to. -/
theorem aside (x : Journaled α) : Tidies (liftM x) fun _ => True :=
  lift fun _ _ => trivial

/-- Two steps one after the other keep a reading in order if the second one does so after every
value of the kind. -/
theorem bind {x : Step α} {f : α → Step β} (hx : Tidies x P) (hf : ∀ a, P a → Tidies (f a) Q) :
    Tidies (x >>= f) Q := by
  intro r b t hr h
  obtain ⟨a, s, hfirst, hrest⟩ := h.bind
  obtain ⟨hs, ha⟩ := hx r a s hr hfirst
  exact hf a ha s b t hs hrest

/-- A step that looks at the reading tidies, if it does for all readings in order. -/
theorem look {f : Reading → Step α} (hf : ∀ r, r.InOrder → Tidies (f r) P) :
    Tidies (MonadState.get >>= f) P := by
  intro r a t hr h
  obtain ⟨_, _, hget, hrest⟩ := h.bind
  obtain ⟨rfl, rfl⟩ := hget.get
  exact hf r hr r a t hr hrest

/-- A step of which the value is thrown away keeps a reading in order as before. -/
theorem discard {x : Step α} (hx : Tidies x P) : Tidies (Functor.discard x) fun _ => True := by
  intro r u s hr h
  obtain ⟨a, hrun⟩ := h.discard
  exact ⟨(hx r a s hr hrun).1, trivial⟩

/-- Steps that keep a reading in order do so together, one for each element of a list. -/
theorem forM {γ : Type} {f : γ → Step Unit} {cs : List γ}
    (hf : ∀ c ∈ cs, Tidies (f c) fun _ => True) : Tidies (cs.forM f) fun _ => True := by
  intro r u s hr h
  exact ⟨h.forM hr fun c hc _ _ hsame hrun => (hf c hc _ _ _ hsame hrun).1, trivial⟩

/-- The part that is being read is in order. -/
theorem currentPart : Tidies (Partwise.currentPart line) Part.InOrder := by
  intro r part s hr h
  obtain ⟨hpart, rfl⟩ := h.currentPart
  refine ⟨hr, hr.parts part ?_⟩
  rw [Reading.part?, Option.bind_eq_some_iff] at hpart
  obtain ⟨_, -, hfound⟩ := hpart
  exact List.mem_of_find?_eq_some hfound

/-- A change of the passage keeps a reading in order if the passage remembers no other voices than
those on staves with positive numbers. -/
theorem changePassage {f : Passage → Passage} (hf : ∀ q, q.Staffed → (f q).Staffed) :
    Tidies (Partwise.changePassage f) fun _ => True := by
  intro r u s hr h
  rw [h.changePassage]
  exact ⟨⟨hr.parts, hf _ hr.passage⟩, trivial⟩

/-- A part in order may be put back. -/
theorem setPart {part : Part} (hpart : part.InOrder) :
    Tidies (modify fun r => r.setPart part : Step Unit) fun _ => True := by
  intro r u s hr h
  rw [h.modify]
  refine ⟨⟨fun p hp => ?_, hr.passage⟩, trivial⟩
  obtain ⟨q, hq, rfl⟩ := List.mem_map.mp hp
  split
  · exact hpart
  · exact hr.parts q hq

/-- A change of the part that is being read keeps a reading in order if it keeps the part so. -/
theorem changePart {f : Part → Part} (hf : ∀ p, p.InOrder → (f p).InOrder) :
    Tidies (Partwise.changePart line f) fun _ => True :=
  bind currentPart fun part hpart => setPart (hf part hpart)

/-- The voice that is looked for has the key that it is looked for by, and begins at its place. -/
theorem voiceAt (hkey : 0 < key.staff) : Tidies (Partwise.voiceAt line key) fun v => v.key = key := by
  refine bind currentPart fun part hpart => ?_
  split
  · next hv => exact pure (Part.key_of_voice? hv)
  · exact bind (aside _) fun _ _ => bind (setPart (hpart.ensureVoice hkey)) fun _ _ => pure rfl

/-- A voice of the part may change if it keeps its key. -/
theorem modifyVoice {f : Voice → Voice} (hf : ∀ v, v.key = key → (f v).key = key) :
    Tidies (Partwise.changePart line fun part => part.modifyVoice key f) fun _ => True :=
  changePart fun _ h => h.modifyVoice hf

/-- A voice changes and keeps its key; if it begins by that, it comes in at its place. -/
theorem changeVoice (hkey : 0 < key.staff) {f : Voice → Voice} (hf : ∀ v, (f v).key = v.key) :
    Tidies (Partwise.changeVoice line key f) fun _ => True :=
  bind (discard (voiceAt hkey)) fun _ _ => modifyVoice fun v hv => (hf v).trans hv

/-- An element may be put at the end of any voice on a staff with a positive number. -/
theorem appendTo (hkey : 0 < key.staff) {e : VoiceElement} :
    Tidies (Partwise.appendTo line key e) fun _ => True :=
  changeVoice hkey fun _ => rfl

/-! ## The cursor -/

/-- A voice on a staff with a positive number may move on. -/
theorem advance (hkey : 0 < key.staff) :
    Tidies (Partwise.advance line key duration) fun _ => True :=
  bind (voiceAt hkey) fun _ _ => bind (aside _) fun _ _ => bind (modifyVoice fun _ hv => hv)
    fun _ _ => changePassage fun _ hq =>
      Passage.Staffed.touch ⟨hq.current, hq.unchecked, hq.tuplets⟩ hkey

/-- A rest may be put at the end of a voice on a staff with a positive number. -/
theorem rest (hkey : 0 < key.staff) : Tidies (Partwise.rest line key duration) fun _ => True :=
  look fun _ _ => changeVoice hkey fun _ => rfl

/-- A voice on a staff with a positive number may be padded up to the position of the document. -/
theorem catchUp (hkey : 0 < key.staff) : Tidies (Partwise.catchUp line key) fun _ => True := by
  refine look fun _ _ => bind (voiceAt hkey) fun _ _ => bind (aside _) fun gap _ => ?_
  split
  · exact bind (rest hkey) fun _ _ => bind (aside _) fun _ _ => advance hkey
  · exact pure trivial

/-- A movement back in time keeps a reading in order. -/
theorem goBack : Tidies (Partwise.goBack line duration) fun _ => True := by
  refine look fun r hr => bind (aside _) fun position _ => bind (changePassage fun q hq => ?_)
    fun _ _ => look fun s hs => ?_
  · exact ⟨hq.current, hq.unchecked, hq.tuplets⟩
  extract_lets tellBefore
  have hbefore : ∀ reached, Tidies (tellBefore reached) fun _ => True := by
    intro reached
    unfold tellBefore
    split
    · exact bind (aside _) fun _ _ => aside _
    · exact pure trivial
  split
  · exact bind (pure (P := fun _ => True) trivial) fun _ _ => hbefore _
  · exact bind (aside _) fun _ _ => bind (modifyVoice fun _ hv => hv) fun _ _ =>
      bind (pure (P := fun _ => True) trivial) fun _ _ => hbefore _

/-- A movement forward keeps a reading in order. -/
theorem goForward (hkey : 0 < key.staff) :
    Tidies (Partwise.goForward line key duration) fun _ => True :=
  bind (catchUp hkey) fun _ _ => bind (rest hkey) fun _ _ => advance hkey

/-! ## Tuplets -/

/-- A tuplet may open for a voice on a staff with a positive number. -/
theorem openTuplet (hkey : 0 < key.staff) {position : WholeNotes} {start : TupletStart} :
    Tidies (Partwise.openTuplet line key position start) fun _ => True := by
  refine bind currentPart fun _ _ => look fun _ _ => bind (aside _) fun _ _ =>
    changePassage fun q hq => ⟨hq.current, hq.unchecked, ?_⟩
  exact List.forall_mem_cons.mpr ⟨hkey, hq.tuplets⟩

/-- A tuplet closes into its voice, which stands on a staff with a positive number. -/
theorem closeTuplet : Tidies (Partwise.closeTuplet line) fun _ => True := by
  refine look fun r hr => ?_
  split
  · exact throw _
  · next tuplet outer htuplets =>
    obtain ⟨htuplet, houter⟩ := List.forall_mem_cons.mp (htuplets ▸ hr.passage.tuplets)
    refine bind (changePassage fun q hq => ⟨hq.current, hq.unchecked, houter⟩) fun _ _ => ?_
    split
    · exact aside _
    · refine bind (aside _) fun _ _ => ?_
      split
      · exact appendTo htuplet
      · obtain ⟨hnext, hrest⟩ := List.forall_mem_cons.mp houter
        exact changePassage fun q hq =>
          ⟨hq.current, hq.unchecked, List.forall_mem_cons.mpr ⟨hnext, hrest⟩⟩

/-- Some tuplets close one after the other and keep a reading in order. -/
theorem closeTuplets {count : Nat} : Tidies (Partwise.closeTuplets line count) fun _ => True :=
  forM fun _ _ => closeTuplet

/-- All open tuplets close and keep a reading in order. -/
theorem drainTuplets : Tidies (Partwise.drainTuplets line) fun _ => True := by
  refine look fun r _ => ?_
  dsimp only
  split
  · exact bind (aside _) fun _ _ => closeTuplets
  · exact pure trivial

/-- Music that breaks off keeps a reading in order. -/
theorem breakOff : Tidies (Partwise.breakOff line) fun _ => True :=
  bind drainTuplets fun _ _ => changePassage fun _ hq => ⟨hq.current, hq.unchecked, hq.tuplets⟩

/-! ## Notes -/

/-- The passage may change in anything but the voices that it remembers. -/
theorem changeMarks {f : Passage → Passage} (hf : ∀ q, (f q).current = q.current ∧
    (f q).unchecked = q.unchecked ∧ (f q).tuplets = q.tuplets) :
    Tidies (Partwise.changePassage f) fun _ => True :=
  changePassage fun q hq => by
    obtain ⟨hcurrent, hunchecked, htuplets⟩ := hf q
    exact ⟨hcurrent ▸ hq.current, hunchecked ▸ hq.unchecked, htuplets ▸ hq.tuplets⟩

/-- A note that takes waiting marks keeps a reading in order. -/
theorem takePending {note : Note} : Tidies (Partwise.takePending settings note) fun _ => True := by
  refine look fun r _ => ?_
  dsimp only
  split
  · exact pure trivial
  · split
    · exact pure trivial
    · split
      · exact bind (aside _) fun _ _ => bind (changeMarks fun _ => ⟨rfl, rfl, rfl⟩) fun _ _ =>
          pure trivial
      · exact bind (changeMarks fun _ => ⟨rfl, rfl, rfl⟩) fun _ _ => pure trivial

/-- Steps that each give a value keep a reading in order together. -/
theorem mapM {γ : Type} {f : γ → Step α} (hf : ∀ c, Tidies (f c) fun _ => True) (cs : List γ) :
    Tidies (cs.mapM f) fun _ => True := by
  induction cs with
  | nil => exact pure trivial
  | cons c cs ih =>
    rw [List.mapM_cons]
    exact bind (hf c) fun _ _ => bind ih fun _ _ => pure trivial

/-- A note that sings keeps a reading in order. -/
theorem singNote (hkey : 0 < key.staff) {note : Note} {lyrics : List Element} :
    Tidies (Partwise.singNote settings key note lyrics) fun _ => True := by
  unfold Partwise.singNote
  split
  · exact pure trivial
  · refine bind (mapM (fun e => aside _) _) fun _ _ => bind (voiceAt hkey) fun voice hvoice =>
      bind (forM fun _ _ => aside _) fun _ _ => bind (modifyVoice fun _ _ => ?_)
        fun _ _ => pure trivial
    exact (Voice.Edited.sing _ _).key.trans hvoice

/-- A member of a chord may join a voice on a staff with a positive number. -/
theorem joinInVoice (hkey : 0 < key.staff) {note : Note} {chordOpen : Bool} :
    Tidies (Partwise.joinChord.joinInVoice key note chordOpen) fun _ => True := by
  refine bind (voiceAt hkey) fun voice hvoice => ?_
  split
  · next hjoin => exact modifyVoice fun _ _ => (Voice.Edited.joinChord hjoin).key.trans hvoice
  · exact throw _

/-- A note comes to its place, and the voice moves on. -/
theorem seat (hkey : 0 < key.staff) {note : Note} {isGrace : Bool} {stops : Nat} :
    Tidies (do
      match (← get).passage.tuplets with
      | [] => Partwise.appendTo line key (.note note)
      | tuplet :: outer =>
        Partwise.changePassage fun p => { p with tuplets := tuplet.append (.note note) :: outer }
      if isGrace then Partwise.changePassage fun p => p.touch key
      else Partwise.advance line key note.soundingWholeNotes
      Partwise.closeTuplets line stops) fun _ => True := by
  refine look fun r hr => ?_
  extract_lets stop move
  have hmove : ∀ u, Tidies (move u) fun _ => True := by
    intro u
    unfold move
    split
    · exact bind (changePassage fun _ hq => hq.touch hkey) fun _ _ => closeTuplets
    · exact bind (advance hkey) fun _ _ => closeTuplets
  split
  · exact bind (appendTo hkey) fun u _ => hmove u
  · next htuplets =>
    obtain ⟨hinner, houter⟩ := List.forall_mem_cons.mp (htuplets ▸ hr.passage.tuplets)
    exact bind (changePassage fun q hq => ⟨hq.current, hq.unchecked,
      List.forall_mem_cons.mpr ⟨hinner, houter⟩⟩) fun u _ => hmove u

/-- A note may be placed in a voice on a staff with a positive number. -/
theorem placeNote {input : NoteInput} (hkey : 0 < input.key.staff) :
    Tidies (Partwise.placeNote settings input) fun _ => True := by
  refine bind (catchUp hkey) fun _ _ => bind (voiceAt hkey) fun voice _ => look fun r _ =>
    bind (forM fun _ _ => openTuplet hkey) fun _ _ => look fun s _ => ?_
  extract_lets _ _ note stop seat
  have hseat : ∀ note, Tidies (seat note) fun _ => True := fun _ => Tidies.seat hkey
  split
  · exact bind (pure (P := fun _ => True) trivial) fun _ _ => hseat _
  · exact bind takePending fun _ _ => bind (singNote hkey) fun _ _ => hseat _

/-- A member of a chord comes to its place. -/
theorem fold (hkey : 0 < key.staff) {note : Note} {stops : Nat} :
    Tidies (do
      if !settings.ignoreLyrics && !note.slurs.isEmpty then
        Partwise.changeVoice line key fun voice => voice.markSlurs note.slurs .none
      tell (.chordMember line key)
      let passage := (← get).passage
      let chordOpen := passage.chord? = some key
      match passage.tuplets with
      | tuplet :: outer =>
        if passage.tupletKey? = some key then
          match tuplet.join note chordOpen with
          | .ok joined => Partwise.changePassage fun p => { p with tuplets := joined :: outer }
          | .error fault => MonadExcept.throw (.inconsistent line fault)
        else joinChord.joinInVoice key note chordOpen
      | [] => joinChord.joinInVoice key note chordOpen
      Partwise.changePassage fun p => { p with chord? := some key }.touch key
      Partwise.closeTuplets line stops) fun _ => True := by
  extract_lets stop join
  have hstop : ∀ u, Tidies (stop u) fun _ => True := fun _ =>
    bind (changePassage fun _ hq => Passage.Staffed.touch ⟨hq.current, hq.unchecked, hq.tuplets⟩ hkey)
      fun _ _ => closeTuplets
  have hjoin : ∀ u, Tidies (join u) fun _ => True := by
    intro u
    refine bind (aside _) fun _ _ => look fun r hr => ?_
    extract_lets passage chordOpen
    split
    · next htuplets =>
      obtain ⟨hinner, houter⟩ := List.forall_mem_cons.mp (htuplets ▸ hr.passage.tuplets)
      split
      · split
        · next joined hjoined =>
          have hstaff : 0 < joined.staffNumber := by
            rwa [show joined.staffNumber = _ from congrArg VoiceKey.staff (Tuplet.of_join hjoined).key]
          exact bind (changePassage fun q hq => ⟨hq.current, hq.unchecked,
            List.forall_mem_cons.mpr ⟨hstaff, houter⟩⟩) fun u _ => hstop u
        · exact bind (throw (P := fun _ => True) _) fun u _ => hstop u
      · exact bind (joinInVoice hkey) fun u _ => hstop u
    · exact bind (joinInVoice hkey) fun u _ => hstop u
  split
  · exact bind (changeVoice hkey fun v => (v.still_markSlurs _ _).key) fun u _ => hjoin u
  · exact hjoin ()

/-- A member of a chord that was read may join a voice on a staff with a positive number. -/
theorem joinChord {input : NoteInput} (hkey : 0 < input.key.staff) :
    Tidies (Partwise.joinChord settings input) fun _ => True := by
  unfold Partwise.joinChord
  extract_lets key line stop take
  have htake : ∀ u, Tidies (take u) fun _ => True := fun _ =>
    bind takePending fun _ _ => fold hkey
  split
  · exact bind (throw (P := fun _ => True) _) fun u _ => htake u
  · exact htake ()

end Tidies

/-! ## Places -/

/-- A number of a staff is positive. -/
theorem pos_of_staffCount {notPositive tooLarge : Int → RangeFault} {n : Int} {count : Nat}
    (h : Gives (staffCount line notPositive tooLarge n) count) : 0 < count := by
  unfold staffCount at h
  split at h
  · exact absurd h not_gives_throw
  · split at h
    · exact absurd h not_gives_throw
    · rw [h.pure]
      omega

/-- A place is on a staff with a positive number, if the place that stands in for it is. -/
theorem Surroundings.pos_of_place {s : Surroundings} {default : VoiceKey}
    (hdefault : 0 < default.staff) (h : Gives (s.place e default) key) : 0 < key.staff := by
  unfold Surroundings.place at h
  obtain ⟨staff?, _, hrest⟩ := h.bind
  extract_lets onStaff at hrest
  -- the voice makes no difference to the staff
  have hstaff : ∀ staff, Gives (onStaff staff) key → 0 < staff → 0 < key.staff := by
    intro staff hgives hpositive
    obtain ⟨voice?, _, hvoice⟩ := hgives.bind
    extract_lets inVoice at hvoice
    have hkey : ∀ voice, Gives (inVoice voice) key → 0 < key.staff := fun voice hpure =>
      hpure.pure ▸ hpositive
    split at hvoice
    · obtain ⟨voice, _, hpure⟩ := hvoice.bind
      exact hkey voice hpure
    · split at hvoice <;>
      · obtain ⟨voice, _, hpure⟩ := hvoice.bind
        exact hkey voice hpure
  split at hrest
  · obtain ⟨staff, hdefaulted, hgives⟩ := hrest.bind
    exact hstaff staff hgives (hdefaulted.pure ▸ hdefault)
  · obtain ⟨staff, hcount, hgives⟩ := hrest.bind
    exact hstaff staff hgives (pos_of_staffCount hcount)

/-- A note is on a staff with a positive number. -/
theorem NoteInput.pos_of_gives {s : Surroundings} {input : NoteInput}
    (h : Gives (NoteInput.ofElement s e) input) : 0 < input.key.staff := by
  obtain ⟨key, hplace, hrest⟩ := h.bind
  obtain ⟨_, _, hrest⟩ := hrest.bind
  obtain ⟨_, _, hrest⟩ := hrest.bind
  obtain ⟨_, _, hrest⟩ := hrest.bind
  obtain ⟨_, _, hrest⟩ := hrest.bind
  obtain ⟨_, _, hrest⟩ := hrest.bind
  obtain ⟨_, _, hpure⟩ := hrest.bind
  rw [hpure.pure]
  exact s.pos_of_place Nat.one_pos hplace

namespace Tidies

variable {P : α → Prop} {Q : β → Prop}

/-! ## Elements -/

/-- To look at what decoders must know keeps a reading in order. -/
theorem surroundings : Tidies (Partwise.surroundings settings) fun _ => True :=
  look fun _ _ => pure trivial

/-- Note elements keep a reading in order, since they name only staves with positive numbers. -/
theorem readNote : Tidies (Partwise.readNote settings e) fun _ => True := by
  refine bind surroundings fun _ _ => bind (lift fun _ => NoteInput.pos_of_gives)
    fun input hkey => bind (changePassage fun q hq => ⟨hkey, hq.unchecked, hq.tuplets⟩) fun _ _ =>
    bind (aside _) fun _ _ => ?_
  split
  · exact joinChord hkey
  · refine bind (changeMarks fun _ => ⟨rfl, rfl, rfl⟩) fun _ _ => look fun r _ => ?_
    dsimp only
    split
    · exact bind drainTuplets fun _ _ => placeNote hkey
    · exact placeNote hkey

/-- To read how far a movement in time goes keeps a reading in order. -/
theorem movement : Tidies (Partwise.movement settings e) fun _ => True :=
  bind breakOff fun _ _ => bind surroundings fun _ _ => aside _

/-- Backup elements keep a reading in order. -/
theorem readBackup : Tidies (Partwise.readBackup settings e) fun _ => True :=
  bind movement fun _ _ => goBack

/-- Forward elements keep a reading in order, since they name only staves with positive numbers. -/
theorem readForward : Tidies (Partwise.readForward settings e) fun _ => True :=
  bind movement fun _ _ => bind surroundings fun known _ => look fun _ hr =>
    bind (lift fun _ => known.pos_of_place hr.passage.current) fun _ hkey => goForward hkey

/-- Directions keep a reading in order. -/
theorem readDirection : Tidies (Partwise.readDirection settings e) fun _ => True :=
  look fun _ hr => bind surroundings fun known _ =>
    bind (lift fun _ => known.pos_of_place hr.passage.current) fun _ hkey =>
    bind (aside _) fun _ _ => bind (changeMarks fun _ => ⟨rfl, rfl, rfl⟩) fun _ _ =>
    forM fun _ _ => appendTo hkey

/-- Sounds keep a reading in order. -/
theorem readSound : Tidies (Partwise.readSound e) fun _ => True := by
  unfold Partwise.readSound
  split
  · exact aside _
  · exact look fun r hr => appendTo hr.passage.current

/-- A sign that is read from a child of an element keeps a reading in order if it keeps parts so. -/
theorem changeByChild {γ : Type} {name : String} {read : Element → Journaled γ} {f : Part → γ → Part}
    (hf : ∀ p a, p.InOrder → (f p a).InOrder) :
    Tidies (Partwise.changeByChild e name read f) fun _ => True := by
  unfold Partwise.changeByChild
  split
  · exact bind (aside _) fun a _ => changePart fun p => hf p a
  · exact pure trivial

/-- Signs keep a reading in order. -/
theorem readAttributes : Tidies (Partwise.readAttributes e) fun _ => True := by
  unfold Partwise.readAttributes
  extract_lets signs
  have hsigns : ∀ u, Tidies (signs u) fun _ => True := by
    intro u
    refine bind (changeByChild fun p key h => ?_) fun _ _ =>
      bind (changeByChild fun p time h => ?_) fun _ _ =>
      bind (changeByChild fun p count h => h.ensureStaves count) fun _ _ =>
      bind (forM fun child _ => bind (aside _) fun clef _ => changePart fun p h => ?_) fun _ _ =>
      forM fun child _ => aside _
    · exact h.of_map rfl rfl rfl fun _ => rfl
    · exact h.of_map rfl rfl rfl fun _ => rfl
    · refine (h.setClef clef).mapVoices fun v => ?_
      split <;> rfl
  split
  · refine bind (bind (aside _) fun perWhole _ => bind (changePart fun p h => ?_) fun _ _ => aside _)
      fun u _ => hsigns u
    exact h.of_map rfl rfl rfl fun _ => rfl
  · exact hsigns ()

/-! ## Barlines -/

/-- A change of all voices keeps a reading in order if it keeps their keys. -/
theorem changeVoices {f : Voice → Voice × Option Closing} (hf : ∀ v, (f v).1.key = v.key) :
    Tidies (Partwise.changeVoices line f) fun _ => True := by
  refine bind currentPart fun part _ => bind (forM fun voice _ => ?_) fun _ _ =>
    changePart fun _ h => h.mapVoices hf
  split
  · exact aside _
  · exact pure trivial

/-- Barlines keep a reading in order. -/
theorem readBarline : Tidies (Partwise.readBarline e) fun _ => True := by
  refine bind breakOff fun _ _ => look fun r hr => bind (aside _) fun barline _ =>
    bind (aside _) fun _ _ => bind (discard (voiceAt hr.passage.current)) fun _ _ =>
    bind (changeMarks fun _ => ⟨rfl, rfl, rfl⟩) fun _ _ => changeVoices fun v => ?_
  exact (v.like_takeBarline ..).key

/-- Repeats that end with the part keep a reading in order. -/
theorem endRepeats : Tidies (Partwise.endRepeats line) fun _ => True := by
  refine look fun r _ => bind (changeMarks fun _ => ⟨rfl, rfl, rfl⟩) fun _ _ =>
    bind currentPart fun part _ => bind (changeVoices fun v => (v.like_endRepeats ..).key)
    fun _ _ => ?_
  split
  · exact aside _
  · exact pure trivial

/-! ## Measures and parts -/

/-- Bar checks keep a reading in order. -/
theorem checkBars {next? : Option String} : Tidies (Partwise.checkBars line next?) fun _ => True :=
  look fun _ hr => bind (changePassage fun _ hq =>
      ⟨hq.current, fun _ hk => absurd hk List.not_mem_nil, hq.tuplets⟩) fun _ _ =>
    forM fun key hkey => appendTo (hr.passage.unchecked key hkey)

/-- Music that settles keeps a reading in order. -/
theorem settle : Tidies (Partwise.settle line) fun _ => True := by
  refine bind breakOff fun _ _ => look fun r _ => ?_
  dsimp only
  split
  · exact pure trivial
  · exact bind (changeMarks fun _ => ⟨rfl, rfl, rfl⟩) fun _ _ => aside _

/-- The beginning of a measure keeps a reading in order. -/
theorem enterMeasure : Tidies (Partwise.enterMeasure e) fun _ => True := by
  refine bind checkBars fun _ _ => bind (aside _) fun _ _ => bind (changePart fun p h => ?_)
    fun _ _ => changeMarks fun _ => ⟨rfl, rfl, rfl⟩
  exact h.of_map rfl rfl rfl fun _ => rfl

/-- The end of a measure keeps a reading in order. -/
theorem leaveMeasure : Tidies (Partwise.leaveMeasure e) fun _ => True :=
  bind settle fun _ _ => look fun _ _ => forM fun _ _ => aside _

/-- A change of the reading keeps it in order if every reading in order stays so by it. -/
theorem modify {f : Reading → Reading} (hf : ∀ r, r.InOrder → (f r).InOrder) :
    Tidies (modify f : Step Unit) fun _ => True := by
  intro r u s hr h
  rw [h.modify]
  exact ⟨hf r hr, trivial⟩

/-- The beginning of a part keeps a reading in order. -/
theorem enterPart : Tidies (Partwise.enterPart e) fun _ => True := by
  refine look fun r _ => ?_
  split
  · refine bind (aside _) fun _ _ => modify fun r hr => ⟨hr.parts, Nat.one_pos, ?_, ?_⟩
    · exact fun _ hk => absurd hk List.not_mem_nil
    · exact fun _ ht => absurd ht List.not_mem_nil
  · exact throw _

/-- The end of a part keeps a reading in order. -/
theorem leavePart : Tidies (Partwise.leavePart e) fun _ => True :=
  bind settle fun _ _ => bind checkBars fun _ _ => bind endRepeats fun _ _ =>
    bind (changePart fun _ h => h.mapVoices fun _ => rfl) fun _ _ =>
    modify fun _ hr => ⟨hr.parts, hr.passage⟩

/-- What happens to the part list leaves the parts as they are. -/
theorem of_sameMusic {x : Step Unit} (hx : ∀ r u s, Ends x r u s → SameMusic r s) :
    Tidies x fun _ => True := by
  intro r u s hr h
  have hsame := hx r u s h
  exact ⟨⟨hsame.parts ▸ hr.parts, hsame.passage ▸ hr.passage⟩, trivial⟩

/-- A part that is declared is in order, and so is the reading with it. -/
theorem readScorePart : Tidies (Partwise.readScorePart e) fun _ => True := by
  unfold Partwise.readScorePart
  split
  · next id _ =>
    refine look fun r _ => ?_
    split
    · exact aside _
    · refine look fun r _ => ?_
      extract_lets declare
      have hdeclare : ∀ u, Tidies (declare u) fun _ => True := by
        refine fun _ => bind (of_sameMusic fun _ _ _ => .changePartList) fun _ _ =>
          bind (aside _) fun _ _ => modify fun r hr => ⟨fun p hp => ?_, hr.passage⟩
        rcases List.mem_append.mp hp with hp | hp
        · exact hr.parts p hp
        · exact List.mem_singleton.mp hp ▸ Part.InOrder.declared id
      split
      · exact bind (of_sameMusic fun _ _ _ => .changePartList) fun u _ => hdeclare u
      · exact hdeclare ()
  · exact throw _

/-- Every element that is not looked into any further keeps a reading in order. -/
theorem readLeaf : Tidies (Partwise.readLeaf settings e) fun _ => True := by
  unfold Partwise.readLeaf
  split
  · exact of_sameMusic fun _ _ _ => .identify
  · exact of_sameMusic fun _ _ _ => .identify
  · exact of_sameMusic fun _ _ _ => .identify
  · exact of_sameMusic fun _ _ _ => .identify
  · exact of_sameMusic fun _ _ _ => .readPartGroup
  · exact readScorePart
  · exact readAttributes
  · exact readNote
  · exact readBackup
  · exact readForward
  · exact readBarline
  · exact readDirection
  · exact readSound
  · exact aside _
  · exact aside _
  · exact aside _
  · exact aside _

/-- **Every move** keeps a reading in order. -/
theorem perform (m : Move) : Tidies (m.perform settings) fun _ => True := by
  cases m with
  | enterPart => exact enterPart
  | leavePart => exact leavePart
  | enterMeasure => exact enterMeasure
  | leaveMeasure => exact leaveMeasure
  | leavePartList => exact of_sameMusic fun _ _ _ => .closeGroups
  | leaf => exact readLeaf

end Tidies

/-- **The parts of a score** are in order. -/
theorem Document.parts_tidy {root : Element} {score : Score}
    (h : (Document.read settings root).score = .ok score) : ∀ p ∈ score.parts, p.InOrder := by
  obtain ⟨last, hfollows, -, hcomplete, -⟩ := Document.follows_unfolds h
  have hfirst : ({} : Reading).InOrder :=
    ⟨fun _ hp => absurd hp List.not_mem_nil, Nat.one_pos, fun _ hk => absurd hk List.not_mem_nil,
      fun _ ht => absurd ht List.not_mem_nil⟩
  have hlast : last.InOrder := hfollows.keeps (P := Reading.InOrder) hfirst
    fun m _ hr hstep => (Tidies.perform m.move _ _ _ hr hstep).1
  exact fun p hp => hlast.parts p (hcomplete.parts.subset hp)

end Partwise
