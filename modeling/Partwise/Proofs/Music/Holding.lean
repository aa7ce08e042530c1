import Partwise.Proofs.Music.Fullness
import Partwise.Proofs.Music.Grouping
import Partwise.Proofs.Music.Tuplets
import Partwise.Proofs.Reading.Failing

/-!
# Music · Holding: what open tuplets hold

Between two elements of a document some tuplets may be open. They are all of one voice, the
innermost has members, and its last leaf is what has become of the note that was brought to this
voice last (`Newest`): the note itself, or the chord with all that joined it since. The voice has
come as far as the document, so that nothing pads it. `Reading.HoldsOpen` states this of a reading.

It rests on an invariant of the moves, `Reading.Holds`. This one speaks of the music of all voices:
there is nothing hollow in it, and where tuplets are open the music of their voice ends with its
newest leaf. `Reading.Holds.step` proves it of one move and `Reading.Holds.follows` of a whole
trail, also of a document that fails later, and wherever parts and measures stand in it.

`Document.tuplets_held` puts it together: whatever has been read of a document, the open tuplets
hold what they should, they can all be closed, and none is ever found without members.
-/

namespace Partwise

open Markup

variable {α β γ : Type} {settings : Settings} {r s t : Reading} {m : Moment} {past ms : List Moment}
  {id : String} {key : VoiceKey} {line : Nat} {j j' : Journal}

/-! ## The newest leaf -/

/-- The leaf is what has become of the last delivery that joins nothing: a note, with all that have
joined it since. -/
def Newest (ds : List Delivery) (leaf : Leaf) : Prop :=
  ∃ earlier first later, ds = earlier ++ first :: later ∧ first.member = false ∧
    first.note.isInvisibleRest = false ∧ (∀ d ∈ later, d.member = true) ∧
    Stands (first :: later) leaf

namespace Newest

variable {ds : List Delivery} {d : Delivery} {leaf leaf' : Leaf} {n : Note}

/-- A note that joins nothing is the newest leaf. -/
theorem of_note (hleads : d.member = false) (hvisible : d.note.isInvisibleRest = false)
    (hdressed : Note.Dressed d.marks d.note n) : Newest (ds ++ [d]) (.note n) := by
  refine ⟨ds, d, [], rfl, hleads, hvisible, fun _ hd => ?_, .alone hleads hdressed⟩
  exact absurd hd List.not_mem_nil

/-- A member of a chord joins the newest leaf. -/
theorem join (h : Newest ds leaf) (hjoined : leaf.Joined n leaf') (hmember : d.member = true)
    (hdressed : Note.Dressed d.marks d.note n) (hsounds : d.note.isRest = false) :
    Newest (ds ++ [d]) leaf' := by
  obtain ⟨earlier, first, later, rfl, hleads, hvisible, hfollow, hstands⟩ := h
  refine ⟨earlier, first, later ++ [d], by simp, hleads, hvisible, ?_,
    hstands.join hjoined hmember hdressed hsounds⟩
  intro d' hd'
  rcases List.mem_append.mp hd' with hd' | hd'
  · exact hfollow d' hd'
  · rw [List.mem_singleton.mp hd', hmember]

end Newest

/-! ## One move -/

/-- What is written of a voice once a note or rest has come in has no gaps if it had none before. -/
theorem Enters.full {kept stops : Nat} {a : Arrival} {starts : List Opening}
    (h : Enters r s kept id a starts stops) (hfull : .hollow ∉ wordOf (r.music id a.key)) :
    .hollow ∉ wordOf (s.music id a.key) := by
  obtain ⟨w, hbefore, hafter⟩ := h.word
  have hpad : .hollow ∉ r.padWord a.key a.line := by
    intro hmem
    obtain ⟨_, -, heq⟩ := r.invisible_of_mem_padWord hmem
    exact nomatch heq
  rw [hbefore, List.mem_append, not_or] at hfull
  rw [hafter]
  simp [hfull.1, hpad, closings]

/-- Where a part is entered, the music keeps all but what was still held in open tuplets. -/
theorem Reading.music_of_enterPart {e : Element} {u : Unit}
    (h : Ends (enterPart e) r u s) (id : String) (key : VoiceKey) :
    ∃ held, r.music id key = s.music id key ++ held := by
  obtain ⟨_, _, hget, hrest⟩ := h.bind
  obtain ⟨rfl, rfl⟩ := hget.get
  split at hrest
  · obtain ⟨_, _, htell, hset⟩ := hrest.bind
    cases htell.tell
    have hs := hset.modify
    have hsilent : s.music id key = (r.partOf id).elim [] (Part.music · key) := by
      rw [hs, music]
      exact (congrArg (_ ++ ·) (ite_self [])).trans (List.append_nil _)
    rw [music, ← hsilent]
    exact ⟨_, rfl⟩
  · exact absurd hrest not_ends_throw

/-- What changes in one voice leaves no gaps anywhere, if it leaves none there. -/
theorem Reading.full_of_others {id' : String} {key' : VoiceKey}
    (hfull : ∀ id key, .hollow ∉ wordOf (r.music id key))
    (hothers : ∀ id k, (id, k) ≠ (id', key') → s.music id k = r.music id k)
    (hhere : .hollow ∉ wordOf (s.music id' key')) : .hollow ∉ wordOf (s.music id key) := by
  by_cases heq : (id, key) = (id', key')
  · cases heq
    exact hhere
  · rw [hothers id key heq]
    exact hfull id key

/-- **One move** leaves no gaps in what is written of the voices. -/
theorem Does.full (hdoes : Does m.before m.after (m.move.deed settings m.before))
    (hstep : Ends (m.move.perform settings) m.before () m.after)
    (hfull : ∀ id key, .hollow ∉ wordOf (m.before.music id key)) :
    .hollow ∉ wordOf (m.after.music id key) := by
  generalize hdeed : m.move.deed settings m.before = deed at hdoes
  cases hdoes with
  | place _ placed enters =>
    exact Reading.full_of_others hfull placed.others (enters.full (hfull _ _))
  | join _ joined =>
    refine Reading.full_of_others hfull joined.others ?_
    rw [joined.word (hfull _ _)]
    exact hfull _ _
  | forward placed enters =>
    exact Reading.full_of_others hfull placed.others (enters.full (hfull _ _))
  | backup back => exact back.music ▸ hfull id key
  | enterMeasure begins =>
    have hmusic : m.after.music = m.before.music := congrArg View.music begins.view
    exact hmusic ▸ hfull id key
  | leaveMeasure quiet => exact quiet.music id key ▸ hfull id key
  | enterPart =>
    obtain ⟨e, hmove⟩ := Move.entersPart_of_deed hdeed
    rw [hmove] at hstep
    obtain ⟨held, hmusic⟩ := Reading.music_of_enterPart hstep id key
    have hall := hfull id key
    rw [hmusic, wordOf_append, List.mem_append, not_or] at hall
    exact hall.1
  | leavePart ends => exact ends.music ▸ hfull id key
  | nothing quiet => exact quiet.music id key ▸ hfull id key

/-- The leaves end with what has become of the last delivery that joins nothing. -/
def EndsNewest (ds : List Delivery) (ls : List Leaf) : Prop :=
  ∃ leaf, ls.getLast? = some leaf ∧ Newest ds leaf

/-- Tuplets that go on were open before, for the same voice. -/
theorem TupletsGoOn.key_before (h : TupletsGoOn r s) (hkey : s.passage.tupletKey? = some key) :
    r.passage.tupletKey? = some key := by
  rcases h with hnone | hsame
  · simp [Passage.tupletKey?, hnone] at hkey
  · rw [← hsame, hkey]

/-- Where no tuplet is open, none is of a voice. -/
theorem Passage.tupletKey?_ne {p : Passage} (h : p.tuplets = []) : p.tupletKey? ≠ some key := by
  simp [tupletKey?, h]

/-- **One move** leaves the voice of the open tuplets with its newest leaf. -/
theorem Does.endsNewest (hsound : m.before.Sound)
    (hdoes : Does m.before m.after (m.move.deed settings m.before))
    (hstep : Ends (m.move.perform settings) m.before () m.after) {ds : List Delivery}
    (h : m.before.partId? = some id → m.before.passage.tupletKey? = some key →
      EndsNewest ds (leavesOf (m.before.music id key)))
    (hid : m.after.partId? = some id) (hkey : m.after.passage.tupletKey? = some key) :
    EndsNewest (ds ++ deliveriesTo id key (m.delivered settings))
      (leavesOf (m.after.music id key)) := by
  -- what brings nothing to any voice leaves the newest leaf as it was
  have hstill (hvoice : (m.move.deed settings m.before).voice? = none)
      (hmusic : m.after.music id key = m.before.music id key)
      (hpartId : m.after.partId? = m.before.partId?) (hopen : TupletsGoOn m.before m.after) :
      EndsNewest (ds ++ deliveriesTo id key (m.delivered settings))
        (leavesOf (m.after.music id key)) := by
    rw [Moment.deliveriesTo_other fun _ => by simp [hvoice], List.append_nil, hmusic]
    exact h (hpartId ▸ hid) (hopen.key_before hkey)
  generalize hdeed : m.move.deed settings m.before = deed at hdoes hstill
  cases hdoes with
  | @place input at' _ alone placed _ takes seats =>
    obtain rfl : at' = id := Option.some.inj (placed.samePart.symm.trans hid)
    obtain rfl : key = input.key := placed.tuplets key hkey
    obtain rfl := marks_of_note hsound hstep hdeed takes
    obtain ⟨rests, n, -, hdressed, hleaves⟩ := seats
    refine ⟨.note n, by rw [hleaves, List.getLast?_concat], ?_⟩
    rw [Moment.deliveriesTo_here placed.partId (by rw [hdeed]; rfl), hdeed, Deed.delivers,
      ← List.append_assoc]
    exact .of_note alone (Move.proper_of_deed hdeed).visible hdressed
  | @join input at' _ member joined _ takes folds =>
    obtain rfl : at' = id := Option.some.inj (joined.samePart.symm.trans hid)
    obtain ⟨leaf, hlast, hnewest⟩ := h joined.partId (joined.tuplets.key_before hkey)
    by_cases hhere : key = input.key
    · subst hhere
      obtain rfl := marks_of_note hsound hstep hdeed takes
      obtain ⟨hsounds, n, hdressed, hjoins⟩ := folds
      generalize leavesOf (m.before.music at' input.key) = before at hlast hjoins
      generalize leavesOf (m.after.music at' input.key) = after at hjoins ⊢
      obtain @⟨earlier, l, l', hjoined⟩ := hjoins
      obtain rfl : l = leaf := by simpa using hlast
      refine ⟨l', List.getLast?_concat, ?_⟩
      rw [Moment.deliveriesTo_here joined.partId (by rw [hdeed]; rfl), hdeed, Deed.delivers,
        if_pos member, List.nil_append]
      exact hnewest.join hjoined member hdressed hsounds
    · have hother : (m.move.deed settings m.before).voice? ≠ some key := by
        rw [hdeed]
        exact fun heq => hhere (Option.some.inj heq).symm
      rw [Moment.deliveriesTo_other fun _ => hother, List.append_nil,
        joined.others at' key fun heq => hhere (congrArg Prod.snd heq)]
      exact ⟨leaf, hlast, hnewest⟩
  | forward _ enters =>
    have hdepth : m.after.passage.tuplets.length = 0 := enters.depth
    exact absurd hkey (Passage.tupletKey?_ne (List.length_eq_zero_iff.mp hdepth))
  | backup back => exact absurd hkey (Passage.tupletKey?_ne back.tuplets)
  | enterMeasure begins =>
    have hmusic : m.after.music = m.before.music := congrArg View.music begins.view
    exact hstill rfl (by rw [hmusic]) (congrArg View.partId? begins.view :) begins.tuplets
  | leaveMeasure _ none => exact absurd hkey (Passage.tupletKey?_ne none)
  | enterPart begins =>
    rw [begins.passage] at hkey
    exact absurd hkey (Passage.tupletKey?_ne rfl)
  | leavePart ends => exact absurd hkey (Passage.tupletKey?_ne ends.tuplets)
  | nothing quiet => exact hstill rfl (quiet.music id key) quiet.partId quiet.tuplets

/-! ## A whole trail -/

/-- What was read so far has nothing hollow in its music, and the voice of the open tuplets ends
with its newest leaf. -/
structure Reading.Holds (settings : Settings) (past : List Moment) (r : Reading) : Prop where
  sound : r.Sound
  full : ∀ id key, .hollow ∉ wordOf (r.music id key)
  newest : ∀ id key, r.partId? = some id → r.passage.tupletKey? = some key →
    EndsNewest (broughtTo settings id key past) (leavesOf (r.music id key))

namespace Reading.Holds

/-- Before anything was read, the reading holds nothing hollow. -/
theorem begin (settings : Settings) : Holds settings [] {} where
  sound := sound_empty
  full _ _ := List.not_mem_nil
  newest _ _ hid := nomatch hid

/-- One move later all is as it should be. -/
theorem step (h : m.before.Holds settings past)
    (hstep : Ends (m.move.perform settings) m.before () m.after) :
    m.after.Holds settings (past ++ [m]) := by
  have hdoes := Does.perform h.sound hstep
  refine ⟨hdoes.sound, fun id key => hdoes.full hstep h.full, fun id key hid hkey => ?_⟩
  have hnow : broughtTo settings id key [m] = deliveriesTo id key (m.delivered settings) := by
    rw [broughtTo, deliveries, List.flatMap_singleton]
  rw [broughtTo_append, hnow]
  exact hdoes.endsNewest h.sound hstep (h.newest id key) hid hkey

/-- After all moves nothing hollow is in the music, and open tuplets end with the newest leaf. -/
theorem follows (h : r.Holds settings past) (hfollows : Follows settings r ms t) :
    t.Holds settings (past ++ ms) := by
  induction hfollows generalizing past with
  | nil r => simpa using h
  | cons hstep _ ih => simpa using ih (h.step hstep)

end Reading.Holds

/-! ## Steps that go well -/

/-- From the reading on the step ends well, whatever was said before. -/
def GoesWell (x : Step α) (r : Reading) : Prop := ∀ j, ∃ a s j', Runs x r j a s j'

namespace GoesWell

/-- A step that only gives a value goes well. -/
theorem pure (a : α) (r : Reading) : GoesWell (Pure.pure a : Step α) r := fun j => ⟨a, r, j, rfl⟩

/-- A change of the reading goes well. -/
theorem modify (f : Reading → Reading) (r : Reading) : GoesWell (modify f : Step Unit) r :=
  fun j => ⟨(), f r, j, rfl⟩

/-- To tell an event goes well. -/
theorem tell (e : Event) (r : Reading) : GoesWell (liftM (Partwise.tell e)) r :=
  fun j => ⟨(), r, .event e :: j, rfl⟩

/-- To find something goes well. -/
theorem find (line : Nat) (finding : Finding) (r : Reading) :
    GoesWell (liftM (Partwise.find line finding)) r :=
  fun j => ⟨(), r, .found line finding :: j, rfl⟩

/-- Two steps go well, if the second one does from where the first one ends. -/
theorem bind {x : Step α} {f : α → Step β} (hx : GoesWell x r)
    (hf : ∀ a s, Ends x r a s → GoesWell (f a) s) : GoesWell (x >>= f) r := by
  intro j
  obtain ⟨a, s, j₁, hrun⟩ := hx j
  obtain ⟨b, t, j₂, hrest⟩ := hf a s hrun.ends j₁
  refine ⟨b, t, j₂, ?_⟩
  unfold Runs at hrun
  rw [Runs, StateT.run_bind, ExceptT.run_bind, StateT.run_bind, hrun]
  exact hrest

/-- A step that looks at the reading goes well, if it does for the reading it is taken from. -/
theorem look {f : Reading → Step α} (hf : GoesWell (f r) r) :
    GoesWell (MonadState.get >>= f) r := hf

/-- The value of a step need not be looked at. -/
theorem discard {x : Step α} (hx : GoesWell x r) : GoesWell (Functor.discard x) r := by
  intro j
  obtain ⟨a, s, j₁, hrun⟩ := hx j
  refine ⟨(), s, j₁, ?_⟩
  have hdiscard : (Functor.discard x).run r =
    x.run r >>= fun found => Pure.pure ((), found.2) := rfl
  unfold Runs at hrun
  rw [Runs, hdiscard, ExceptT.run_bind, StateT.run_bind, hrun]
  rfl

variable {part : Part}

/-- The part that is being read is found, if there is one. -/
theorem currentPart (hpart : r.part? = some part) : GoesWell (Partwise.currentPart line) r := by
  refine look ?_
  rw [hpart]
  exact pure _ _

/-- The part that is being read may be changed, if there is one. -/
theorem changePart (hpart : r.part? = some part) (f : Part → Part) :
    GoesWell (Partwise.changePart line f) r :=
  bind (currentPart hpart) fun _ _ _ => modify _ _

/-- A voice is found or begun, if a part is being read. -/
theorem voiceAt (hpart : r.part? = some part) : GoesWell (Partwise.voiceAt line key) r := by
  refine bind (currentPart hpart) fun _ _ _ => ?_
  split
  · exact pure _ _
  · exact bind (tell _ _) fun _ _ _ => bind (modify _ _) fun _ _ _ => pure _ _

/-- An element is put at the end of a voice, if a part is being read. -/
theorem appendTo (hpart : r.part? = some part) (e : VoiceElement) :
    GoesWell (Partwise.appendTo line key e) r := by
  refine bind (discard (voiceAt hpart)) fun _ s hvoice => ?_
  obtain ⟨_, hat⟩ := hvoice.discard
  exact changePart ((Becomes.refl hpart).voiceAt hat).2.part? _

/-! ## Tuplets that close -/

/-- The innermost tuplet can be closed. -/
theorem closeTuplet (hr : r.Sound) (hsome : r.passage.tuplets ≠ []) :
    GoesWell (Partwise.closeTuplet line) r := by
  refine look ?_
  split
  · next hnone => exact absurd hnone hsome
  · next t outer htuplets =>
    have hholds := hr.tuplets t.key (Passage.tupletKey?_cons htuplets)
    obtain ⟨part, hpart, -⟩ := hholds.begun
    refine bind (modify _ _) fun _ s houter => ?_
    rw [if_neg (by simpa using hholds.members t (by simp [htuplets]))]
    refine bind (tell _ _) fun _ s' htell => ?_
    obtain ⟨_, hbecomes⟩ := ((Becomes.refl hpart).changePassage houter).lift htell
    split
    · exact appendTo hbecomes.part? _
    · exact modify _ _

/-- As many as are open can be closed. -/
theorem closeEach {xs : List γ} (hr : r.Sound) (hlength : xs.length ≤ r.passage.tuplets.length) :
    GoesWell (xs.forM fun _ => Partwise.closeTuplet line) r := by
  induction xs generalizing r with
  | nil => exact pure () r
  | cons x xs ih =>
    rw [List.length_cons] at hlength
    have hsome : r.passage.tuplets ≠ [] := List.ne_nil_of_length_pos (by omega)
    refine bind (closeTuplet hr hsome) fun _ s hclose => ?_
    obtain ⟨hcloses, hrest⟩ := Closes.closeTuplet hr hclose
    exact ih hcloses.quiet.sound (by omega)

/-- The open tuplets of a sound reading can all be closed. -/
theorem drainTuplets (hr : r.Sound) : GoesWell (Partwise.drainTuplets line) r := by
  refine look ?_
  dsimp only
  split
  · refine bind (find _ _ _) fun _ s hfind => ?_
    cases hfind.find
    exact closeEach hr (by rw [List.length_range])
  · exact pure _ _

end GoesWell

/-! ## Voices that are not behind -/

namespace Runs

/-- A step from one reading and one journal has one end. -/
theorem unique {x : Step α} {a b : α} {j₁ j₂ : Journal} (h : Runs x r j a s j₁)
    (h' : Runs x r j b t j₂) : a = b ∧ s = t ∧ j₁ = j₂ := by
  cases h.symm.trans h'
  exact ⟨rfl, rfl, rfl⟩

/-- A demanded value was there if the step went well, and the step changes and says nothing. -/
theorem demanded {x : Option α} {failure : Failure} {a : α}
    (h : Runs (liftM (Partwise.demand x failure)) r j a s j') : x = some a ∧ s = r ∧ j' = j := by
  cases x with
  | none => exact nomatch h
  | some b =>
    cases h
    exact ⟨rfl, rfl, rfl⟩

variable {part : Part} {voice : Voice}

/-- A voice that has begun is found. -/
theorem voiceAt_begun (hpart : r.part? = some part) (hvoice : part.voice? key = some voice)
    (line : Nat) (j : Journal) : Runs (Partwise.voiceAt line key) r j voice r j := by
  have hcurrent : (Partwise.currentPart line).run r = Pure.pure (part, r) := by
    unfold Partwise.currentPart
    rw [StateT.run_bind, StateT.run_get, pure_bind, hpart]
    rfl
  unfold Runs Partwise.voiceAt
  rw [StateT.run_bind, hcurrent, pure_bind, hvoice]
  rfl

/-- A voice that is not behind the document is not padded. -/
theorem catchUp_reached (hpart : r.part? = some part) (hvoice : part.voice? key = some voice)
    (hreached : r.passage.position ≤ voice.positionInMeasure) {u : Unit}
    (h : Runs (catchUp line key) r j u s j') : s = r ∧ j' = j := by
  obtain ⟨_, _, _, hget, hrest₁⟩ := h.bind
  obtain ⟨rfl, rfl, rfl⟩ := hget.get
  obtain ⟨_, _, _, hat, hrest₂⟩ := hrest₁.bind
  obtain ⟨rfl, rfl, rfl⟩ := hat.unique (voiceAt_begun hpart hvoice line _)
  obtain ⟨gap, _, _, hgap, hrest₃⟩ := hrest₂.bind
  obtain ⟨hsome, rfl, rfl⟩ := hgap.demanded
  have hdifference := WholeNotes.minus?_eq_some hsome
  rw [if_neg] at hrest₃
  · exact hrest₃.pure
  · rw [WholeNotes.blt_iff]
    linarith

end Runs

/-! ## What is open -/

/-- The reading once a note of some voice was met, which may go on with a chord. -/
def Reading.facing (r : Reading) (current : VoiceKey) (chord? : Option VoiceKey) : Reading :=
  { r with passage := { r.passage with current, chord? } }

/-- A sound reading stays so whichever voice it turns to. -/
theorem Reading.Sound.facing (hr : r.Sound) (current : VoiceKey) (chord? : Option VoiceKey) :
    (r.facing current chord?).Sound := by
  refine ⟨hr.ids, hr.keyed, fun key hkey => ?_⟩
  obtain ⟨hsame, hmembers, hreached, hbegun⟩ := hr.tuplets key hkey
  exact ⟨hsame, hmembers, hreached, hbegun⟩

/-- The open tuplets are all of the voice of the innermost. This one has members and ends with the
newest leaf of its voice, which has come as far as the document and is not padded. -/
structure Reading.HoldsOpen (settings : Settings) (past : List Moment) (r : Reading) (id : String)
    (top : Tuplet) : Prop where
  inPart : r.partId? = some id
  sameVoice : ∀ t ∈ r.passage.tuplets, t.key = top.key
  members : top.members ≠ []
  newest : EndsNewest (broughtTo settings id top.key past) top.leaves
  reached : ∃ part voice, r.part? = some part ∧ part.voice? top.key = some voice ∧
    r.passage.position ≤ voice.positionInMeasure
  unpadded : ∀ {current chord? line j s j'},
    Runs (catchUp line top.key) (r.facing current chord?) j () s j' →
      s = r.facing current chord? ∧ j' = j

/-- A tuplet with members, where nothing is hollow, has leaves. -/
theorem Tuplet.leaves_of_full {t : Tuplet} (hsome : t.members ≠ [])
    (hfull : .hollow ∉ wordOfMembers t.members) : t.leaves ≠ [] := by
  intro hnone
  refine notesOfMembers_of_full hsome hfull ?_
  rw [← t.notes_eq, t.notes_eq_leaves, hnone, List.flatMap_nil]

namespace Reading.Holds

variable {top : Tuplet} {outer : List Tuplet}

/-- Where tuplets are open they hold what they should. -/
theorem holdsOpen (h : r.Holds settings past) (htuplets : r.passage.tuplets = top :: outer) :
    ∃ id, r.HoldsOpen settings past id top := by
  have hkey := Passage.tupletKey?_cons htuplets
  obtain ⟨hsame, hhead, hreached, part, hpart, hbegun⟩ := h.sound.tuplets top.key hkey
  obtain ⟨voice, hvoice⟩ := Option.isSome_iff_exists.mp hbegun
  have hid : r.partId? = some part.id := (Becomes.refl hpart).partId
  have hmembers : top.members ≠ [] := hhead top (by rw [htuplets]; rfl)
  have hposition : r.passage.position ≤ voice.positionInMeasure := by
    rwa [cursor, hpart, Option.elim_some, Part.cursor, hvoice] at hreached
  have hmusic : r.music part.id top.key = part.music top.key ++ openMusic (top :: outer) := by
    rw [(Becomes.refl hpart).music_here, Passage.held_of_key hsame, htuplets]
  have hfull : .hollow ∉ wordOfMembers top.members := by
    intro hmem
    have hhead' : ∀ t, (top :: outer).head? = some t → t.members ≠ [] := htuplets ▸ hhead
    refine h.full part.id top.key ?_
    simp [hmusic, wordOf_openMusic hhead', openWord, hmem]
  have hsome := Tuplet.leaves_of_full hmembers hfull
  obtain ⟨leaf, hlast, hnewest⟩ := h.newest part.id top.key hid hkey
  -- the leaves of the innermost tuplet stand behind all others of the voice
  have hleaf : top.leaves.getLast? = some leaf := by
    rw [← hlast, hmusic, leavesOf_append, leavesOf_openMusic, List.reverse_cons,
      List.flatMap_append, List.flatMap_singleton, ← List.append_assoc,
      List.getLast?_append_of_ne_nil _ hsome]
  exact ⟨part.id, hid, hsame, hmembers, ⟨leaf, hleaf, hnewest⟩,
    ⟨part, voice, hpart, hvoice, hposition⟩,
    fun hrun => hrun.catchUp_reached hpart hvoice hposition⟩

/-- All that is open can be closed, and nothing is lost by it. -/
theorem drains (h : r.Holds settings past) (current : VoiceKey) (chord? : Option VoiceKey)
    (line : Nat) (j : Journal) :
    ∃ s j', Runs (drainTuplets line) (r.facing current chord?) j () s j' ∧
      s.passage.tuplets = [] ∧ s.music = r.music := by
  have hsound := h.sound.facing current chord?
  obtain ⟨_, s, j', hrun⟩ := GoesWell.drainTuplets hsound j
  obtain ⟨⟨hquiet, -⟩, hnone⟩ := Closes.drainTuplets hsound hrun.ends
  exact ⟨s, j', hrun, hnone, congrArg View.music hquiet.view⟩

/-- A note of the voice of the open tuplets comes right behind their newest leaf. -/
theorem note_of_open (h : m.before.Holds settings past)
    (hstep : Ends (m.move.perform settings) m.before () m.after) {input : NoteInput}
    (hdeed : m.move.deed settings m.before = .note input) (halone : input.inChord = false)
    (hkey : m.before.passage.tupletKey? = some input.key) :
    ∃ id n, m.before.partId? = some id ∧
      Note.Dressed (input.marks settings m.before) input.note n ∧
      leavesOf (m.after.music id input.key) =
        leavesOf (m.before.music id input.key) ++ [.note n] := by
  have hdoes := Does.perform h.sound hstep
  rw [hdeed] at hdoes
  cases hdoes with
  | @place _ id _ _ placed _ takes seats =>
    obtain rfl := Does.marks_of_note h.sound hstep hdeed takes
    obtain ⟨rests, n, hrests, hdressed, hleaves⟩ := seats
    -- the voice of open tuplets is not behind, so no rest is needed before the note
    have hreached := (h.sound.tuplets input.key hkey).reached
    rw [padRests, if_neg hreached.not_gt, List.forall₂_nil_left_iff] at hrests
    rw [hrests, List.map_nil, List.append_nil] at hleaves
    exact ⟨id, n, placed.partId, hdressed, hleaves⟩
  | join member => exact absurd (halone.symm.trans member) Bool.false_ne_true

end Reading.Holds

/-! ## Whole documents -/

/-- The moments of some moves follow each other, also where one of the moves fails. -/
theorem exists_follows_trailFrom (settings : Settings) (moves : List Move) (r : Reading)
    (j : Journal) : ∃ last, Follows settings r (trailFrom settings moves r j) last := by
  rcases hrun : ((forM moves (Move.perform settings) : Step Unit).run r).run.run j with
    ⟨failure | ⟨u, last⟩, j'⟩
  · obtain ⟨last, _, _, _, hfollows, _⟩ := failed_trailFrom hrun
    exact ⟨last, hfollows⟩
  · exact ⟨last, (follows_trailFrom hrun).1⟩

/-- A trail leads to what is known after its last moment. -/
theorem Follows.last_eq (h : Follows settings r ms t) : t = ms.getLast?.elim r Moment.after := by
  induction h with
  | nil => rfl
  | @cons m ms t _ _ ih =>
    cases ms with
    | nil => exact ih
    | cons m' ms =>
      rw [List.getLast?_cons_cons]
      exact ih.trans (by simp [List.getLast?_cons])

/-- What was read of a document up to some moment holds what it should, and the rest follows. -/
theorem Document.exists_holds {root : Element} (h : trail settings root = past ++ ms) :
    ∃ r last, Follows settings {} past r ∧ r.Holds settings past ∧ Follows settings r ms last := by
  obtain ⟨last, hfollows⟩ : ∃ last, Follows settings {} (trail settings root) last :=
    exists_follows_trailFrom settings _ _ _
  rw [h] at hfollows
  obtain ⟨r, hbefore, hlater⟩ := hfollows.of_append
  exact ⟨r, last, hbefore, (Reading.Holds.begin settings).follows hbefore, hlater⟩

/-- **Open tuplets hold the newest notes of one voice.** Whatever was read of a document: where
tuplets are open they are all of one voice, the innermost ends with the newest leaf of this voice,
and the voice is not behind the document. All of them can be closed. A note of their voice comes
with no rest before it, and none is ever found without members. -/
theorem Document.tuplets_held (settings : Settings) (root : Element) :
    (∀ past, past <+: trail settings root → ∃ r, Follows settings {} past r ∧
      (∀ top outer, r.passage.tuplets = top :: outer → ∃ id, r.HoldsOpen settings past id top) ∧
      ∀ current chord? line j, ∃ s j',
        Runs (drainTuplets line) (r.facing current chord?) j () s j' ∧
          s.passage.tuplets = [] ∧ s.music = r.music) ∧
    (∀ m ∈ trail settings root, ∀ input, m.move.deed settings m.before = .note input →
      input.inChord = false → m.before.passage.tupletKey? = some input.key →
      ∃ id n, m.before.partId? = some id ∧
        Note.Dressed (input.marks settings m.before) input.note n ∧
        leavesOf (m.after.music id input.key) =
          leavesOf (m.before.music id input.key) ++ [.note n]) ∧
    (Document.read settings root).diagnostics.ofKind "empty_tuplet" = [] := by
  refine ⟨fun past hpast => ?_, fun m hm input hdeed halone hkey => ?_,
    (Document.filled settings root).ofKind⟩
  · obtain ⟨ms, hms⟩ := hpast
    obtain ⟨r, _, hfollows, hholds, -⟩ := exists_holds hms.symm
    exact ⟨r, hfollows, fun _ _ => hholds.holdsOpen, hholds.drains⟩
  · obtain ⟨past, ms, hms⟩ := List.append_of_mem hm
    obtain ⟨r, _, -, hholds, hlater⟩ := exists_holds hms
    obtain ⟨rfl, hstep, -⟩ := hlater.of_cons
    exact hholds.note_of_open hstep hdeed halone hkey

/-- Once the inner tuplet has stopped on a member of a chord, the outer one is open. It ends with
this chord, of the third and the fourth note, and can be closed. -/
theorem Document.tuplets_held_nested : ∃ past r top id leaf,
    past <+: trail {} nestedTuplets ∧ Follows {} {} past r ∧ r.passage.tuplets = [top] ∧
      r.HoldsOpen {} past id top ∧ top.leaves.getLast? = some leaf ∧
      leaf.notes.map Note.line = [3, 4] ∧
      ∃ s j', Runs (drainTuplets 5) (r.facing ⟨1, 1⟩ none) [] () s j' ∧ s.passage.tuplets = [] := by
  have hpast : (trail {} nestedTuplets).take 8 <+: trail {} nestedTuplets := List.take_prefix _ _
  obtain ⟨r, hfollows, hopen, hdrains⟩ := (Document.tuplets_held {} nestedTuplets).1 _ hpast
  have hlines : r.passage.tuplets.map (fun t => t.leaves.getLast?.map fun leaf =>
      leaf.notes.map Note.line) = [some [3, 4]] := by
    rw [hfollows.last_eq]
    decide +kernel
  obtain ⟨top, htuplets, hlast⟩ := List.map_eq_singleton_iff.mp hlines
  obtain ⟨leaf, hleaf, hnotes⟩ := Option.map_eq_some_iff.mp hlast
  obtain ⟨id, hholds⟩ := hopen top [] htuplets
  obtain ⟨s, j', hrun, hnone, -⟩ := hdrains ⟨1, 1⟩ none 5 []
  exact ⟨_, r, top, id, leaf, hpast, hfollows, htuplets, hholds, hleaf, hnotes, s, j', hrun, hnone⟩

end Partwise
