import Mathlib.Data.List.Nodup
import Partwise.Proofs.Music.Doing
import Partwise.Proofs.Reading.Forest

/-!
# Music · Nesting: parts stand side by side

The tree of a document may have parts inside parts, but such a document is not read to its end: when
the inner part is left, no part is current, and the outer one cannot be left any more. So in a
reading that goes well every part is entered where no part is current. `Nests` says how an element
changes the part that is current, and `nests_movesOf` proves it along the tree.

`Unfolds` gathers what is known of every moment of such a reading: what it does (`Does`), that its
invariants hold, and that parts are entered outside of parts. The results about whole documents are
inductions on it, from `Document.unfolds`.
-/

namespace Partwise

open Markup

variable {settings : Settings} {r s t : Reading} {m : Moment} {ms ns : List Moment}

/-! ## Which part is current -/

/-- What a deed means for which part is current. -/
def Deed.partAfter (part? : Option String) : Deed → Option String
  | enterPart id => some id
  | leavePart => none
  | _ => part?

/-- The part that is current after a deed is the one that the deed turns to. -/
theorem Does.partId {d : Deed} (h : Does r s d) : s.partId? = d.partAfter r.partId? := by
  cases h with
  | place _ placed => exact placed.samePart.trans placed.partId.symm
  | join _ joined => exact joined.samePart.trans joined.partId.symm
  | forward placed => exact placed.samePart.trans placed.partId.symm
  | backup back => exact back.partId
  | enterMeasure begins => exact congrArg View.partId? begins.view
  | leaveMeasure quiet => exact quiet.partId
  | enterPart begins => exact begins.partId
  | leavePart ends => exact ends.partId
  | nothing quiet => exact quiet.partId

/-- The move enters a part. -/
def Move.EntersPart (m : Move) : Prop := ∃ e, m = .enterPart e

/-- Invariants that hold before a trail hold after it. -/
theorem Follows.sound (h : Follows settings r ms t) (hr : r.Sound) : t.Sound :=
  h.keeps hr fun _ _ hbefore hstep => (Does.perform hbefore hstep).sound

/-! ## Parts inside parts -/

/-- How an element or some elements change the part that is current. Where none was, none is
afterwards; where one is afterwards, it is the one before, and no part was entered. -/
structure Nests (r : Reading) (ms : List Moment) (t : Reading) : Prop where
  outside : r.partId? = none →
    t.partId? = none ∧ ∀ m ∈ ms, m.move.EntersPart → m.before.partId? = none
  inside : t.partId? ≠ none → t.partId? = r.partId? ∧ ∀ m ∈ ms, ¬ m.move.EntersPart

namespace Nests

theorem nil (r : Reading) : Nests r [] r :=
  ⟨fun hnone => ⟨hnone, by simp⟩, fun _ => ⟨rfl, by simp⟩⟩

/-- Two trails that nest do so one after the other. -/
theorem append (h : Nests r ms s) (h' : Nests s ns t) : Nests r (ms ++ ns) t := by
  constructor
  · intro hnone
    obtain ⟨hs, hms⟩ := h.outside hnone
    obtain ⟨ht, hns⟩ := h'.outside hs
    refine ⟨ht, ?_⟩
    intro m hm
    rcases List.mem_append.mp hm with hm | hm
    · exact hms m hm
    · exact hns m hm
  · intro hsome
    obtain ⟨ht, hns⟩ := h'.inside hsome
    obtain ⟨hs, hms⟩ := h.inside (ht ▸ hsome)
    refine ⟨ht.trans hs, ?_⟩
    intro m hm
    rcases List.mem_append.mp hm with hm | hm
    · exact hms m hm
    · exact hns m hm

/-- A move that is no boundary of a part. -/
theorem single (hpartId : m.after.partId? = m.before.partId?) (henters : ¬ m.move.EntersPart) :
    Nests m.before [m] m.after :=
  ⟨fun hnone => ⟨hpartId.trans hnone, by simp [henters]⟩, fun _ => ⟨hpartId, by simp [henters]⟩⟩

/-- A part: what is inside it does not enter any other, or it could not be left. -/
theorem part {enter leave : Moment} (hinner : Nests enter.after ms leave.before)
    (hinside : leave.before.partId? ≠ none) (hleft : leave.after.partId? = none)
    (hleaves : ¬ leave.move.EntersPart) :
    Nests enter.before (enter :: ms ++ [leave]) leave.after := by
  obtain ⟨_, hnone⟩ := hinner.inside hinside
  refine ⟨fun houtside => ⟨hleft, fun m hm henters => ?_⟩, fun hsome => absurd hleft hsome⟩
  rcases List.mem_append.mp hm with hm | hm
  · rcases List.mem_cons.mp hm with rfl | hm
    · exact houtside
    · exact absurd henters (hnone m hm)
  · rw [List.mem_singleton.mp hm] at henters
    exact absurd henters hleaves

end Nests

/-- A trail of moves that are two groups is a trail of the first and then one of the second. -/
theorem Follows.split {as bs : List Move} (h : Follows settings r ms t)
    (hmoves : ms.map Moment.move = as ++ bs) :
    ∃ ms₁ ms₂ s, ms = ms₁ ++ ms₂ ∧ ms₁.map Moment.move = as ∧ ms₂.map Moment.move = bs ∧
      Follows settings r ms₁ s ∧ Follows settings s ms₂ t := by
  obtain ⟨ms₁, ms₂, rfl, h₁, h₂⟩ := List.map_eq_append_iff.mp hmoves
  obtain ⟨s, hfirst, hsecond⟩ := h.of_append
  exact ⟨ms₁, ms₂, s, rfl, h₁, h₂, hfirst, hsecond⟩

/-- A trail of a single move has one moment, which takes the reading to where the trail ends. -/
theorem Follows.of_single {move : Move} (h : Follows settings r ms t)
    (hmoves : ms.map Moment.move = [move]) :
    ∃ m, ms = [m] ∧ m.move = move ∧ m.before = r ∧ m.after = t ∧
      Ends (move.perform settings) r () t := by
  obtain ⟨m, hms, hmove⟩ := List.map_eq_singleton_iff.mp hmoves
  subst hms
  obtain ⟨hbefore, hstep, hrest⟩ := h.of_cons
  have hafter := hrest.of_nil
  subst hbefore hafter hmove
  exact ⟨m, rfl, rfl, rfl, rfl, hstep⟩

/-- An element that is not looked into any further leaves the current part as it is. -/
theorem Deed.partAfter_ofLeaf (settings : Settings) (r : Reading) (e : Element)
    (part? : Option String) : (Deed.ofLeaf settings r e).partAfter part? = part? :=
  ofLeaf_cases (P := fun d => d.partAfter part? = part?) settings r e (fun _ _ => rfl) (fun _ => rfl)
    (fun _ _ _ => rfl) rfl

/-- A single move that is no boundary of a part. -/
theorem Nests.of_single {move : Move} (hr : r.Sound) (h : Follows settings r ms t)
    (hmoves : ms.map Moment.move = [move]) (henters : ¬ move.EntersPart)
    (hleaves : ∀ e, move ≠ .leavePart e) : Nests r ms t := by
  obtain ⟨m, rfl, rfl, rfl, rfl, hstep⟩ := h.of_single hmoves
  refine .single ?_ henters
  rw [(Does.perform hr hstep).partId]
  cases hmove : m.move with
  | enterPart e => exact absurd ⟨e, hmove⟩ henters
  | leavePart e => exact absurd hmove (hleaves e)
  | enterMeasure => rfl
  | leaveMeasure => rfl
  | leavePartList => rfl
  | leaf e => exact Deed.partAfter_ofLeaf ..

mutual

/-- Along an element parts do not nest. -/
theorem nests_movesOf (e : Element) {r t : Reading} {ms : List Moment} (hr : r.Sound)
    (h : Follows settings r ms t) (hmoves : ms.map Moment.move = movesOf e) : Nests r ms t := by
  match e with
  | ⟨name, attributes, text?, children, line⟩ =>
    unfold movesOf at hmoves
    dsimp only at hmoves
    split at hmoves
    · exact nests_movesOfAll children hr h hmoves
    · obtain ⟨ms₁, ms₂, s, rfl, h₁, h₂, hfirst, hlast⟩ := h.split hmoves
      exact (nests_movesOfAll children hr hfirst h₁).append
        (.of_single (hfirst.sound hr) hlast h₂ (by rintro ⟨_, ⟨⟩⟩) (by rintro _ ⟨⟩))
    · obtain ⟨ms₁, ms₂, s, rfl, h₁, h₂, hfirst, hlast⟩ := h.split hmoves
      obtain ⟨enter, inner, rfl, henter, hinner⟩ := List.map_eq_cons_iff.mp h₁
      obtain ⟨rfl, hentered, hinside⟩ := hfirst.of_cons
      have hsound := (Does.perform hr hentered).sound
      have hnests := nests_movesOfAll children hsound hinside hinner
      obtain ⟨leave, rfl, hleave, rfl, rfl, hleft⟩ := hlast.of_single h₂
      obtain ⟨hin, hout, _⟩ := PartEnds.leavePart (hinside.sound hsound) hleft
      exact hnests.part hin hout (by rw [hleave]; rintro ⟨_, ⟨⟩⟩)
    · obtain ⟨ms₁, ms₂, s, rfl, h₁, h₂, hfirst, hlast⟩ := h.split hmoves
      obtain ⟨enter, inner, rfl, henter, hinner⟩ := List.map_eq_cons_iff.mp h₁
      obtain ⟨rfl, hentered, hinside⟩ := hfirst.of_cons
      have hsound := (Does.perform hr hentered).sound
      have honly : Follows settings enter.before [enter] enter.after := .cons hentered (.nil _)
      have hbegins := Nests.of_single hr honly (congrArg (· :: []) henter)
        (by rintro ⟨_, ⟨⟩⟩) (by rintro _ ⟨⟩)
      exact (hbegins.append (nests_movesOfAll children hsound hinside hinner)).append
        (.of_single (hinside.sound hsound) hlast h₂ (by rintro ⟨_, ⟨⟩⟩) (by rintro _ ⟨⟩))
    · exact .of_single hr h hmoves (by rintro ⟨_, ⟨⟩⟩) (by rintro _ ⟨⟩)

/-- Along elements parts do not nest. -/
theorem nests_movesOfAll (es : List Element) {r t : Reading} {ms : List Moment} (hr : r.Sound)
    (h : Follows settings r ms t) (hmoves : ms.map Moment.move = movesOfAll es) : Nests r ms t := by
  match es with
  | [] =>
    have hnil := List.map_eq_nil_iff.mp hmoves
    subst hnil
    rw [h.of_nil]
    exact .nil r
  | e :: es =>
    unfold movesOfAll at hmoves
    obtain ⟨ms₁, ms₂, s, rfl, h₁, h₂, hfirst, hlast⟩ := h.split hmoves
    exact (nests_movesOf e hr hfirst h₁).append (nests_movesOfAll es (hfirst.sound hr) hlast h₂)

end

/-! ## How the music unfolds -/

/-- Only a part is entered as a part. -/
theorem Move.entersPart_of_deed {move : Move} {id : String}
    (h : move.deed settings r = .enterPart id) : move.EntersPart := by
  cases move with
  | enterPart e => exact ⟨e, rfl⟩
  | leaf e =>
    have hpart := Deed.partAfter_ofLeaf settings r e none
    rw [show Deed.ofLeaf settings r e = .enterPart id from h] at hpart
    exact nomatch hpart
  | leavePart | enterMeasure | leaveMeasure | leavePartList => exact nomatch h

/-- The music unfolds from one reading to another: every moment does what it means, with all
invariants, and parts are entered outside of parts. -/
inductive Unfolds (settings : Settings) : Reading → List Moment → Reading → Prop
  | nil (r : Reading) : Unfolds settings r [] r
  | cons {m : Moment} {ms : List Moment} {t : Reading} (sound : m.before.Sound)
      (does : Does m.before m.after (m.move.deed settings m.before))
      (alone : ∀ id, m.move.deed settings m.before = .enterPart id → m.before.partId? = none)
      (rest : Unfolds settings m.after ms t) : Unfolds settings m.before (m :: ms) t

/-- A trail unfolds if parts are entered only where none is being read. -/
theorem Follows.unfolds (h : Follows settings r ms t) (hr : r.Sound)
    (halone : ∀ m ∈ ms, m.move.EntersPart → m.before.partId? = none) :
    Unfolds settings r ms t := by
  induction h with
  | nil r => exact .nil r
  | cons hstep _ ih =>
    have hdoes := Does.perform hr hstep
    exact .cons hr hdoes (fun id hid => halone _ List.mem_cons_self (Move.entersPart_of_deed hid))
      (ih hdoes.sound fun m hm => halone m (List.mem_cons_of_mem _ hm))

/-- What unfolds over a moment and others does what that moment means, and then unfolds over the
others. -/
theorem Unfolds.of_cons (h : Unfolds settings r (m :: ms) t) : m.before.Sound ∧
    Does m.before m.after (m.move.deed settings m.before) ∧
      (∀ id, m.move.deed settings m.before = .enterPart id → m.before.partId? = none) ∧
        Unfolds settings m.after ms t := by
  cases h with
  | cons hsound hdoes halone hrest => exact ⟨hsound, hdoes, halone, hrest⟩

/-- What unfolds over some moments and others unfolds over the first, as far as these lead. -/
theorem Unfolds.of_append (h : Unfolds settings r (ms ++ ns) t) (hfollows : Follows settings r ms s) :
    Unfolds settings r ms s := by
  induction hfollows with
  | nil r => exact .nil r
  | cons _ _ ih =>
    obtain ⟨hsound, hdoes, halone, hrest⟩ := h.of_cons
    exact .cons hsound hdoes halone (ih hrest)

/-- What unfolds may be cut at any of its moments. -/
theorem Unfolds.cut (h : Unfolds settings r (ms ++ m :: ns) t) :
    Unfolds settings r ms m.before ∧ Unfolds settings m.before (m :: ns) t := by
  induction ms generalizing r with
  | nil =>
    cases h with
    | cons hsound hdoes halone hrest =>
      exact ⟨.nil m.before, .cons hsound hdoes halone hrest⟩
  | cons m' ms ih =>
    cases h with
    | cons hsound hdoes halone hrest =>
      obtain ⟨hfirst, hlast⟩ := ih hrest
      exact ⟨.cons hsound hdoes halone hfirst, hlast⟩

/-- No deed leaves a repeat pending outside of the current part. -/
theorem Does.closed {d : Deed} (h : Does r s d) (halone : ∀ id, d = .enterPart id → r.partId? = none)
    (hr : r.Closed) : s.Closed := by
  cases h with
  | place _ placed => exact placed.closed hr
  | join _ joined => exact joined.closed hr
  | forward placed => exact placed.closed hr
  | backup back => exact back.closed hr
  | enterMeasure begins => exact begins.closed hr
  | leaveMeasure quiet => exact quiet.closed hr
  | enterPart begins => exact begins.closed (halone _ rfl) hr
  | leavePart ends => exact ends.closed hr
  | nothing quiet => exact quiet.closed hr

/-- No repeat is left pending outside of the current part. -/
theorem Unfolds.closed (h : Unfolds settings r ms t) (hr : r.Closed) : t.Closed := by
  induction h with
  | nil => exact hr
  | cons _ hdoes halone _ ih => exact ih (hdoes.closed halone hr)

/-! ## Documents that are read -/

/-- A reading that knows nothing is sound. -/
theorem Reading.sound_empty : ({} : Reading).Sound :=
  ⟨List.nodup_nil, fun _ _ h => (nomatch h), fun _ h => (nomatch h)⟩

/-- What is known of the last reading of a document: its parts are those of the score, none is
current and no repeat pending. -/
structure Reading.Complete (r : Reading) (score : Score) : Prop where
  parts : score.parts.Perm r.parts
  sound : r.Sound
  closed : r.Closed
  partId : r.partId? = none

/-- A document that is read unfolds to its last reading, step by step. -/
theorem Document.follows_unfolds {root : Element} {score : Score}
    (h : (Document.read settings root).score = .ok score) :
    ∃ last : Reading, Follows settings {} (trail settings root) last ∧
      Unfolds settings {} (trail settings root) last ∧ last.Complete score ∧
        (trail settings root).map Moment.move = movesOf root := by
  obtain ⟨last, final, hfollows, hmoves, hcomplete⟩ := Document.follows_trail h
  have hsound := Reading.sound_empty
  have hlisted : last.Listed := hfollows.keeps (P := Reading.Listed) (.refl _)
    fun _ _ hr hstep => hr.perform hstep
  have hparts := hlisted.parts_perm (hfollows.sound hsound).ids hcomplete
  obtain ⟨hnone, halone⟩ := (nests_movesOf root hsound hfollows hmoves).outside rfl
  have hunfolds := hfollows.unfolds hsound halone
  exact ⟨last, hfollows, hunfolds, ⟨hparts, hfollows.sound hsound,
    hunfolds.closed fun _ _ _ hp => (nomatch hp), hnone⟩, hmoves⟩

/-- **A document that is read** unfolds to its last reading. -/
theorem Document.unfolds {root : Element} {score : Score}
    (h : (Document.read settings root).score = .ok score) :
    ∃ last : Reading, Unfolds settings {} (trail settings root) last ∧ last.Complete score ∧
      (trail settings root).map Moment.move = movesOf root := by
  obtain ⟨last, -, hunfolds, hcomplete, hmoves⟩ := Document.follows_unfolds h
  exact ⟨last, hunfolds, hcomplete, hmoves⟩

/-- A part is found under its id. -/
theorem Reading.Sound.partOf_of_mem (h : r.Sound) {p : Part} (hp : p ∈ r.parts) :
    r.partOf p.id = some p := by
  have hsome : (r.partOf p.id).isSome := by
    rw [Reading.partOf, List.find?_isSome]
    exact ⟨p, hp, by simp⟩
  obtain ⟨q, hq⟩ := Option.isSome_iff_exists.mp hsome
  rw [hq, List.inj_on_of_nodup_map h.ids (List.mem_of_find?_eq_some hq) hp (id_of_partOf hq)]

namespace Reading.Complete

variable {score : Score} {part : Part} {voice : Voice}

/-- A part of the score is the part of the last reading with its id. -/
theorem partOf (h : r.Complete score) (hpart : part ∈ score.parts) :
    r.partOf part.id = some part :=
  h.sound.partOf_of_mem (h.parts.subset hpart)

/-- The music of a part of the score is the music that the reading has of it. -/
theorem music (h : r.Complete score) (hpart : part ∈ score.parts) (key : VoiceKey) :
    r.music part.id key = part.music key := by
  simp [Reading.music, h.partOf hpart, h.partId]

/-- A voice of the score is the voice of its part with its key. -/
theorem voice? (h : r.Complete score) (hpart : part ∈ score.parts) (hvoice : voice ∈ part.voices) :
    part.voice? voice.key = some voice :=
  (h.sound.keyed _ part (h.partOf hpart)).voice?_of_mem hvoice

/-- The notes of a voice of the score are those of the music that was read. -/
theorem imprints_eq (h : r.Complete score) (hpart : part ∈ score.parts)
    (hvoice : voice ∈ part.voices) :
    imprints (r.music part.id voice.key) = voice.notes.map Note.imprint := by
  have hpending := h.closed part.id part (by simp [h.partId]) (h.partOf hpart) voice hvoice
  rw [h.music hpart, Part.music, h.voice? hpart hvoice, voice.notes_eq_music hpending]
  rfl

end Reading.Complete

end Partwise
