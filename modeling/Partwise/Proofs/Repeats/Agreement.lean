import Partwise.Proofs.Music.Stacking
import Partwise.Proofs.Repeats.Accounts

/-!
# Repeats · Agreement: voices of a part have the same repeats

All voices of a part that are there take every barline of it. What a voice makes of a barline
depends on the voice: on its pending repeat, on what its open chunk begins with. Still two voices
that have met the same barlines make the same of the next one, whatever music is in them: they are
`InStep`, and stay so through barlines (`Voice.InStep.takeBarline`) and the end of a part
(`Voice.InStep.endRepeats`). `Document.repeats_agree` is the run from the first barline of the part
to the score.
-/

namespace Partwise

open Markup

variable {settings : Settings} {r s t : Reading} {ms : List Moment} {m : Moment} {id : String}
  {k₁ k₂ : VoiceKey} {v w : Voice} {b : Barline}

/-! ## Shapes -/

/-- What is seen of a repeat besides the music in it. -/
structure Repeat.Shape where
  explicitStart : Bool
  times? : Option Nat
  /-- What all rounds have in common begins with a start that the document does not have. -/
  madeUpStart : Bool
  endings : List EndingKind
deriving DecidableEq, Repr

namespace Repeat

/-- The body of the repeat begins with a start that was made up. -/
def madeUpStart (r : Repeat) : Bool :=
  (firstBarline? r.body).any (·.isImplicit)

/-- The repeat without its music. -/
def shape (r : Repeat) : Shape :=
  ⟨r.explicitStart, r.times?, r.madeUpStart, r.endings.map (·.kind)⟩

/-- A body that begins with what was read has no start that was made up. -/
theorem madeUpStart_eq_false {r : Repeat} (h : BeginsRead r.body) : r.madeUpStart = false := by
  unfold madeUpStart
  cases hfirst : firstBarline? r.body with
  | none => rfl
  | some b => exact h b hfirst

/-- A chunk that comes into a repeat leaves its count as it is. -/
theorem times_extend (r : Repeat) (chunk : List VoiceElement) :
    (r.extend chunk).times? = r.times? := by
  unfold extend
  split <;> rfl

/-- A chunk that comes into the last ending leaves the kinds of the endings as they are. -/
theorem kinds_extendLastEnding (chunk : List VoiceElement) (endings : List Ending) :
    (extendLastEnding chunk endings).map (·.kind) = endings.map (·.kind) := by
  induction endings with
  | nil => rfl
  | cons ending endings ih =>
    cases endings with
    | nil => rfl
    | cons next rest =>
      simpa only [extendLastEnding, List.map_cons, List.cons.injEq, true_and] using ih

/-- Music that comes into a repeat does not show in its shape. -/
theorem shape_extend {r : Repeat} {chunk : List VoiceElement} (hr : BeginsRead r.body)
    (hchunk : BeginsRead chunk) : (r.extend chunk).shape = r.shape := by
  have hkinds : (r.extend chunk).endings.map (·.kind) = r.endings.map (·.kind) := by
    unfold extend
    split
    · rfl
    · exact kinds_extendLastEnding chunk r.endings
  simp only [shape, explicitStart_extend, times_extend, hkinds, madeUpStart_eq_false hr,
    madeUpStart_eq_false (hr.extend hchunk)]

/-- An ending that comes to a repeat adds its kind to the shape. -/
theorem shape_addEnding (r : Repeat) (ending : Ending) :
    (r.addEnding ending).shape = { r.shape with endings := r.shape.endings ++ [ending.kind] } := by
  simp [shape, addEnding, madeUpStart]

/-- A start that was made up shows in the shape of a repeat, and nothing else changes. -/
theorem shape_withImplicitStart (r : Repeat) (measure : String) :
    (r.withImplicitStart measure).shape = { r.shape with madeUpStart := true } :=
  rfl

/-- Whether there are endings shows in the shape. -/
theorem isEmpty_endings (r : Repeat) : r.endings.isEmpty = r.shape.endings.isEmpty := by
  simp [shape]

end Repeat

/-! ## Voices in step -/

/-- Two voices have the same repeats, up to the music in them: closed ones and the pending one. -/
structure Voice.SameShapes (v w : Voice) : Prop where
  closed : v.repeats.map Repeat.shape = w.repeats.map Repeat.shape
  pending : v.pending?.map Repeat.shape = w.pending?.map Repeat.shape

namespace Voice.SameShapes

/-- Voices of the same shapes collect repeats of the same shape. -/
theorem collecting (h : v.SameShapes w) : v.collecting.shape = w.collecting.shape := by
  have hgetD : ∀ u : Voice, u.collecting.shape =
      (u.pending?.map Repeat.shape).getD (Repeat.opened false none).shape := fun _ =>
    (Option.getD_map ..).symm
  rw [hgetD, hgetD, h.pending]

/-- Voices of the same shapes both close their pending repeat, or neither has one. -/
theorem closeRepeat (h : v.SameShapes w) (explicitStart : Bool) (measure : String) :
    (v.closeRepeat explicitStart measure).1.SameShapes (w.closeRepeat explicitStart measure).1 := by
  have hpending := h.pending
  unfold Voice.closeRepeat
  cases hv : v.pending? with
  | none =>
    have hw : w.pending? = none := by simpa [hv] using hpending.symm
    simpa only [hw] using h
  | some r =>
    obtain ⟨r', hw, hshape⟩ : ∃ r', w.pending? = some r' ∧ r'.shape = r.shape := by
      simpa [hv, eq_comm] using hpending.symm
    have hexplicit : r'.explicitStart = r.explicitStart :=
      congrArg Repeat.Shape.explicitStart hshape
    simp only [hw]
    refine ⟨?_, rfl⟩
    have hcomplete : (if explicitStart || r.explicitStart then r
          else r.withImplicitStart measure).shape =
        (if explicitStart || r'.explicitStart then r' else r'.withImplicitStart measure).shape := by
      rw [hexplicit]
      split
      · exact hshape.symm
      · rw [Repeat.shape_withImplicitStart, Repeat.shape_withImplicitStart, hshape]
    have hclosed := h.closed
    simp only [repeats] at hclosed ⊢
    simpa [VoiceElement.repeat?, hclosed] using hcomplete

/-- Voices of the same shapes keep so when their open chunks become endings of one kind. -/
theorem closeEnding (h : v.SameShapes w) (closing : Barline) (kind : EndingKind) :
    (v.closeEnding closing kind).SameShapes (w.closeEnding closing kind) := by
  refine ⟨h.closed, congrArg some ?_⟩
  rw [Repeat.shape_addEnding, Repeat.shape_addEnding, h.collecting]

/-- The end of a chunk without repeats does not show. -/
theorem flush (h : v.SameShapes w) (hv : v.chunk.filterMap VoiceElement.repeat? = [])
    (hw : w.chunk.filterMap VoiceElement.repeat? = []) : v.flush.SameShapes w.flush := by
  refine ⟨?_, h.pending⟩
  have hclosed := h.closed
  simp only [repeats, Voice.flush, List.filterMap_append, hv, hw, List.append_nil] at hclosed ⊢
  exact hclosed

end Voice.SameShapes

/-- Two voices have met the same barlines: one ledger is right about both, and their repeats differ
only in their music. -/
structure Voice.InStep (v w : Voice) : Prop extends v.SameShapes w where
  ledger : ∃ l : Ledger, l.Tells v ∧ l.Tells w

namespace Voice.InStep

/-- Voices are in step as long as no barline has come to either. -/
theorem of_blank (hv : ({} : Ledger).Tells v) (hw : ({} : Ledger).Tells w) : v.InStep w := by
  have hnone : ∀ {u : Voice}, ({} : Ledger).Tells u → u.repeats = [] ∧ u.pending? = none :=
    fun hu => ⟨List.map_eq_nil_iff.mp hu.begun, hu.stage⟩
  refine ⟨⟨?_, ?_⟩, {}, hv, hw⟩
  · rw [(hnone hv).1, (hnone hw).1]
  · rw [(hnone hv).2, (hnone hw).2]

/-- What happens between barlines does not bring voices out of step. -/
theorem of_bars {v' w' : Voice} (h : v.InStep w) (hv : v'.bars = v.bars) (hw : w'.bars = w.bars) :
    v'.InStep w' := by
  have hshapes : ∀ {u u' : Voice}, u'.bars = u.bars →
      u'.repeats = u.repeats ∧ u'.pending? = u.pending? := fun hu => by
    simp only [bars, Prod.mk.injEq] at hu
    exact ⟨by rw [repeats, repeats, hu.1], hu.2.1⟩
  obtain ⟨l, hlv, hlw⟩ := h.ledger
  refine ⟨⟨?_, ?_⟩, l, hlv.of_bars hv, hlw.of_bars hw⟩
  · rw [(hshapes hv).1, (hshapes hw).1, h.closed]
  · rw [(hshapes hv).2, (hshapes hw).2, h.pending]

/-- One open chunk is an ending exactly if the other one is. -/
theorem inEnding (h : v.InStep w) : v.inEnding = w.inEnding := by
  obtain ⟨l, hv, hw⟩ := h.ledger
  exact hv.inEnding.trans hw.inEnding.symm

/-- The open chunks go into the pending repeats, where they do not show. -/
theorem moveIntoRepeat (h : v.InStep w) : v.moveIntoRepeat.SameShapes w.moveIntoRepeat := by
  obtain ⟨l, hv, hw⟩ := h.ledger
  refine ⟨h.closed, congrArg some ?_⟩
  show (v.collecting.extend v.chunk).shape = (w.collecting.extend w.chunk).shape
  rw [Repeat.shape_extend hv.collecting_read hv.read,
    Repeat.shape_extend hw.collecting_read hw.read]
  exact h.collecting

/-- **A barline** finds two voices in step and leaves them so. -/
theorem takeBarline (h : v.InStep w) (hb : b.isImplicit = false) (explicitStart : Bool)
    (measure : String) :
    (v.takeBarline b explicitStart measure).1.InStep (w.takeBarline b explicitStart measure).1 := by
  obtain ⟨l, hlv, hlw⟩ := h.ledger
  refine ⟨?_, _, hlv.takeBarline hb explicitStart measure, hlw.takeBarline hb explicitStart measure⟩
  -- before it closes anything, a barline that starts no ending stands in the open chunk
  have happended : b.category ≠ .endingStart →
      (v.append (.barline b)).InStep (w.append (.barline b)) := fun hstart =>
    ⟨⟨h.closed, h.pending⟩, l, hlv.append_barline hb hstart, hlw.append_barline hb hstart⟩
  unfold Voice.takeBarline
  cases hc : b.category with
  | standalone => exact (happended (by simp [hc])).toSameShapes
  | repeatStart =>
    have hclosed := h.closeRepeat explicitStart measure
    have hflushed := hclosed.flush (hlv.closeRepeat explicitStart measure).plain
      (hlw.closeRepeat explicitStart measure).plain
    exact ⟨hflushed.closed, rfl⟩
  | endingStart => exact ⟨h.moveIntoRepeat.closed, h.moveIntoRepeat.pending⟩
  | hookedEndingEnd =>
    have hended := (happended (by simp [hc])).closeEnding b .hooked
    dsimp only
    split
    · exact hended
    · exact hended.closeRepeat explicitStart measure
  | hooklessEndingEnd =>
    exact ((happended (by simp [hc])).closeEnding b .hookless).closeRepeat explicitStart measure
  | repeatEnd =>
    have hended := (happended (by simp [hc])).closeEnding b .hooked
    dsimp only
    rw [h.inEnding]
    split
    · exact hended
    · apply SameShapes.closeRepeat
      refine ⟨h.closed, congrArg some ?_⟩
      have hshape : ∀ {u : Voice} {chunk : List VoiceElement}, l.Tells u → BeginsRead chunk →
          (({ u.collecting with times? := u.collecting.times?.or b.repeatTimes? } : Repeat).extend
            chunk).shape =
          { u.collecting.shape with times? := u.collecting.times?.or b.repeatTimes? } :=
        fun hu hchunk => Repeat.shape_extend hu.collecting_read hchunk
      have hstart : b.category ≠ .endingStart := by simp [hc]
      have hcollecting := h.collecting
      have htimes : v.collecting.times? = w.collecting.times? :=
        congrArg Repeat.Shape.times? hcollecting
      refine (hshape hlv (hlv.append_barline hb hstart).read).trans ?_
      refine Eq.trans ?_ (hshape hlw (hlw.append_barline hb hstart).read).symm
      rw [hcollecting, htimes]

/-- **The end of a part** finds two voices in step and leaves them so. -/
theorem endRepeats (h : v.InStep w) (explicitStart : Bool) (measure : String) :
    (v.endRepeats explicitStart measure).1.flush.InStep
      (w.endRepeats explicitStart measure).1.flush := by
  obtain ⟨l, hlv, hlw⟩ := h.ledger
  refine ⟨?_, _, hlv.endRepeats explicitStart measure, hlw.endRepeats explicitStart measure⟩
  have hpending := h.pending
  unfold Voice.endRepeats
  cases hv : v.pending? with
  | none =>
    have hw : w.pending? = none := by simpa [hv] using hpending.symm
    simpa only [hw] using h.flush hlv.plain hlw.plain
  | some r =>
    obtain ⟨r', hw, hshape⟩ : ∃ r', w.pending? = some r' ∧ r'.shape = r.shape := by
      simpa [hv, eq_comm] using hpending.symm
    simp only [hw, Repeat.isEmpty_endings r', hshape]
    rw [← Repeat.isEmpty_endings r]
    split
    · exact (h.moveIntoRepeat.closeRepeat explicitStart measure).flush
        (hlv.moveIntoRepeat.closeRepeat explicitStart measure).plain
        (hlw.moveIntoRepeat.closeRepeat explicitStart measure).plain
    · exact (h.closeRepeat explicitStart measure).flush
        (hlv.closeRepeat explicitStart measure).plain (hlw.closeRepeat explicitStart measure).plain

end Voice.InStep

/-! ## Readings -/

/-- Two voices of a part have begun and are in step. -/
structure Reading.InStep (r : Reading) (id : String) (k₁ k₂ : VoiceKey) : Prop where
  first : r.hasVoice id k₁ = true
  second : r.hasVoice id k₂ = true
  voices : (r.voiceOf id k₁).InStep (r.voiceOf id k₂)

namespace Reading.InStep

/-- Between barlines voices stay in step. -/
theorem unbarred (h : r.InStep id k₁ k₂) (hquiet : Unbarred r s) : s.InStep id k₁ k₂ :=
  ⟨hquiet.lasting id k₁ h.first, hquiet.lasting id k₂ h.second,
    h.voices.of_bars (hquiet.bars id k₁) (hquiet.bars id k₂)⟩

/-- What comes to all voices of a part comes to both voices or to neither. -/
theorem of_barred {f : Voice → Voice} {id' : String}
    (hvoices : (r.voiceOf id k₁).InStep (r.voiceOf id k₂)) (hbarred : Barred f id' r s)
    (hf : ∀ v w : Voice, v.InStep w → (f v).InStep (f w)) (h₁ : s.hasVoice id k₁ = true)
    (h₂ : s.hasVoice id k₂ = true) : s.InStep id k₁ k₂ := by
  refine ⟨h₁, h₂, ?_⟩
  rw [hbarred.voiceOf id k₁, hbarred.voiceOf id k₂]
  by_cases hid : id' = id
  · rw [if_pos ⟨hid, h₁⟩, if_pos ⟨hid, h₂⟩]
    exact hf _ _ hvoices
  · rw [if_neg fun hboth => hid hboth.1, if_neg fun hboth => hid hboth.1]
    exact hvoices

/-- Voices that have begun take what comes to all voices of a part, and are in step after it. -/
theorem barred {f : Voice → Voice} {id' : String} (h : r.InStep id k₁ k₂) (hready : Unbarred r t)
    (hbarred : Barred f id' t s) (hf : ∀ v w : Voice, v.InStep w → (f v).InStep (f w)) :
    s.InStep id k₁ k₂ := by
  obtain ⟨hfirst, hsecond, hvoices⟩ := h.unbarred hready
  rw [← hbarred.same] at hfirst hsecond
  exact of_barred hvoices hbarred hf hfirst hsecond

/-- Two voices that are in step stay so when a part is entered. -/
theorem enterPart (h : r.InStep id k₁ k₂) {e : Element}
    (hrun : Ends (Partwise.enterPart e) r () s) : s.InStep id k₁ k₂ := by
  obtain ⟨_, _, hget, hrest₁⟩ := hrun.bind
  obtain ⟨rfl, rfl⟩ := hget.get
  split at hrest₁
  · obtain ⟨_, r₁, htell, hset⟩ := hrest₁.bind
    cases htell.tell
    have hs := hset.modify
    subst hs
    exact ⟨h.first, h.second, h.voices⟩
  · exact absurd hrest₁ not_ends_throw

/-- **Every moment** leaves two voices in step that it found so. -/
theorem step (h : m.before.InStep id k₁ k₂)
    (hstep : Ends (m.move.perform settings) m.before () m.after) : m.after.InStep id k₁ k₂ := by
  obtain ⟨before, move, after⟩ := m
  cases move with
  | enterPart e => exact h.enterPart hstep
  | leavePart e =>
    obtain ⟨id', t, measure, -, -, hready, -, hbarred⟩ := Barred.leavePart hstep
    exact h.barred hready hbarred fun v w hvw => hvw.endRepeats _ measure
  | enterMeasure e => exact h.unbarred (Unbarred.discipline.enterMeasure hstep)
  | leaveMeasure e => exact h.unbarred (Unbarred.leaveMeasure hstep)
  | leavePartList line => exact h.unbarred (.of_sameMusic (.closeGroups hstep))
  | leaf e =>
    have hread : Ends (readLeaf settings e) before () after := hstep
    by_cases hname : e.name = "barline"
    · simp only [readLeaf, hname] at hread
      obtain ⟨b, id', t, hgives, -, -, hready, -, hbarred⟩ := Barred.readBarline hread
      exact h.barred hready hbarred fun v w hvw =>
        hvw.takeBarline (Barline.isImplicit_ofElement hgives) _ _
    · exact h.unbarred (.readLeaf hname hread)

end Reading.InStep

/-! ## Documents -/

/-- The moment is a barline of the part. -/
def Moment.isBarlineOf (m : Moment) (id : String) : Bool :=
  m.before.partId? = some id && m.move.isBarline

/-- A ledger says nothing until a barline of its part comes. -/
theorem Account.ledger_step {a : Account} {key : VoiceKey} (ha : a.ledger = {})
    (hm : m.isBarlineOf id = false) : (a.step id key m).ledger = {} := by
  obtain ⟨before, move, after⟩ := m
  cases move with
  | enterPart e => exact ha
  | leavePart e =>
    simp only [step, ha]
    split <;> rfl
  | enterMeasure e | leaveMeasure e | leavePartList line => exact ha
  | leaf e =>
    simp only [step]
    cases hb : Move.barline? before (.leaf e) with
    | none => exact ha
    | some b =>
      have hname : e.name = "barline" := by
        by_contra hname
        simp [Move.barline?, hname] at hb
      have helsewhere : Moment.reaches ⟨before, .leaf e, after⟩ id key = false := by
        have hnot : ¬before.partId? = some id := by
          simpa [Moment.isBarlineOf, Move.isBarline, hname] using hm
        simp [Moment.reaches, hnot]
      simpa [helsewhere] using ha

/-- Without a barline of the part the ledger of an account stays empty. -/
theorem Account.ledger_run {key : VoiceKey} (hms : ∀ m ∈ ms, m.isBarlineOf id = false) :
    (Account.run id key ms).ledger = {} := by
  suffices h : ∀ a : Account, a.ledger = {} → (ms.foldl (Account.step id key) a).ledger = {} from
    h {} rfl
  induction ms with
  | nil => exact fun _ ha => ha
  | cons m ms ih =>
    exact fun a ha => ih (fun m' hm' => hms m' (List.mem_cons_of_mem m hm')) _
      (Account.ledger_step ha (hms m List.mem_cons_self))

/-- The first barline of a part brings all voices in step that are there after it. -/
theorem Reading.InStep.of_first (hfollows : Follows settings {} ms m.before)
    (hnone : ∀ m ∈ ms, m.isBarlineOf id = false) (hm : m.isBarlineOf id = true)
    (hstep : Ends (m.move.perform settings) m.before () m.after)
    (h₁ : m.after.hasVoice id k₁ = true) (h₂ : m.after.hasVoice id k₂ = true) :
    m.after.InStep id k₁ k₂ := by
  have hblank : ∀ k, ({} : Ledger).Tells (m.before.voiceOf id k) := fun k =>
    Account.ledger_run hnone ▸ ((Account.Tells.start id k).run hfollows).ledger
  obtain ⟨before, move, after⟩ := m
  cases move with
  | leaf e =>
    have hname : e.name = "barline" := by simp_all [Moment.isBarlineOf, Move.isBarline]
    have hread : Ends (readLeaf settings e) before () after := hstep
    simp only [readLeaf, hname] at hread
    obtain ⟨b, id', t, hgives, -, -, hready, -, hbarred⟩ := Barred.readBarline hread
    have hvoices := (Voice.InStep.of_blank (hblank k₁) (hblank k₂)).of_bars (hready.bars id k₁)
      (hready.bars id k₂)
    exact of_barred hvoices hbarred (fun v w hvw =>
      hvw.takeBarline (Barline.isImplicit_ofElement hgives) _ _) h₁ h₂
  | enterPart | leavePart | enterMeasure | leaveMeasure | leavePartList =>
    simp [Moment.isBarlineOf, Move.isBarline] at hm

/-- **Voices agree on their repeats.** Two voices of a part that are there after the first barline
of the part have as many repeats in the score, all of them at the top level, and these agree one by
one in all but the music in them. -/
theorem Document.repeats_agree {root : Element} {score : Score} {part : Part} {v w : Voice}
    (h : (Document.read settings root).score = .ok score) (hpart : part ∈ score.parts)
    (hfirst : (trail settings root).find? (·.isBarlineOf part.id) = some m)
    (hv : v ∈ part.voices) (hw : w ∈ part.voices) (hvthere : m.after.hasVoice part.id v.key = true)
    (hwthere : m.after.hasVoice part.id w.key = true) :
    v.RepeatsAtTop ∧ w.RepeatsAtTop ∧
      v.repeats.map Repeat.shape = w.repeats.map Repeat.shape := by
  refine ⟨(Document.begins_eq h hpart hv).1, (Document.begins_eq h hpart hw).1, ?_⟩
  obtain ⟨last, hfollows, -, hcomplete, -⟩ := Document.follows_unfolds h
  obtain ⟨hm, before, rest, hsplit, hnone⟩ := List.find?_eq_some_iff_append.mp hfirst
  rw [hsplit] at hfollows
  obtain ⟨r, hbefore, hafter⟩ := hfollows.of_append
  obtain ⟨rfl, hstep, hrest⟩ := hafter.of_cons
  have hstart := Reading.InStep.of_first hbefore (by simpa using hnone) hm hstep hvthere hwthere
  have hend := hrest.keeps (P := fun r => r.InStep part.id v.key w.key) hstart
    fun _ _ hr hmove => hr.step hmove
  have hlast : ∀ u ∈ part.voices, last.voiceOf part.id u.key = u := fun u hu => by
    simp [Reading.voiceOf, hcomplete.partOf hpart, Part.voiceOrEmpty, hcomplete.voice? hpart hu]
  rw [← hlast v hv, ← hlast w hw]
  exact hend.voices.closed

/-- A barline that opens or closes an ending, with or without the sign to go back. -/
def endingElement (location type : String) (back : List Element) : Element :=
  { name := "barline"
    attributes := [("location", location)]
    children := { name := "ending", attributes := [("number", "1"), ("type", type)] } :: back }

/-- A repeat with two endings, which the document does not open, in two voices. The first voice has
notes in its body and its first ending, the second voice in its body and its second ending. -/
def twoVoicesTwoEndings : Element :=
  singleMeasure [noteElement 1 "C" "1" "1" [], backupElement "1", noteElement 2 "E" "2" "1" [],
    endingElement "left" "start" [], noteElement 3 "D" "1" "1" [],
    endingElement "right" "stop" [{ name := "repeat", attributes := [("direction", "backward")] }],
    endingElement "left" "start" [], noteElement 4 "F" "2" "1" [],
    endingElement "right" "discontinue" []]

/-- Both voices of `twoVoicesTwoEndings` have one repeat, with a start that was made up and two
endings. -/
theorem Document.repeats_agree_twoEndings : ∃ score, ∃ part ∈ score.parts, ∃ v ∈ part.voices,
    ∃ w ∈ part.voices, (Document.read {} twoVoicesTwoEndings).score = .ok score ∧
      v.key = ⟨1, 1⟩ ∧ w.key = ⟨1, 2⟩ ∧
      v.repeats.map Repeat.shape = [⟨false, none, true, [.hooked, .hookless]⟩] ∧
      v.repeats.map Repeat.shape = w.repeats.map Repeat.shape := by
  have hthere : hasScore twoVoicesTwoEndings (fun score => score.parts.any fun part =>
      part.id = "P" ∧ (part.voices.any fun v => v.key = ⟨1, 1⟩ ∧
        v.repeats.map Repeat.shape = [⟨false, none, true, [.hooked, .hookless]⟩]) ∧
      part.voices.any fun w => w.key = ⟨1, 2⟩) = true := by
    decide +kernel
  have hbarline : ((trail {} twoVoicesTwoEndings).find? (·.isBarlineOf "P")).any (fun m =>
      m.after.hasVoice "P" ⟨1, 1⟩ ∧ m.after.hasVoice "P" ⟨1, 2⟩) = true := by
    decide +kernel
  obtain ⟨score, hread, hholds⟩ := exists_score hthere
  obtain ⟨part, hpart, hboth⟩ := List.any_eq_true.mp hholds
  obtain ⟨hid, hone, htwo⟩ := of_decide_eq_true hboth
  obtain ⟨v, hv, hvholds⟩ := List.any_eq_true.mp hone
  obtain ⟨hvkey, hshapes⟩ := of_decide_eq_true hvholds
  obtain ⟨w, hw, hwholds⟩ := List.any_eq_true.mp htwo
  have hwkey := of_decide_eq_true hwholds
  obtain ⟨m, hfirst, hm⟩ := (Option.any_eq_true _ _).mp hbarline
  obtain ⟨hfirstVoice, hsecondVoice⟩ := of_decide_eq_true hm
  have hagree := Document.repeats_agree hread hpart (hid ▸ hfirst) hv hw
    (by rw [hid, hvkey]; exact hfirstVoice) (by rw [hid, hwkey]; exact hsecondVoice)
  exact ⟨score, part, hpart, v, hv, w, hw, hread, hvkey, hwkey, hshapes, hagree.2.2⟩

end Partwise
