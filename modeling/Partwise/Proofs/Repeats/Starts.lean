import Partwise.Proofs.Repeats.Bars
import Partwise.Proofs.Repeats.Flattening

/-!
# Repeats · Starts: which repeats begin with their start

A repeat is meant to begin with the barline that starts it: the one of the document where the
document opened it, and one that was made up where it did not. Not every repeat does. Whether a
start is made up is decided with the memory of the part, which has met all barlines of the part,
while the repeat that is closed belongs to a voice, which may have come in later; and the barline
that opened a repeat is put into its body only if that body is collected at all.

A `Ledger` follows the barlines that a voice takes and says of each repeat whether it has its start.
It knows nothing of the music between them. `Ledger.Tells.takeBarline` and `Ledger.Tells.endRepeats`
prove it right, one barline and one end of a part at a time.
-/

namespace Partwise

/-- The repeat begins with a start, which is one of the document exactly if the document opened the
repeat. -/
def Repeat.begins (r : Repeat) : Bool :=
  (firstBarline? r.body).any fun b => b.category = .repeatStart && b.isImplicit != r.explicitStart

/-! ## Ledgers -/

/-- How far the repeat has come that a voice collects. -/
inductive Stage where
  /-- There is none. -/
  | idle
  /-- It was opened by the document, and no part of its body has been put into it. -/
  | opened
  /-- It has its body, and the document opened it in this voice or not. -/
  | collecting (explicit : Bool)
  /-- The document opened it, and an ending took what should have been its body. -/
  | bodiless
deriving DecidableEq, Repr

namespace Stage

/-- The stage after the open chunk went into the repeat. -/
def gather : Stage → Stage
  | idle => collecting false
  | opened => collecting true
  | stage => stage

/-- The stage after the open chunk became an ending. -/
def addEnding : Stage → Stage
  | idle => collecting false
  | opened => bodiless
  | stage => stage

/-- Whether the repeat has its start when it is closed. The part may say that the document opened
it. -/
def verdict (explicitStart : Bool) : Stage → List Bool
  | idle => []
  | opened => [false]
  | collecting explicit => [explicit || !explicitStart]
  | bodiless => [false]

end Stage

/-- What the barlines that a voice took say about its repeats. -/
structure Ledger where
  stage : Stage := .idle
  /-- The open chunk is an ending. -/
  inEnding : Bool := false
  /-- Of each repeat that was closed, whether it begins with its start. -/
  begun : List Bool := []
deriving DecidableEq, Repr

namespace Ledger

/-- The open chunk goes into the repeat. -/
def gather (l : Ledger) : Ledger := { l with stage := l.stage.gather, inEnding := false }

/-- The open chunk becomes an ending. -/
def addEnding (l : Ledger) : Ledger := { l with stage := l.stage.addEnding, inEnding := false }

/-- The repeat is closed, if there is one. -/
def close (l : Ledger) (explicitStart : Bool) : Ledger :=
  { l with stage := .idle, begun := l.begun ++ l.stage.verdict explicitStart }

/-- The ledger after a barline. -/
def takeBarline (l : Ledger) (b : Barline) (explicitStart : Bool) : Ledger :=
  match b.category with
  | .standalone => l
  | .repeatStart => { l.close explicitStart with stage := .opened, inEnding := false }
  | .endingStart => { l.gather with inEnding := true }
  | .hookedEndingEnd =>
    if b.isBackward then l.addEnding else l.addEnding.close explicitStart
  | .hooklessEndingEnd => l.addEnding.close explicitStart
  | .repeatEnd => if l.inEnding then l.addEnding else l.gather.close explicitStart

/-- The ledger at the end of a part. -/
def endRepeats (l : Ledger) (explicitStart : Bool) : Ledger :=
  match l.stage with
  | .idle => { l with inEnding := false }
  | _ => l.gather.close explicitStart

end Ledger

/-! ## Ledgers and voices -/

/-- How the pending repeat stands and what the open chunk begins with. -/
def Stage.Fits : Stage → Option Repeat → Option Barline → Prop
  | idle, pending?, _ => pending? = none
  | opened, pending?, first? =>
    (∃ times?, pending? = some (.opened true times?)) ∧ ∃ b, first? = some b ∧ b.category = .repeatStart
  | collecting explicit, pending?, _ =>
    ∃ r, pending? = some r ∧ r.explicitStart = explicit ∧ (explicit = true → r.begins = true)
  | bodiless, pending?, _ =>
    ∃ r, pending? = some r ∧ r.explicitStart = true ∧ r.body = [] ∧ r.endings ≠ []

/-- The barline that a list begins with, if it begins with one, stands in the document. -/
def BeginsRead (es : List VoiceElement) : Prop :=
  ∀ b, firstBarline? es = some b → b.isImplicit = false

/-- The ledger is right about a voice. -/
structure Ledger.Tells (l : Ledger) (v : Voice) : Prop where
  begun : v.repeats.map Repeat.begins = l.begun
  stage : l.stage.Fits v.pending? (firstBarline? v.chunk)
  inEnding : v.inEnding = l.inEnding
  /-- The open chunk holds no repeat, and no start that was made up. -/
  plain : v.chunk.filterMap VoiceElement.repeat? = []
  read : BeginsRead v.chunk
  readBody : ∀ r, v.pending? = some r → BeginsRead r.body

/-- A list that goes on begins as before, or else with what comes next. -/
theorem BeginsRead.append {as bs : List VoiceElement} (ha : BeginsRead as) (hb : BeginsRead bs) :
    BeginsRead (as ++ bs) := by
  cases as with
  | nil => exact hb
  | cons a as => exact ha

/-- Where there is no element, no barline was made up. -/
theorem BeginsRead.nil : BeginsRead [] :=
  fun _ h => nomatch h

namespace Repeat

/-- A chunk that comes into a repeat leaves it as it is whether the repeat has an explicit start. -/
theorem explicitStart_extend (r : Repeat) (chunk : List VoiceElement) :
    (r.extend chunk).explicitStart = r.explicitStart := by
  unfold extend
  split <;> rfl

/-- Before the first ending a chunk goes behind the body, and later it leaves the body alone. -/
theorem body_extend (r : Repeat) (chunk : List VoiceElement) :
    (r.extend chunk).body = if r.endings.isEmpty then r.body ++ chunk else r.body := by
  unfold extend
  split <;> rfl

/-- How often a repeat is played makes no difference to what goes into it. -/
theorem extend_times (r : Repeat) (times? : Option Nat) (chunk : List VoiceElement) :
    ({ r with times? } : Repeat).extend chunk = { r.extend chunk with times? } := by
  unfold extend
  dsimp only
  split <;> rfl

/-- A repeat with endings keeps its body, and has endings still. -/
theorem extend_of_endings {r : Repeat} (h : r.endings ≠ []) (chunk : List VoiceElement) :
    (r.extend chunk).body = r.body ∧ (r.extend chunk).endings ≠ [] := by
  obtain ⟨body, endings, explicitStart, times?⟩ := r
  cases endings with
  | nil => exact absurd rfl h
  | cons ending endings =>
    refine ⟨rfl, ?_⟩
    cases endings <;> simp [extend, extendLastEnding]

/-- A repeat that begins with its start does so whatever comes into it. -/
theorem begins_extend {r : Repeat} {chunk : List VoiceElement} (h : r.begins = true) :
    (r.extend chunk).begins = true := by
  rw [begins, explicitStart_extend, body_extend]
  split
  · cases hbody : r.body with
    | nil => simp [begins, hbody, firstBarline?] at h
    | cons e es =>
      rw [begins, hbody] at h
      exact h
  · exact h

end Repeat

/-- A body that begins with what was read still does when a chunk comes into it that does. -/
theorem BeginsRead.extend {r : Repeat} {chunk : List VoiceElement} (hr : BeginsRead r.body)
    (hchunk : BeginsRead chunk) : BeginsRead (r.extend chunk).body := by
  rw [r.body_extend]
  split
  · exact hr.append hchunk
  · exact hr

namespace Stage.Fits

variable {stage : Stage} {r : Repeat} {first? : Option Barline}

/-- Where nothing is pending nothing has begun. -/
theorem eq_idle (h : stage.Fits none first?) : stage = .idle := by
  cases stage with
  | idle => rfl
  | opened => exact nomatch h.1
  | collecting => exact nomatch h
  | bodiless => exact nomatch h

/-- **The verdict** on a repeat that is closed: it is that of the repeat as it was collected, or
with the start that it is given. -/
theorem verdict_eq (h : stage.Fits (some r) first?) (hread : BeginsRead r.body)
    (explicitStart : Bool) (measure : String) :
    stage.verdict explicitStart =
      [(if explicitStart || r.explicitStart then r else r.withImplicitStart measure).begins] := by
  cases stage with
  | idle => exact nomatch h
  | opened =>
    obtain ⟨⟨times?, hr⟩, -⟩ := h
    cases hr
    simp [verdict, Repeat.opened, Repeat.begins, firstBarline?]
  | bodiless =>
    obtain ⟨_, hr, hexplicit, hbody, -⟩ := h
    cases hr
    simp [verdict, hexplicit, Repeat.begins, hbody, firstBarline?]
  | collecting explicit =>
    obtain ⟨_, hr, rfl, hbegins⟩ := h
    cases hr
    cases hown : r.explicitStart with
    | true => simp [verdict, hbegins hown]
    | false =>
      cases explicitStart with
      | true =>
        have hnot : r.begins = false := by
          unfold Repeat.begins
          cases hfirst : firstBarline? r.body with
          | none => rfl
          | some b => simp [hread b hfirst, hown]
        simp [verdict, hnot]
      | false =>
        simp [verdict, Repeat.begins, Repeat.withImplicitStart, hown, firstBarline?,
          VoiceElement.barline?, Barline.implicitRepeatStart]

/-- Where something is pending something has begun. -/
theorem ne_idle (h : stage.Fits (some r) first?) : stage ≠ .idle := by
  rintro rfl
  exact nomatch h

/-- A repeat with an ending has its body, or has lost it. -/
theorem gather_eq (h : stage.Fits (some r) first?) (hendings : r.endings ≠ []) :
    stage.gather = stage := by
  cases stage with
  | idle => exact nomatch h
  | opened =>
    obtain ⟨⟨times?, hr⟩, -⟩ := h
    cases hr
    exact absurd rfl hendings
  | collecting | bodiless => rfl

/-- What the open chunk begins with matters only before the body is collected. -/
theorem of_gather {pending? : Option Repeat} (h : stage.gather.Fits pending? first?)
    (other? : Option Barline) : stage.gather.Fits pending? other? := by
  cases stage <;> exact h

end Stage.Fits

namespace Ledger.Tells

variable {l : Ledger} {v w : Voice} {b : Barline}

/-- A ledger is right about all voices of which barlines have made the same. -/
theorem of_bars (h : l.Tells v) (hbars : w.bars = v.bars) : l.Tells w := by
  simp only [Voice.bars, Prod.mk.injEq] at hbars
  obtain ⟨helements, hpending, hrepeats, hfirst⟩ := hbars
  refine ⟨?_, ?_, ?_, ?_, ?_, ?_⟩
  · rw [← h.begun, Voice.repeats, Voice.repeats, helements]
  · rw [hpending, hfirst]
    exact h.stage
  · rw [← h.inEnding, Voice.inEnding, Voice.inEnding, hfirst]
  · rw [hrepeats]
    exact h.plain
  · rw [BeginsRead, hfirst]
    exact h.read
  · rw [hpending]
    exact h.readBody

/-- Nothing is known of a voice that just begins. -/
theorem empty (number staffNumber divisionsPerWhole : Nat) :
    ({} : Ledger).Tells (.empty number staffNumber divisionsPerWhole) :=
  ⟨rfl, rfl, rfl, rfl, .nil, fun _ h => (nomatch h)⟩

/-- The repeat that collects begins with a barline of the document, if with any. -/
theorem collecting_read (h : l.Tells v) : BeginsRead v.collecting.body := by
  unfold Voice.collecting
  cases hpending : v.pending? with
  | none => exact .nil
  | some r => exact h.readBody r hpending

/-- A barline that starts no ending comes into the open chunk. -/
theorem append_barline (h : l.Tells v) (hb : b.isImplicit = false) (hstart : b.category ≠ .endingStart) :
    l.Tells (v.append (.barline b)) := by
  refine ⟨h.begun, ?_, ?_, by simp [Voice.append, h.plain, VoiceElement.repeat?], ?_, h.readBody⟩
  · show l.stage.Fits v.pending? (firstBarline? (v.chunk ++ [.barline b]))
    have hstage := h.stage
    cases hl : l.stage with
    | opened =>
      rw [hl] at hstage
      obtain ⟨hpending, b', hfirst, hcategory⟩ := hstage
      refine ⟨hpending, b', ?_, hcategory⟩
      cases hc : v.chunk with
      | nil => rw [hc] at hfirst; cases hfirst
      | cons e es => rw [hc] at hfirst; exact hfirst
    | idle | collecting | bodiless => rw [hl] at hstage; exact hstage
  · rw [← h.inEnding]
    cases hc : v.chunk with
    | nil => simp [Voice.inEnding, Voice.append, hc, firstBarline?, VoiceElement.barline?, hstart]
    | cons e es => simp [Voice.inEnding, Voice.append, hc, firstBarline?]
  · refine h.read.append ?_
    intro b' hb'
    cases hb'
    exact hb

/-- The open chunk goes into the repeat. How often that is played makes no difference. -/
theorem gather (h : l.Tells v) {r : Repeat} (hbody : r.body = (v.collecting.extend v.chunk).body)
    (hendings : r.endings = (v.collecting.extend v.chunk).endings)
    (hexplicit : r.explicitStart = v.collecting.explicitStart) :
    l.gather.Tells { v with chunk := [], pending? := some r } := by
  refine ⟨h.begun, ?_, rfl, rfl, .nil, ?_⟩
  · have hstage := h.stage
    unfold Ledger.gather
    cases hl : l.stage with
    | idle =>
      rw [hl] at hstage
      have hnone : v.pending? = none := hstage
      refine ⟨r, rfl, ?_, fun hfalse => nomatch hfalse⟩
      rw [hexplicit, Voice.collecting, hnone]
      rfl
    | opened =>
      rw [hl] at hstage
      obtain ⟨⟨times?, hpending⟩, b, hfirst, hcategory⟩ := hstage
      have hopened : v.collecting = .opened true times? := by simp [Voice.collecting, hpending]
      rw [hopened] at hbody hexplicit
      have hchunk : r.body = v.chunk := hbody
      have hexplicit : r.explicitStart = true := hexplicit
      refine ⟨r, rfl, hexplicit, fun _ => ?_⟩
      simp [Repeat.begins, hchunk, hfirst, hcategory, h.read b hfirst, hexplicit]
    | collecting explicit =>
      rw [hl] at hstage
      obtain ⟨r', hpending, hown, hbegins⟩ := hstage
      have hr' : v.collecting = r' := by simp [Voice.collecting, hpending]
      rw [hr'] at hbody hexplicit
      refine ⟨r, rfl, hexplicit.trans hown, fun htrue => ?_⟩
      have hextended := @Repeat.begins_extend _ v.chunk (hbegins htrue)
      rw [Repeat.begins, Repeat.explicitStart_extend] at hextended
      rw [Repeat.begins, hbody, hexplicit]
      exact hextended
    | bodiless =>
      rw [hl] at hstage
      obtain ⟨r', hpending, hown, hnone, hsome⟩ := hstage
      have hr' : v.collecting = r' := by simp [Voice.collecting, hpending]
      rw [hr'] at hbody hendings hexplicit
      have hextended := Repeat.extend_of_endings hsome v.chunk
      exact ⟨r, rfl, hexplicit.trans hown, (hbody.trans hextended.1).trans hnone,
        hendings ▸ hextended.2⟩
  · intro r' hr'
    cases hr'
    rw [BeginsRead, hbody]
    exact h.collecting_read.extend h.read

/-- A ledger that gathers is right about a voice whose open chunk goes into the repeat. -/
theorem moveIntoRepeat (h : l.Tells v) : l.gather.Tells v.moveIntoRepeat :=
  h.gather rfl rfl (Repeat.explicitStart_extend _ _)

/-- A ledger with one ending more is right about a voice whose open chunk becomes an ending. -/
theorem closeEnding (h : l.Tells v) (closing : Barline) (kind : EndingKind) :
    l.addEnding.Tells (v.closeEnding closing kind) := by
  refine ⟨h.begun, ?_, rfl, rfl, .nil, ?_⟩
  · have hstage := h.stage
    unfold Ledger.addEnding
    cases hl : l.stage with
    | idle =>
      rw [hl] at hstage
      have hnone : v.pending? = none := hstage
      exact ⟨_, rfl, by rw [Voice.collecting, hnone]; rfl, fun hfalse => nomatch hfalse⟩
    | opened =>
      rw [hl] at hstage
      obtain ⟨⟨times?, hpending⟩, -⟩ := hstage
      refine ⟨_, rfl, ?_, ?_, by simp [Repeat.addEnding]⟩ <;>
        simp [Voice.collecting, hpending, Repeat.opened, Repeat.addEnding]
    | collecting explicit =>
      rw [hl] at hstage
      obtain ⟨r, hpending, hown, hbegins⟩ := hstage
      refine ⟨_, rfl, ?_, fun htrue => ?_⟩
      · simpa [Voice.collecting, hpending, Repeat.addEnding] using hown
      · simpa [Voice.collecting, hpending, Repeat.addEnding, Repeat.begins] using hbegins htrue
    | bodiless =>
      rw [hl] at hstage
      obtain ⟨r, hpending, hown, hnone, -⟩ := hstage
      refine ⟨_, rfl, ?_, ?_, by simp [Repeat.addEnding]⟩ <;>
        simpa [Voice.collecting, hpending, Repeat.addEnding]
  · intro r hr
    cases hr
    exact h.collecting_read

/-- The repeat is closed. If the document did not open it and the part knows that, it is given a
start. -/
theorem closeRepeat (h : l.Tells v) (explicitStart : Bool) (measure : String) :
    (l.close explicitStart).Tells (v.closeRepeat explicitStart measure).1 := by
  unfold Voice.closeRepeat Ledger.close
  cases hpending : v.pending? with
  | none =>
    have hidle := Stage.Fits.eq_idle (hpending ▸ h.stage)
    refine ⟨?_, hpending, h.inEnding, h.plain, h.read, h.readBody⟩
    simpa [hidle, Stage.verdict] using h.begun
  | some r =>
    refine ⟨?_, rfl, h.inEnding, h.plain, h.read, fun _ hnone => nomatch hnone⟩
    have hverdict := Stage.Fits.verdict_eq (hpending ▸ h.stage) (h.readBody r hpending)
      explicitStart measure
    simp [Voice.repeats, VoiceElement.repeat?, hverdict, ← h.begun]

/-- The open chunk is closed, and it is known what comes into the next one. -/
theorem flush (h : l.Tells v) (hidle : l.stage = .idle) :
    ({ l with inEnding := false } : Ledger).Tells v.flush := by
  refine ⟨?_, ?_, rfl, rfl, .nil, h.readBody⟩
  · simp [Voice.repeats, Voice.flush, h.plain, ← h.begun]
  · have hstage := h.stage
    rw [hidle] at hstage ⊢
    exact hstage

/-- **A barline** is taken by the voice and by its ledger. -/
theorem takeBarline (h : l.Tells v) (hb : b.isImplicit = false) (explicitStart : Bool)
    (measure : String) :
    (l.takeBarline b explicitStart).Tells (v.takeBarline b explicitStart measure).1 := by
  have hbegins : BeginsRead [.barline b] := by
    intro b' hb'
    cases hb'
    exact hb
  unfold Ledger.takeBarline Voice.takeBarline
  cases hc : b.category with
  | standalone => exact h.append_barline hb (by simp [hc])
  | repeatStart =>
    have hclosed := h.closeRepeat explicitStart measure
    refine ⟨?_, ⟨⟨b.repeatTimes?, rfl⟩, b, rfl, hc⟩, ?_, rfl, hbegins, ?_⟩
    · exact (hclosed.flush rfl).begun
    · simp [Voice.inEnding, firstBarline?, VoiceElement.barline?, hc]
    · intro r hr
      cases hr
      exact .nil
  | endingStart =>
    have hmoved := h.moveIntoRepeat
    refine ⟨hmoved.begun, ?_, ?_, rfl, hbegins, hmoved.readBody⟩
    · exact hmoved.stage.of_gather _
    · simp [Voice.inEnding, firstBarline?, VoiceElement.barline?, hc]
  | hookedEndingEnd =>
    have hended := (h.append_barline hb (by simp [hc])).closeEnding b .hooked
    dsimp only
    split
    · exact hended
    · exact hended.closeRepeat explicitStart measure
  | hooklessEndingEnd =>
    exact ((h.append_barline hb (by simp [hc])).closeEnding b .hookless).closeRepeat
      explicitStart measure
  | repeatEnd =>
    have happended := h.append_barline hb (by simp [hc])
    dsimp only
    rw [h.inEnding]
    split
    · exact happended.closeEnding b .hooked
    · have htimes := Repeat.extend_times v.collecting (v.collecting.times?.or b.repeatTimes?)
        (v.append (.barline b)).chunk
      refine Ledger.Tells.closeRepeat (happended.gather ?_ ?_ ?_) explicitStart measure
      · exact (congrArg Repeat.body htimes :)
      · exact (congrArg Repeat.endings htimes :)
      · exact Repeat.explicitStart_extend _ _

/-- **The end of a part** comes to the voice and to its ledger. -/
theorem endRepeats (h : l.Tells v) (explicitStart : Bool) (measure : String) :
    (l.endRepeats explicitStart).Tells (v.endRepeats explicitStart measure).1.flush := by
  unfold Voice.endRepeats
  cases hpending : v.pending? with
  | none =>
    have hidle := Stage.Fits.eq_idle (hpending ▸ h.stage)
    have hend : l.endRepeats explicitStart = { l with inEnding := false } := by
      simp [Ledger.endRepeats, hidle]
    rw [hend]
    exact h.flush hidle
  | some r =>
    have hfits : l.stage.Fits (some r) (firstBarline? v.chunk) := hpending ▸ h.stage
    have hend : l.endRepeats explicitStart = l.gather.close explicitStart := by
      unfold Ledger.endRepeats
      split
      · next hidle => exact absurd hidle hfits.ne_idle
      · rfl
    rw [hend]
    dsimp only
    split
    · exact (h.moveIntoRepeat.closeRepeat explicitStart measure).flush rfl
    · next hendings =>
      have hclosed := (h.closeRepeat explicitStart measure).flush rfl
      have hgathered := hfits.gather_eq (by simpa using hendings)
      unfold Ledger.gather Ledger.close
      rw [hgathered]
      exact hclosed

end Ledger.Tells

end Partwise
