import Partwise.Proofs.Music.Conservation
import Partwise.Proofs.Repeats.Barlines

/-!
# Repeats · Accounts: which repeats of a score begin with their start

An `Account` of a voice is kept over the moments of a document. It knows the barlines and nothing of
the music: which starts the part has met, and from the barlines that came to this voice, its ledger.
`Document.begins_eq` says that it is right: the repeats of a voice of the score are told by the
account, one by one and in their order.

So the two ways are known in which a repeat comes to be without its start. Either the voice came in
after the barline that opened the repeat, or a start that the part met before is still unmatched:
then the part says that the document opened the repeat, and the voice has nothing to show for it. Or
a barline ends the repeat in the voice before its body was collected. `Document.lateVoice_begins` is
a document of the first kind.
-/

namespace Partwise

open Markup

variable {settings : Settings} {r s t : Reading} {ms : List Moment} {m : Moment} {id : String}
  {key : VoiceKey}

/-! ## Accounts -/

/-- The barline that a move reads. -/
def Move.barline? (r : Reading) : Move → Option Barline
  | leaf e =>
    if e.name = "barline" then result (Barline.ofElement e r.passage.measureNumber) else none
  | enterPart _ | leavePart _ | enterMeasure _ | leaveMeasure _ | leavePartList _ => none

/-- What happens to all voices of the part happens to this voice. -/
def Moment.reaches (m : Moment) (id : String) (key : VoiceKey) : Bool :=
  m.before.partId? = some id && m.after.hasVoice id key

/-- What is followed of a voice through a document. -/
structure Account where
  /-- The starts of repeats and endings that the part has met and that nothing has ended yet. -/
  markers : List BarlineCategory := []
  ledger : Ledger := {}
deriving DecidableEq, Repr

namespace Account

/-- The account after a moment. -/
def step (id : String) (key : VoiceKey) (a : Account) (m : Moment) : Account :=
  match m.move with
  | .enterPart _ => { a with markers := [] }
  | .leavePart _ =>
    { markers := []
      ledger :=
        if m.reaches id key then a.ledger.endRepeats (a.markers.contains .repeatStart)
        else a.ledger }
  | move =>
    match move.barline? m.before with
    | none => a
    | some b =>
      { markers := (passMarkers b a.markers).1
        ledger :=
          if m.reaches id key then a.ledger.takeBarline b (passMarkers b a.markers).2
          else a.ledger }

/-- The account after all moments of a document. -/
def run (id : String) (key : VoiceKey) (ms : List Moment) : Account :=
  ms.foldl (step id key) {}

/-- The account is right about a voice of the reading. -/
structure Tells (a : Account) (id : String) (key : VoiceKey) (r : Reading) : Prop where
  markers : r.passage.markers = a.markers
  ledger : a.ledger.Tells (r.voiceOf id key)
  atTop : (r.voiceOf id key).RepeatsAtTop

end Account

/-- Where barlines have made the same of two voices, their repeats stand in the same places. -/
theorem Voice.RepeatsAtTop.of_bars {v w : Voice} (h : v.RepeatsAtTop) (hbars : w.bars = v.bars) :
    w.RepeatsAtTop := by
  simp only [Voice.bars, Prod.mk.injEq] at hbars
  obtain ⟨helements, hpending, hrepeats, -⟩ := hbars
  refine ⟨helements ▸ h.elements, hpending ▸ h.pending, ?_⟩
  have hnone := List.filterMap_eq_nil_iff.mpr h.chunk
  exact List.filterMap_eq_nil_iff.mp (hrepeats.trans hnone)

/-- A voice after all voices of a part have changed. -/
theorem Barred.voiceOf {f : Voice → Voice} {id' : String} (h : Barred f id' r s) (id : String)
    (key : VoiceKey) : s.voiceOf id key =
      if id' = id ∧ s.hasVoice id key = true then f (r.voiceOf id key) else r.voiceOf id key := by
  by_cases hid : id' = id
  · subst hid
    cases hthere : s.hasVoice id' key with
    | true => simpa using h.there key hthere
    | false => simpa using h.absent key hthere
  · rw [if_neg fun hboth => hid hboth.1]
    exact h.others id key (Ne.symm hid)

namespace Account.Tells

variable {a : Account}

/-- Between barlines the account stays as it is. -/
theorem unbarred (h : a.Tells id key r) (hquiet : Unbarred r s) : a.Tells id key s :=
  ⟨hquiet.markers.trans h.markers, h.ledger.of_bars (hquiet.bars id key),
    h.atTop.of_bars (hquiet.bars id key)⟩

/-- An account without markers is right about a voice once its part is entered. -/
theorem enterPart (h : a.Tells id key r) {e : Element}
    (hrun : Ends (Partwise.enterPart e) r () s) :
    ({ a with markers := [] } : Account).Tells id key s := by
  obtain ⟨_, _, hget, hrest₁⟩ := hrun.bind
  obtain ⟨rfl, rfl⟩ := hget.get
  split at hrest₁
  · obtain ⟨_, r₁, htell, hset⟩ := hrest₁.bind
    cases htell.tell
    have hs := hset.modify
    subst hs
    exact ⟨rfl, h.ledger, h.atTop⟩
  · exact absurd hrest₁ not_ends_throw

/-- A moment changes all voices of a part, and the account follows. -/
theorem barred (h : a.Tells id key r) {f : Voice → Voice} {id' : String} {l : Ledger}
    {markers : List BarlineCategory} {move : Move} (hid' : r.partId? = some id')
    (hready : Unbarred r t) (hbarred : Barred f id' t s) (hmarkers : s.passage.markers = markers)
    (hledger : ∀ v, a.ledger.Tells v → l.Tells (f v))
    (hatTop : ∀ v : Voice, v.RepeatsAtTop → (f v).RepeatsAtTop) :
    Account.Tells { markers, ledger := if Moment.reaches ⟨r, move, s⟩ id key then l else a.ledger }
      id key s := by
  obtain ⟨-, hread, htop⟩ := h.unbarred hready
  have hvoice := hbarred.voiceOf id key
  have hreaches : Moment.reaches ⟨r, move, s⟩ id key = true ↔
      id' = id ∧ s.hasVoice id key = true := by
    simp [Moment.reaches, hid']
  refine ⟨hmarkers, ?_, ?_⟩
  · by_cases hhere : id' = id ∧ s.hasVoice id key = true
    · rw [hvoice, if_pos hhere]
      rw [if_pos (hreaches.mpr hhere)]
      exact hledger _ hread
    · rw [hvoice, if_neg hhere]
      rw [if_neg fun hreached => hhere (hreaches.mp hreached)]
      exact hread
  · rw [hvoice]
    split
    · exact hatTop _ htop
    · exact htop

/-- **Every moment** is followed by the account. -/
theorem step (h : a.Tells id key m.before)
    (hstep : Ends (m.move.perform settings) m.before () m.after) :
    (a.step id key m).Tells id key m.after := by
  obtain ⟨before, move, after⟩ := m
  cases move with
  | enterPart e => exact h.enterPart hstep
  | leavePart e =>
    obtain ⟨id', t, measure, hid', -, hready, hmarkers, hbarred⟩ := Barred.leavePart hstep
    rw [h.markers] at hbarred
    exact h.barred hid' hready hbarred hmarkers (fun v hv => hv.endRepeats _ measure)
      fun v hv => (hv.endRepeats _ measure).flush
  | enterMeasure e => exact h.unbarred (Unbarred.discipline.enterMeasure hstep)
  | leaveMeasure e => exact h.unbarred (Unbarred.leaveMeasure hstep)
  | leavePartList line => exact h.unbarred (.of_sameMusic (.closeGroups hstep))
  | leaf e =>
    have hread : Ends (readLeaf settings e) before () after := hstep
    by_cases hname : e.name = "barline"
    · simp only [readLeaf, hname] at hread
      obtain ⟨b, id', t, hgives, hid', -, hready, hmarkers, hbarred⟩ := Barred.readBarline hread
      have hbarline : Move.barline? before (.leaf e) = some b := by
        simp [Move.barline?, hname, hgives.result (Barline.steady e _)]
      rw [h.markers] at hmarkers hbarred
      simp only [Account.step, hbarline]
      exact h.barred hid' hready hbarred hmarkers
        (fun v hv => hv.takeBarline (Barline.isImplicit_ofElement hgives) _ _)
        fun v hv => hv.takeBarline b _ _
    · have hnone : Move.barline? before (.leaf e) = none := by simp [Move.barline?, hname]
      simp only [Account.step, hnone]
      exact h.unbarred (.readLeaf hname hread)

/-- All moments of a document are followed by the account. -/
theorem run (h : a.Tells id key r) (hfollows : Follows settings r ms s) :
    (ms.foldl (Account.step id key) a).Tells id key s := by
  induction hfollows generalizing a with
  | nil => exact h
  | cons hstep _ ih => exact ih (h.step hstep)

/-- Before a document nothing is known, and nothing has happened. -/
theorem start (id : String) (key : VoiceKey) : ({} : Account).Tells id key {} :=
  ⟨rfl, .empty _ _ _, .empty _ _ _⟩

end Account.Tells

/-! ## Documents -/

/-- **Which repeats begin with their start.** The repeats of a voice of the score stand at the top
level of its content, and of each of them the account tells whether it begins with its start. -/
theorem Document.begins_eq {root : Element} {score : Score} {part : Part} {voice : Voice}
    (h : (Document.read settings root).score = .ok score) (hpart : part ∈ score.parts)
    (hvoice : voice ∈ part.voices) :
    voice.RepeatsAtTop ∧ voice.repeats.map Repeat.begins =
      (Account.run part.id voice.key (trail settings root)).ledger.begun := by
  obtain ⟨last, hfollows, -, hcomplete, -⟩ := Document.follows_unfolds h
  obtain ⟨-, hledger, hatTop⟩ := (Account.Tells.start part.id voice.key).run hfollows
  have hlast : last.voiceOf part.id voice.key = voice := by
    simp [Reading.voiceOf, hcomplete.partOf hpart, Part.voiceOrEmpty,
      hcomplete.voice? hpart hvoice]
  rw [hlast] at hledger hatTop
  exact ⟨hatTop, hledger.begun⟩

/-- A barline on a side of its measure, with a repeat that points in a direction. -/
def barlineElement (location direction : String) : Element :=
  { name := "barline"
    attributes := [("location", location)]
    children := [{ name := "repeat", attributes := [("direction", direction)] }] }

/-- A voice comes in after the barline that opens the repeat. -/
def lateVoice : Element :=
  singleMeasure [barlineElement "left" "forward", noteElement 1 "C" "1" "4" [], backupElement "4",
    noteElement 2 "E" "2" "4" [], barlineElement "right" "backward"]

/-- The part has met the start of the repeat and the first voice has it. The second voice has not,
and is given none: its repeat begins with its note, although nothing of it says that the document
opened it. -/
theorem Document.startless_lateVoice : ∃ score, ∃ part ∈ score.parts, ∃ voice ∈ part.voices,
    ∃ r ∈ voice.repeats, (Document.read {} lateVoice).score = .ok score ∧ voice.key = ⟨1, 2⟩ ∧
      r.explicitStart = false ∧ firstBarline? r.body = none ∧ r.begins = false := by
  have hthere : hasVoice lateVoice "P" ⟨1, 2⟩ (fun voice => voice.repeats.any fun r =>
      r.explicitStart = false ∧ firstBarline? r.body = none) = true := by
    decide +kernel
  obtain ⟨score, part, hpart, voice, hvoice, hread, _, hkey, hholds⟩ := exists_voice hthere
  obtain ⟨r, hr, hboth⟩ := List.any_eq_true.mp hholds
  obtain ⟨hexplicit, hfirst⟩ := of_decide_eq_true hboth
  exact ⟨score, part, hpart, voice, hvoice, r, hr, hread, hkey, hexplicit, hfirst,
    by simp [Repeat.begins, hfirst]⟩

/-- The repeat of the first voice begins with its start, that of the second voice does not. -/
theorem Document.begins_eq_lateVoice : ∃ score, (Document.read {} lateVoice).score = .ok score ∧
    (∃ part ∈ score.parts, ∃ voice ∈ part.voices, voice.key = ⟨1, 1⟩ ∧
      voice.repeats.map Repeat.begins = [true]) ∧
    ∃ part ∈ score.parts, ∃ voice ∈ part.voices, voice.key = ⟨1, 2⟩ ∧
      voice.repeats.map Repeat.begins = [false] := by
  have hfirst : hasVoice lateVoice "P" ⟨1, 1⟩ (fun _ => true) = true := by decide +kernel
  have hsecond : hasVoice lateVoice "P" ⟨1, 2⟩ (fun _ => true) = true := by decide +kernel
  obtain ⟨score, part, hpart, voice, hvoice, hread, hid, hkey, _⟩ := exists_voice hfirst
  obtain ⟨score', part', hpart', voice', hvoice', hread', hid', hkey', _⟩ := exists_voice hsecond
  cases hread.symm.trans hread'
  refine ⟨score, hread, ⟨part, hpart, voice, hvoice, hkey, ?_⟩, part', hpart', voice', hvoice',
    hkey', ?_⟩
  · rw [(Document.begins_eq hread hpart hvoice).2, hid, hkey]
    decide +kernel
  · rw [(Document.begins_eq hread hpart' hvoice').2, hid', hkey']
    decide +kernel

end Partwise
