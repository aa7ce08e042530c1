import Partwise.Voice.Repeats

/-!
# Repeats · Flattening: barlines move music about and lose none of it

A barline takes what has come since the last boundary of a repeat and puts it into the body of the
pending repeat, into one of its endings, or among the closed content. `played` is content in the
order of the music without the starts that repeats were given, so two readings of the same music
can be compared however its repeats were cut.

* `Voice.played_takeBarline`, `Voice.played_endRepeats`: one barline adds itself at the end and
  changes nothing else; the end of a part changes nothing at all.
* `VoiceEvent.played_run`: after any run the flattening of a voice is what arrived, in the order it
  arrived in; repeats stand at the top level of the closed content only, and the end of a part
  leaves neither a pending repeat nor an open chunk.

The proof follows the three places that content can stand in: `Voice.flatten_eq` takes a flattening
apart into them, and each boundary is an equation between such flattenings.
-/

namespace Partwise

/-! ## Flattening, place by place -/

/-- The flattening of two lists is that of the first and then that of the second. -/
@[simp] theorem flattenElements_append (as bs : List VoiceElement) :
    flattenElements (as ++ bs) = flattenElements as ++ flattenElements bs := by
  induction as with
  | nil => rfl
  | cons a as ih => simp [flattenElements, ih]

/-- The first ending is flattened first. -/
@[simp] theorem flattenEndings_cons (ending : Ending) (endings : List Ending) :
    flattenEndings (ending :: endings) =
      flattenElements ending.chunk ++ flattenEndings endings := by
  cases ending
  rfl

/-- Endings are flattened one after the other. -/
@[simp] theorem flattenEndings_append (as bs : List Ending) :
    flattenEndings (as ++ bs) = flattenEndings as ++ flattenEndings bs := by
  induction as with
  | nil => rfl
  | cons a as ih => simp [ih]

/-- A repeat is its body and then its endings. -/
theorem Repeat.flatten_eq (r : Repeat) :
    r.flatten = flattenElements r.body ++ flattenEndings r.endings := by
  cases r
  rfl

/-- A chunk behind the last ending is flattened behind all endings, if there is an ending. -/
theorem flattenEndings_extendLastEnding (chunk : List VoiceElement) {endings : List Ending}
    (h : endings ≠ []) :
    flattenEndings (extendLastEnding chunk endings) =
      flattenEndings endings ++ flattenElements chunk := by
  induction endings with
  | nil => exact absurd rfl h
  | cons ending rest ih =>
    cases rest with
    | nil => simp [extendLastEnding, flattenEndings]
    | cons next rest => simp [extendLastEnding, ih]

namespace Repeat

/-- Extending a repeat puts the chunk behind its flattening. -/
theorem flatten_extend (r : Repeat) (chunk : List VoiceElement) :
    (r.extend chunk).flatten = r.flatten ++ flattenElements chunk := by
  unfold extend
  split
  · next h =>
    have hnone : r.endings = [] := List.isEmpty_iff.mp h
    simp [flatten_eq, hnone, flattenEndings]
  · next h =>
    have hsome : r.endings ≠ [] := fun he => h (by simp [he])
    simp [flatten_eq, flattenEndings_extendLastEnding chunk hsome]

/-- A new ending is flattened behind the ones before it. -/
theorem flatten_addEnding (r : Repeat) (ending : Ending) :
    (r.addEnding ending).flatten = r.flatten ++ flattenElements ending.chunk := by
  simp [flatten_eq, addEnding, flattenEndings]

/-- A repeat that was just opened holds nothing. -/
@[simp] theorem flatten_opened (explicitStart : Bool) (times? : Option Nat) :
    (opened explicitStart times?).flatten = [] := rfl

end Repeat

namespace Voice

/-- The flattening of what is pending. -/
def pendingFlat (v : Voice) : List VoiceElement :=
  v.pending?.elim [] Repeat.flatten

/-- A flattening is that of the closed content, of the pending repeat and of the open chunk. -/
theorem flatten_eq (v : Voice) :
    v.flatten = flattenElements v.elements ++ v.pendingFlat ++ flattenElements v.chunk := by
  unfold flatten pendingFlat
  cases v.pending? <;> simp [flattenElements, VoiceElement.flatten]

/-- The repeat that collects holds what is pending. -/
theorem flatten_collecting (v : Voice) : v.collecting.flatten = v.pendingFlat := by
  unfold collecting pendingFlat
  cases v.pending? <;> simp

end Voice

/-! ## What is played -/

namespace VoiceElement

/-- The element is the start of a repeat that the document does not have. -/
def isImplicit : VoiceElement → Bool
  | barline b => b.isImplicit
  | _ => false

end VoiceElement

/-- Content without the starts that the document does not have. -/
def played (es : List VoiceElement) : List VoiceElement :=
  es.filter fun e => !e.isImplicit

/-- What is played of two lists is played of one after the other. -/
@[simp] theorem played_append (as bs : List VoiceElement) :
    played (as ++ bs) = played as ++ played bs :=
  List.filter_append ..

/-- A start that the document does not have is not played. -/
theorem Repeat.played_withImplicitStart (r : Repeat) (measure : String) :
    played (r.withImplicitStart measure).flatten = played r.flatten := by
  simp [withImplicitStart, flatten_eq, flattenElements, VoiceElement.flatten, played,
    VoiceElement.isImplicit, Barline.implicitRepeatStart]

namespace Voice

/-- An element at the end is played at the end. -/
theorem flatten_append (v : Voice) (e : VoiceElement) :
    (v.append e).flatten = v.flatten ++ e.flatten := by
  simp [flatten_eq, append, pendingFlat, flattenElements]

/-- The open chunk may go into the pending repeat. -/
theorem flatten_moveIntoRepeat (v : Voice) : v.moveIntoRepeat.flatten = v.flatten := by
  simp [flatten_eq, moveIntoRepeat, pendingFlat, Repeat.flatten_extend, flattenElements,
    flatten_collecting v]

/-- The open chunk may become an ending. -/
theorem flatten_closeEnding (v : Voice) (closing : Barline) (kind : EndingKind) :
    (v.closeEnding closing kind).flatten = v.flatten := by
  simp [flatten_eq, closeEnding, pendingFlat, Repeat.flatten_addEnding, flattenElements,
    flatten_collecting v]

/-- A repeat that is closed is played where it was pending. -/
theorem played_closeRepeat (v : Voice) (explicitStart : Bool) (measure : String) :
    played (v.closeRepeat explicitStart measure).1.flatten = played v.flatten := by
  unfold closeRepeat
  cases h : v.pending? with
  | none => rfl
  | some r =>
    have hcomplete : ∀ r' : Repeat, played r'.flatten = played r.flatten →
        played (flatten { v with elements := v.elements ++ [.repeated r'], pending? := none }) =
          played v.flatten := by
      intro r' hr
      simp [flatten_eq, pendingFlat, h, flattenElements, VoiceElement.flatten, hr]
    dsimp only
    split
    · exact hcomplete r rfl
    · exact hcomplete _ (r.played_withImplicitStart measure)

/-- After a repeat is closed none is pending. -/
@[simp] theorem pending?_closeRepeat (v : Voice) (explicitStart : Bool) (measure : String) :
    (v.closeRepeat explicitStart measure).1.pending? = none := by
  unfold closeRepeat
  split
  · assumption
  · rfl

/-- Where nothing is pending, the open chunk may become closed content. -/
theorem flatten_flush (v : Voice) (h : v.pending? = none) : v.flush.flatten = v.flatten := by
  simp [flatten_eq, flush, pendingFlat, h, flattenElements]

/-- **One barline**: it is played behind everything that was there, and that is left as it was. -/
theorem played_takeBarline (v : Voice) (b : Barline) (explicitStart : Bool) (measure : String) :
    played (v.takeBarline b explicitStart measure).1.flatten =
      played v.flatten ++ played [.barline b] := by
  have happend : ∀ w : Voice, (w.append (.barline b)).flatten = w.flatten ++ [.barline b] :=
    fun w => w.flatten_append _
  unfold takeBarline
  cases hc : b.category with
  | standalone => simp [happend]
  | repeatStart =>
    have hflush := flatten_flush _ (v.pending?_closeRepeat explicitStart measure)
    rw [← v.played_closeRepeat explicitStart measure, ← hflush]
    simp [flatten_eq, flush, pendingFlat, flattenElements, VoiceElement.flatten]
  | endingStart =>
    have hmove : v.moveIntoRepeat.chunk = [] := rfl
    rw [← v.flatten_moveIntoRepeat]
    simp only [flatten_eq, hmove, pendingFlat]
    simp [flattenElements, VoiceElement.flatten]
  | hookedEndingEnd =>
    dsimp only
    split
    · rw [flatten_closeEnding, happend, played_append]
    · rw [played_closeRepeat, flatten_closeEnding, happend, played_append]
  | hooklessEndingEnd =>
    dsimp only
    rw [played_closeRepeat, flatten_closeEnding, happend, played_append]
  | repeatEnd =>
    dsimp only
    split
    · rw [flatten_closeEnding, happend, played_append]
    · rw [played_closeRepeat, flatten_moveIntoRepeat, happend, played_append]
      -- the repeat that counts its rounds holds what the collecting one held
      have hheld := v.flatten_collecting
      simp only [Repeat.flatten_eq] at hheld
      simp only [flatten_eq, pendingFlat, Option.elim_some, Repeat.flatten_eq, hheld]

/-- **The end of a part** leaves what is played as it was. -/
theorem played_endRepeats (v : Voice) (explicitStart : Bool) (measure : String) :
    played (v.endRepeats explicitStart measure).1.flatten = played v.flatten := by
  unfold endRepeats
  split
  · rfl
  · rw [played_closeRepeat]
    split
    · rw [flatten_moveIntoRepeat]
    · rfl

/-- After the end of a part no repeat is pending. -/
@[simp] theorem pending?_endRepeats (v : Voice) (explicitStart : Bool) (measure : String) :
    (v.endRepeats explicitStart measure).1.pending? = none := by
  unfold endRepeats
  split
  · assumption
  · exact pending?_closeRepeat ..

end Voice

/-! ## Runs -/

/-- What can happen to a voice: an element arrives, a barline of its part is taken, or the part
ends. What a barline and the end of a part are told besides is whether the document opened the
repeat, and the measure. -/
inductive VoiceEvent where
  | element (e : VoiceElement)
  | barline (b : Barline) (explicitStart : Bool) (measure : String)
  | partEnd (explicitStart : Bool) (measure : String)

namespace VoiceEvent

/-- The voice after an event. -/
def apply (v : Voice) : VoiceEvent → Voice
  | element e => v.append e
  | barline b explicitStart measure => (v.takeBarline b explicitStart measure).1
  | partEnd explicitStart measure => (v.endRepeats explicitStart measure).1.flush

/-- What arrives with an event. -/
def arrived : VoiceEvent → List VoiceElement
  | element e => [e]
  | barline b _ _ => [.barline b]
  | partEnd _ _ => []

/-- The event is one that a document can cause: repeats are never read but built, barlines come by
their own event, and no barline that is read is an implicit one. -/
def Genuine : VoiceEvent → Prop
  | element e => e.repeat? = none ∧ e.barline? = none
  | barline b _ _ => b.isImplicit = false
  | partEnd _ _ => True

/-- What arrives is played as it is. -/
theorem Genuine.played_arrived {event : VoiceEvent} (h : event.Genuine) :
    played event.arrived = event.arrived := by
  cases event with
  | element e => cases e <;> simp_all [Genuine, arrived, played, VoiceElement.isImplicit,
      VoiceElement.barline?]
  | barline b _ _ =>
    have hb : b.isImplicit = false := h
    simp [arrived, played, VoiceElement.isImplicit, hb]
  | partEnd _ _ => rfl

/-- What arrives is no repeat, so it flattens to itself. -/
theorem Genuine.flatten_element {e : VoiceElement} (h : (element e).Genuine) :
    e.flatten = [e] := by
  cases e <;> simp_all [Genuine, VoiceElement.flatten, VoiceElement.repeat?]

/-- One event adds what arrives and leaves all else as it was. -/
theorem Genuine.played_apply {event : VoiceEvent} (h : event.Genuine) (v : Voice) :
    played (event.apply v).flatten = played v.flatten ++ event.arrived := by
  rw [← h.played_arrived]
  cases event with
  | element e =>
    rw [apply, Voice.flatten_append, h.flatten_element, played_append]
    rfl
  | barline b explicitStart measure => exact v.played_takeBarline b explicitStart measure
  | partEnd explicitStart measure =>
    rw [apply, Voice.flatten_flush _ (v.pending?_endRepeats explicitStart measure),
      Voice.played_endRepeats]
    simp [arrived, played]

end VoiceEvent

/-! ## Repeats stand at the top -/

/-- None of the elements is a repeat. -/
def NoRepeats (es : List VoiceElement) : Prop :=
  ∀ e ∈ es, e.repeat? = none

/-- The repeat holds no repeat, neither in its body nor in an ending. -/
structure Repeat.Shallow (r : Repeat) : Prop where
  body : NoRepeats r.body
  endings : ∀ ending ∈ r.endings, NoRepeats ending.chunk

/-- Repeats stand at the top level of the closed content and nowhere else. -/
structure Voice.RepeatsAtTop (v : Voice) : Prop where
  elements : ∀ e ∈ v.elements, ∀ r, e = .repeated r → r.Shallow
  pending : ∀ r, v.pending? = some r → r.Shallow
  chunk : NoRepeats v.chunk

/-- Elements without repeats stay so next to others. -/
theorem NoRepeats.append {as bs : List VoiceElement} (ha : NoRepeats as) (hb : NoRepeats bs) :
    NoRepeats (as ++ bs) := by
  intro e he
  rcases List.mem_append.mp he with he | he
  · exact ha e he
  · exact hb e he

/-- A single element that is no repeat has none. -/
theorem NoRepeats.singleton {e : VoiceElement} (h : e.repeat? = none) : NoRepeats [e] := by
  intro x hx
  rwa [List.mem_singleton.mp hx]

/-- A chunk without repeats keeps the endings without repeats. -/
theorem shallow_extendLastEnding {chunk : List VoiceElement} (hchunk : NoRepeats chunk)
    {endings : List Ending} (h : ∀ ending ∈ endings, NoRepeats ending.chunk) :
    ∀ ending ∈ extendLastEnding chunk endings, NoRepeats ending.chunk := by
  induction endings with
  | nil => simp [extendLastEnding]
  | cons first rest ih =>
    have hfirst := h first List.mem_cons_self
    have hrest := ih fun ending he => h ending (List.mem_cons_of_mem _ he)
    cases rest with
    | nil =>
      intro ending he
      rw [List.mem_singleton.mp he]
      exact hfirst.append hchunk
    | cons next rest =>
      intro ending he
      rcases List.mem_cons.mp he with rfl | he
      · exact hfirst
      · exact hrest ending he

namespace Repeat.Shallow

/-- A repeat that begins has no repeats in it. -/
theorem opened (explicitStart : Bool) (times? : Option Nat) :
    (Repeat.opened explicitStart times?).Shallow :=
  ⟨by simp [Repeat.opened, NoRepeats], by simp [Repeat.opened]⟩

/-- A repeat has no repeats in it if the elements that come to it have none. -/
theorem extend {r : Repeat} (h : r.Shallow) {chunk : List VoiceElement} (hc : NoRepeats chunk) :
    (r.extend chunk).Shallow := by
  unfold Repeat.extend
  split
  · exact ⟨h.body.append hc, h.endings⟩
  · exact ⟨h.body, shallow_extendLastEnding hc h.endings⟩

/-- A repeat has no repeats in it if the ending that comes to it has none. -/
theorem addEnding {r : Repeat} (h : r.Shallow) {ending : Ending} (hc : NoRepeats ending.chunk) :
    (r.addEnding ending).Shallow := by
  refine ⟨h.body, ?_⟩
  intro x hx
  rcases List.mem_append.mp hx with hx | hx
  · exact h.endings x hx
  · rwa [List.mem_singleton.mp hx]

/-- A start that was made up leaves the repeat without repeats in it. -/
theorem withImplicitStart {r : Repeat} (h : r.Shallow) (measure : String) :
    (r.withImplicitStart measure).Shallow :=
  ⟨(NoRepeats.singleton (by rfl)).append h.body, h.endings⟩

end Repeat.Shallow

namespace Voice.RepeatsAtTop

variable {v : Voice}

/-- A new voice has no repeats at all. -/
theorem empty (number staffNumber divisionsPerWhole : Nat) :
    (Voice.empty number staffNumber divisionsPerWhole).RepeatsAtTop :=
  ⟨by simp [Voice.empty], by simp [Voice.empty], by simp [Voice.empty, NoRepeats]⟩

/-- A voice has repeats only at the top if an element comes to it that is no repeat. -/
theorem append (h : v.RepeatsAtTop) {e : VoiceElement} (he : e.repeat? = none) :
    (v.append e).RepeatsAtTop :=
  ⟨h.elements, h.pending, h.chunk.append (NoRepeats.singleton he)⟩

/-- A voice has repeats only at the top if it begins to collect anew with an element that is no
repeat. -/
theorem restart (h : v.RepeatsAtTop) {e : VoiceElement} (he : e.repeat? = none) :
    Voice.RepeatsAtTop { v with chunk := [e] } :=
  ⟨h.elements, h.pending, NoRepeats.singleton he⟩

/-- The repeat that is being collected has no repeats in it. -/
theorem collecting (h : v.RepeatsAtTop) : v.collecting.Shallow := by
  unfold Voice.collecting
  cases hp : v.pending? with
  | none => exact Repeat.Shallow.opened ..
  | some r => exact h.pending r hp

/-- That the waiting elements come into a repeat leaves repeats only at the top. -/
theorem moveIntoRepeat (h : v.RepeatsAtTop) : v.moveIntoRepeat.RepeatsAtTop := by
  refine ⟨h.elements, ?_, by simp [Voice.moveIntoRepeat, NoRepeats]⟩
  intro r hr
  cases hr
  exact h.collecting.extend h.chunk

/-- That an ending is closed leaves repeats only at the top. -/
theorem closeEnding (h : v.RepeatsAtTop) (closing : Barline) (kind : EndingKind) :
    (v.closeEnding closing kind).RepeatsAtTop := by
  refine ⟨h.elements, ?_, by simp [Voice.closeEnding, NoRepeats]⟩
  intro r hr
  cases hr
  exact h.collecting.addEnding h.chunk

/-- A repeat that is closed goes to the top level. -/
theorem closeRepeat (h : v.RepeatsAtTop) (explicitStart : Bool) (measure : String) :
    (v.closeRepeat explicitStart measure).1.RepeatsAtTop := by
  unfold Voice.closeRepeat
  split
  · exact h
  · next r hr =>
    refine ⟨?_, fun _ hnone => (nomatch hnone), h.chunk⟩
    intro e he r' hr'
    rcases List.mem_append.mp he with he | he
    · exact h.elements e he r' hr'
    · rw [List.mem_singleton.mp he] at hr'
      cases hr'
      split
      · exact h.pending r hr
      · exact (h.pending r hr).withImplicitStart measure

/-- The open chunk holds no repeat, so none comes with it. -/
theorem flush (h : v.RepeatsAtTop) : v.flush.RepeatsAtTop := by
  refine ⟨?_, h.pending, by simp [Voice.flush, NoRepeats]⟩
  intro e he r hr
  rcases List.mem_append.mp he with he | he
  · exact h.elements e he r hr
  · have hnone := h.chunk e he
    rw [hr] at hnone
    cases hnone

/-- A barline leaves repeats only at the top. -/
theorem takeBarline (h : v.RepeatsAtTop) (b : Barline) (explicitStart : Bool)
    (measure : String) : (v.takeBarline b explicitStart measure).1.RepeatsAtTop := by
  have hb : (VoiceElement.barline b).repeat? = none := rfl
  unfold Voice.takeBarline
  cases b.category with
  | standalone => exact h.append hb
  | repeatStart =>
    have hclosed := (h.closeRepeat explicitStart measure).flush
    refine ⟨hclosed.elements, ?_, NoRepeats.singleton hb⟩
    intro r hr
    cases hr
    exact Repeat.Shallow.opened ..
  | endingStart => exact h.moveIntoRepeat.restart hb
  | hookedEndingEnd =>
    dsimp only
    split
    · exact (h.append hb).closeEnding ..
    · exact ((h.append hb).closeEnding ..).closeRepeat ..
  | hooklessEndingEnd => exact ((h.append hb).closeEnding ..).closeRepeat ..
  | repeatEnd =>
    dsimp only
    split
    · exact (h.append hb).closeEnding ..
    · have hcounted : Voice.RepeatsAtTop { v with
          pending? := some { v.collecting with
            times? := v.collecting.times?.or b.repeatTimes? } } := by
        refine ⟨h.elements, ?_, h.chunk⟩
        intro r hr
        cases hr
        exact ⟨h.collecting.body, h.collecting.endings⟩
      exact ((hcounted.append hb).moveIntoRepeat).closeRepeat ..

/-- The end of a part leaves repeats only at the top. -/
theorem endRepeats (h : v.RepeatsAtTop) (explicitStart : Bool) (measure : String) :
    (v.endRepeats explicitStart measure).1.RepeatsAtTop := by
  unfold Voice.endRepeats
  split
  · exact h
  · split
    · exact h.moveIntoRepeat.closeRepeat ..
    · exact h.closeRepeat ..

/-- Every event keeps repeats at the top level. -/
theorem apply (h : v.RepeatsAtTop) {event : VoiceEvent} (he : event.Genuine) :
    (event.apply v).RepeatsAtTop := by
  cases event with
  | element e => exact h.append he.1
  | barline b explicitStart measure => exact h.takeBarline b explicitStart measure
  | partEnd explicitStart measure => exact (h.endRepeats explicitStart measure).flush

end Voice.RepeatsAtTop

namespace VoiceEvent

/-- A run from any voice keeps repeats at the top and adds what arrives, in order. -/
theorem run_from {v : Voice} (hv : v.RepeatsAtTop) {events : List VoiceEvent}
    (h : ∀ event ∈ events, event.Genuine) :
    (events.foldl apply v).RepeatsAtTop ∧
      played (events.foldl apply v).flatten = played v.flatten ++ events.flatMap arrived := by
  induction events generalizing v with
  | nil => exact ⟨hv, by simp⟩
  | cons event events ih =>
    have he := h event List.mem_cons_self
    obtain ⟨htop, hplayed⟩ :=
      ih (hv.apply he) fun event' hmem => h event' (List.mem_cons_of_mem _ hmem)
    refine ⟨htop, ?_⟩
    rw [List.foldl_cons, hplayed, he.played_apply, List.flatMap_cons, List.append_assoc]

/-- **Nothing is lost and nothing changes its place.** After any run from a new voice what is
played is what arrived, in the order it arrived in; repeats stand at the top level of the closed
content only; and where the part ends next, no repeat stays pending and the open chunk is empty. -/
theorem played_run (number staffNumber divisionsPerWhole : Nat) (events : List VoiceEvent)
    (h : ∀ event ∈ events, event.Genuine) :
    played (events.foldl apply (.empty number staffNumber divisionsPerWhole)).flatten =
        events.flatMap arrived ∧
      (events.foldl apply (.empty number staffNumber divisionsPerWhole)).RepeatsAtTop ∧
      ∀ explicitStart measure,
        let ended := apply (events.foldl apply (.empty number staffNumber divisionsPerWhole))
          (.partEnd explicitStart measure)
        ended.pending? = none ∧ ended.chunk = [] ∧ ended.RepeatsAtTop ∧
          played ended.flatten = events.flatMap arrived := by
  have hempty := Voice.RepeatsAtTop.empty number staffNumber divisionsPerWhole
  obtain ⟨htop, hplayed⟩ := run_from hempty h
  refine ⟨hplayed, htop, ?_⟩
  intro explicitStart measure
  have hend : (partEnd explicitStart measure).Genuine := trivial
  refine ⟨Voice.pending?_endRepeats .., rfl, htop.apply hend, ?_⟩
  rw [hend.played_apply, hplayed]
  exact List.append_nil _

/-- A barline of a category, as a document has it. -/
def sign (category : BarlineCategory) (repeat? : Option RepeatDirection) : VoiceEvent :=
  .barline { Barline.implicitRepeatStart "1" with category, repeat?, isImplicit := false } false "1"

/-- A repeat with two endings that the document did not open, with a mark at the end of every
measure. -/
def twoEndings : List VoiceEvent :=
  [.element (.barCheck (some "2")), sign .endingStart none, .element (.barCheck (some "3")),
    sign .hookedEndingEnd (some .backward), sign .endingStart none, .element (.barCheck none),
    sign .hooklessEndingEnd none]

/-- All seven come out as they came in, though the voice has a single element by then, which is a
repeat with a start of its own. -/
theorem played_run_twoEndings :
    (twoEndings.foldl apply (.empty 1 1 4)).elements.length = 1 ∧
      (twoEndings.foldl apply (.empty 1 1 4)).flatten.length = 8 ∧
      played (twoEndings.foldl apply (.empty 1 1 4)).flatten = twoEndings.flatMap arrived := by
  have hgenuine : ∀ event ∈ twoEndings, event.Genuine := by
    simp [twoEndings, sign, Genuine, VoiceElement.repeat?, VoiceElement.barline?]
  exact ⟨by decide +kernel, by decide +kernel, (played_run 1 1 4 twoEndings hgenuine).1⟩

end VoiceEvent

end Partwise
