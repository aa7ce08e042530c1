import Partwise.Proofs.Reading.Invariants
import Partwise.Proofs.Repeats.Agreement

/-!
# Repeats · Counts: how often a repeat is played

A document may say how often a repeat is played at any barline with a repeat sign. The barline that
opens a repeat is heard, and so is the one that closes the repeat itself. A barline that ends one of
the endings is not, even if it sends the music back to the start: then the repeat goes without the
number. `Document.times_eq` says of every repeat of a score which number it has, and
`Document.uncounted_ending` is a document in which one is lost.

While a repeat is collected no barline that ends anything stands in its body or in the open chunk,
and one stands in each of its endings (`Repeat.Collects`). So a second one in the last ending is the
one that closes the
repeat. -/

namespace Partwise

open Markup

/-! ## Barlines of a repeat -/

namespace Barline

/-- The barline starts a repeat. -/
def starts (b : Barline) : Bool := b.category = .repeatStart

/-- The barline ends a repeat or an ending. -/
def ends (b : Barline) : Bool :=
  b.category = .repeatEnd || b.category = .hookedEndingEnd || b.category = .hooklessEndingEnd

end Barline

/-- The barlines among some elements. -/
def barlinesOf (es : List VoiceElement) : List Barline := es.filterMap VoiceElement.barline?

/-- No elements have no barlines. -/
@[simp] theorem barlinesOf_nil : barlinesOf [] = [] := rfl

/-- A barline alone is the only one. -/
@[simp] theorem barlinesOf_barline (b : Barline) : barlinesOf [.barline b] = [b] := rfl

/-- The barlines among some elements and then others are those among them all. -/
@[simp] theorem barlinesOf_append (as bs : List VoiceElement) :
    barlinesOf (as ++ bs) = barlinesOf as ++ barlinesOf bs :=
  List.filterMap_append ..

namespace Repeat

/-- The barlines that stand in a repeat, in order. -/
def barlines (r : Repeat) : List Barline :=
  barlinesOf r.body ++ r.endings.flatMap fun ending => barlinesOf ending.chunk

/-- The barline that opens the repeat. -/
def opening? (r : Repeat) : Option Barline := r.barlines.find? Barline.starts

/-- The barline that closes the repeat itself. The first one that ends anything in an ending ends
this ending only. -/
def closing? (r : Repeat) : Option Barline :=
  match r.endings.getLast? with
  | none => ((barlinesOf r.body).filter Barline.ends).head?
  | some ending => ((barlinesOf ending.chunk).filter Barline.ends)[1]?

/-- The barlines of a repeat that send the music back and play a part in it. -/
def backward (r : Repeat) : List Barline :=
  r.barlines.filter fun b => b.isBackward && b.category != .standalone

/-- How often the repeat is played: as the barline says that opens it, or else as the one says that
closes it. -/
def count? (r : Repeat) : Option Nat :=
  (r.opening?.bind Barline.repeatTimes?).or (r.closing?.bind Barline.repeatTimes?)

/-- The repeat is played as often as its barlines say, unless nothing at all has come into it. -/
def Counted (r : Repeat) : Prop := r.body = [] ∧ r.endings = [] ∨ r.times? = r.count?

/-- What has been collected for a repeat, while a chunk is open behind it. -/
structure Collects (r : Repeat) (chunk : List VoiceElement) : Prop where
  body : (barlinesOf r.body).filter Barline.ends = []
  endings : ∀ ending ∈ r.endings, ∃ b, (barlinesOf ending.chunk).filter Barline.ends = [b]
  /-- The barline that opens the repeat comes before all else of it. -/
  begun : r.body ≠ [] ∨ r.endings ≠ [] → (barlinesOf chunk).find? Barline.starts = none
  times : r.times? =
    ((r.barlines ++ barlinesOf chunk).find? Barline.starts).bind Barline.repeatTimes?
  unopened : r.explicitStart = false →
    (r.barlines ++ barlinesOf chunk).find? Barline.starts = none

/-- A repeat that is to be closed is played as often as its barlines say. Without a barline that
opens it, it is not taken for one that the document opened. -/
structure Ready (r : Repeat) : Prop where
  times : r.times? = r.count?
  unopened : r.explicitStart = false → r.opening? = none

end Repeat

/-- What a voice holds of repeats: some are closed, and one is collected. -/
structure Voice.Counts (v : Voice) : Prop where
  closed : ∀ r ∈ v.repeats, r.Counted
  collects : v.collecting.Collects v.chunk
  chunk : (barlinesOf v.chunk).filter Barline.ends = []
  /-- The open chunk holds no repeat. -/
  plain : v.chunk.filterMap VoiceElement.repeat? = []

/-! ## Repeats under construction -/

namespace Repeat

variable {r : Repeat} {chunk : List VoiceElement} {b : Barline} {ending : Ending}

/-- A chunk goes behind all that the last ending holds. -/
theorem getLast?_extendLastEnding (endings : List Ending) :
    (extendLastEnding chunk endings).getLast? =
      endings.getLast?.map fun ending => { ending with chunk := ending.chunk ++ chunk } := by
  induction endings with
  | nil => rfl
  | cons first endings ih =>
    cases endings with
    | nil => rfl
    | cons second endings =>
      rw [List.getLast?_cons_cons, ← ih]
      cases endings <;> rfl

/-- What comes into the last ending brings its barlines behind those of the endings. -/
theorem flatMap_extendLastEnding {endings : List Ending} (h : endings ≠ []) :
    (extendLastEnding chunk endings).flatMap (fun ending => barlinesOf ending.chunk) =
      endings.flatMap (fun ending => barlinesOf ending.chunk) ++ barlinesOf chunk := by
  induction endings with
  | nil => exact absurd rfl h
  | cons first endings ih =>
    cases endings with
    | nil => simp [extendLastEnding, barlinesOf_append]
    | cons second endings =>
      have hrest := ih (List.cons_ne_nil _ _)
      show (first :: extendLastEnding chunk (second :: endings)).flatMap _ = _
      simp only [List.flatMap_cons, hrest, List.append_assoc]

/-- The barlines of a chunk come behind all others of the repeat that it goes into. -/
theorem barlines_extend (r : Repeat) (chunk : List VoiceElement) :
    (r.extend chunk).barlines = r.barlines ++ barlinesOf chunk := by
  unfold extend barlines
  split
  · next hnone =>
    rw [List.isEmpty_iff.mp hnone]
    simp [barlinesOf_append]
  · next hsome =>
    rw [flatMap_extendLastEnding (by simpa using hsome), List.append_assoc]

/-- An ending that comes to a repeat brings its barlines behind the others. -/
theorem barlines_addEnding (r : Repeat) (ending : Ending) :
    (r.addEnding ending).barlines = r.barlines ++ barlinesOf ending.chunk := by
  simp [addEnding, barlines]

/-- Before the first ending a barline that closes the repeat ends up in its body, and later in the
last ending, behind the barline that ends this. -/
theorem closing?_extend (h : r.Collects chunk) (more : List VoiceElement) :
    (r.extend more).closing? = ((barlinesOf more).filter Barline.ends).head? := by
  unfold extend
  cases hlast : r.endings.getLast? with
  | none =>
    have hnone := List.getLast?_eq_none_iff.mp hlast
    simp [closing?, hnone, h.body]
  | some last =>
    have hsome : r.endings ≠ [] := fun hnone => by simp [hnone] at hlast
    obtain ⟨b, hb⟩ := h.endings last (List.mem_of_getLast? hlast)
    simp [closing?, hsome, getLast?_extendLastEnding, hlast, hb, List.head?_eq_getElem?]

namespace Collects

/-- Nothing has closed the repeat yet. -/
theorem closing? (h : r.Collects chunk) : r.closing? = none := by
  unfold Repeat.closing?
  split
  · rw [h.body]
    rfl
  · next last hlast =>
    obtain ⟨b, hb⟩ := h.endings last (List.mem_of_getLast? hlast)
    rw [hb]
    rfl

/-- Before anything is collected the chunk may hold the barline that opens the repeat. -/
theorem opened (b : Barline) (hb : b.category = .repeatStart) :
    (Repeat.opened true b.repeatTimes?).Collects [.barline b] where
  body := rfl
  endings := fun _ hending => nomatch hending
  begun hsome := by simp [Repeat.opened] at hsome
  times := by simp [Repeat.opened, barlines, Barline.starts, hb]
  unopened hopened := nomatch hopened

/-- Nothing is collected, and no barline stands in the chunk that opens a repeat. -/
theorem none (hchunk : (barlinesOf chunk).find? Barline.starts = none) :
    (Repeat.opened false Option.none).Collects chunk where
  body := rfl
  endings := fun _ hending => nomatch hending
  begun _ := hchunk
  times := by simp [Repeat.opened, barlines, hchunk]
  unopened _ := by simpa [Repeat.opened, barlines] using hchunk

/-- Nothing comes into the chunk that starts a repeat. -/
theorem append (h : r.Collects chunk) {more : List VoiceElement}
    (hmore : (barlinesOf more).find? Barline.starts = Option.none) : r.Collects (chunk ++ more) where
  body := h.body
  endings := h.endings
  begun hsome := by simp [h.begun hsome, hmore]
  times := by
    rw [barlinesOf_append, ← List.append_assoc, List.find?_append, hmore, Option.or_none]
    exact h.times
  unopened hnone := by
    rw [barlinesOf_append, ← List.append_assoc, List.find?_append, hmore, Option.or_none]
    exact h.unopened hnone

/-- A chunk in which nothing ends goes into the repeat. -/
theorem extend (h : r.Collects chunk) (hchunk : (barlinesOf chunk).filter Barline.ends = []) :
    (r.extend chunk).Collects [] where
  body := by
    rw [r.body_extend]
    split
    · rw [barlinesOf_append, List.filter_append, h.body, hchunk]
      rfl
    · exact h.body
  endings := by
    intro ending hending
    unfold Repeat.extend at hending
    split at hending
    · exact h.endings ending hending
    · have hall : ∀ endings : List Ending,
          (∀ e ∈ endings, ∃ b, (barlinesOf e.chunk).filter Barline.ends = [b]) →
          ∀ e ∈ extendLastEnding chunk endings, ∃ b, (barlinesOf e.chunk).filter Barline.ends = [b] := by
        intro endings hendings
        fun_induction extendLastEnding chunk endings with
        | case1 => exact hendings
        | case2 last => simpa [barlinesOf_append, hchunk] using hendings
        | case3 first endings _ ih =>
          obtain ⟨hfirst, hrest⟩ := List.forall_mem_cons.mp hendings
          exact List.forall_mem_cons.mpr ⟨hfirst, ih hrest⟩
      exact hall r.endings h.endings ending hending
  begun _ := rfl
  times := by
    rw [r.barlines_extend, barlinesOf_nil, List.append_nil, ← h.times]
    unfold Repeat.extend
    split <;> rfl
  unopened hnone := by
    rw [r.explicitStart_extend] at hnone
    rw [r.barlines_extend, barlinesOf_nil, List.append_nil]
    exact h.unopened hnone

/-- A chunk in which one thing ends becomes an ending. -/
theorem addEnding (h : r.Collects ending.chunk)
    (hends : (barlinesOf ending.chunk).filter Barline.ends = [b]) :
    (r.addEnding ending).Collects [] where
  body := h.body
  endings := by
    intro other hother
    rcases List.mem_append.mp hother with hother | hother
    · exact h.endings other hother
    · rw [List.mem_singleton.mp hother]
      exact ⟨b, hends⟩
  begun _ := rfl
  times := by
    rw [r.barlines_addEnding, barlinesOf_nil, List.append_nil]
    exact h.times
  unopened hnone := by
    rw [r.barlines_addEnding, barlinesOf_nil, List.append_nil]
    exact h.unopened hnone

/-- The repeat may be closed if no other begins in the chunk. -/
theorem ready (h : r.Collects chunk) (hchunk : (barlinesOf chunk).find? Barline.starts = Option.none) :
    r.Ready := by
  have hall : (r.barlines ++ barlinesOf chunk).find? Barline.starts = r.opening? := by
    rw [List.find?_append, hchunk, Option.or_none]
    rfl
  refine ⟨?_, fun hnone => hall ▸ h.unopened hnone⟩
  rw [count?, h.closing?, Option.bind_none, Option.or_none, h.times, hall]

/-- A barline closes the repeat, which takes in the chunk and the barline. It may say how often the
repeat is played, if the barline has not said so that opens it. -/
theorem close (h : r.Collects chunk) (hchunk : (barlinesOf chunk).filter Barline.ends = [])
    (hb : b.category = .repeatEnd) :
    (Repeat.extend { r with times? := r.times?.or b.repeatTimes? } (chunk ++ [.barline b])).Ready := by
  have hlast : barlinesOf [.barline b] = [b] := rfl
  have hends : b.ends = true := by simp [Barline.ends, hb]
  have hstarts : b.starts = false := by simp [Barline.starts, hb]
  have hopening : (r.extend (chunk ++ [.barline b])).opening? =
      (r.barlines ++ barlinesOf chunk).find? Barline.starts := by
    rw [opening?, barlines_extend, barlinesOf_append, hlast, ← List.append_assoc, List.find?_append]
    simp [hstarts]
  have hclosing : (r.extend (chunk ++ [.barline b])).closing? = some b := by
    rw [closing?_extend h, barlinesOf_append, hlast, List.filter_append, hchunk]
    simp [hends]
  rw [r.extend_times]
  refine ⟨?_, fun hnone => ?_⟩
  · show r.times?.or b.repeatTimes? = (Option.bind (r.extend _).opening? _).or
      (Option.bind (r.extend _).closing? _)
    rw [hopening, hclosing, ← h.times]
    rfl
  · exact hopening.trans (h.unopened ((r.explicitStart_extend _).symm.trans hnone))

end Collects

/-- A repeat that is given a start has no barline of its own that opens it. -/
theorem Ready.withImplicitStart (h : r.Ready) (hnone : r.explicitStart = false) (measure : String) :
    (r.withImplicitStart measure).Counted := by
  have hopening : (r.withImplicitStart measure).opening?.bind Barline.repeatTimes? = Option.none := rfl
  have hclosing : (r.withImplicitStart measure).closing? = r.closing? := by
    show (match r.endings.getLast? with
      | none => ((Barline.implicitRepeatStart _ :: barlinesOf r.body).filter Barline.ends).head?
      | some ending => ((barlinesOf ending.chunk).filter Barline.ends)[1]?) = _
    rw [List.filter_cons_of_neg (by simp [Barline.ends, Barline.implicitRepeatStart])]
    rfl
  refine .inr (h.times.trans ?_)
  rw [count?, count?, hopening, hclosing, h.unopened hnone]
  rfl

end Repeat

/-! ## Voices -/

namespace Voice.Counts

variable {v w : Voice} {b : Barline}

/-- A voice that has just begun, with elements that are no barlines and no repeats. -/
theorem begin (number staffNumber divisions : Nat) {chunk : List VoiceElement}
    (hplain : ∀ e ∈ chunk, e.Plain) :
    Counts { Voice.empty number staffNumber divisions with chunk } := by
  have hbarlines : barlinesOf chunk = [] := List.filterMap_eq_nil_iff.mpr fun e he => (hplain e he).barline
  refine ⟨fun _ hr => (nomatch hr), .none ?_, ?_, ?_⟩
  · rw [hbarlines]
    rfl
  · show (barlinesOf chunk).filter Barline.ends = []
    rw [hbarlines]
    rfl
  · exact List.filterMap_eq_nil_iff.mpr fun e he => (hplain e he).repeated

/-- Of a voice matters what it has closed and collected, and of its open chunk only the barlines. -/
theorem of_same (h : v.Counts) (helements : w.elements = v.elements) (hpending : w.pending? = v.pending?)
    (hchunk : barlinesOf w.chunk = barlinesOf v.chunk)
    (hplain : w.chunk.filterMap VoiceElement.repeat? = []) : w.Counts := by
  have hcollecting : w.collecting = v.collecting := by rw [collecting, collecting, hpending]
  refine ⟨?_, ?_, hchunk ▸ h.chunk, hplain⟩
  · rw [repeats, helements]
    exact h.closed
  · rw [hcollecting]
    obtain ⟨hbody, hendings, hbegun, htimes, hunopened⟩ := h.collects
    rw [← hchunk] at hbegun htimes hunopened
    exact ⟨hbody, hendings, hbegun, htimes, hunopened⟩

/-- An element that is no barline and no repeat is put at the end. -/
theorem append (h : v.Counts) {e : VoiceElement} (he : e.Plain) : (v.append e).Counts := by
  refine h.of_same rfl rfl ?_ ?_
  · simp [barlinesOf, Voice.append, he.barline]
  · simp [Voice.append, h.plain, he.repeated]

/-- A note that joins what stands last leaves the barlines where they are. -/
theorem joinChord (h : v.Counts) {n : Note} {chordOpen : Bool} (hjoin : v.joinChord n chordOpen = .ok w) :
    w.Counts := by
  obtain ⟨joined, hjoined, rfl⟩ := of_map_eq_ok hjoin
  have hbarlines : ∀ {es es' : List VoiceElement}, joinLast n chordOpen es = .ok es' →
      barlinesOf es' = barlinesOf es := by
    intro es
    induction es with
    | nil => exact fun hnone => nomatch hnone
    | cons e es ih =>
      intro es' hes
      unfold joinLast at hes
      split at hes
      · next heq => exact nomatch heq
      · next heq =>
        cases heq
        obtain ⟨e', he, rfl⟩ := of_map_eq_ok hes
        obtain ⟨hplain, hplain'⟩ := VoiceElement.plain_join he
        simp [barlinesOf, hplain.barline, hplain'.barline]
      · next heq =>
        cases heq
        obtain ⟨rest, hrest, rfl⟩ := of_map_eq_ok hes
        have hsame : rest.filterMap VoiceElement.barline? = _ := ih hrest
        simp only [barlinesOf, List.filterMap_cons, hsame]
  exact h.of_same rfl rfl (hbarlines hjoined) ((bars_joinLast hjoined).1.trans h.plain)

/-- The counts of a voice stay right when its open chunk goes into the repeat. -/
theorem moveIntoRepeat (h : v.Counts) : v.moveIntoRepeat.Counts :=
  ⟨h.closed, h.collects.extend h.chunk, rfl, rfl⟩

/-- A barline ends the open chunk, which becomes an ending. -/
theorem closeEnding (h : v.Counts) (hb : b.ends = true) (kind : EndingKind) :
    ((v.append (.barline b)).closeEnding b kind).Counts := by
  have hstarts : b.starts = false := by
    unfold Barline.ends at hb
    unfold Barline.starts
    cases hc : b.category <;> simp_all
  have hcollects : v.collecting.Collects (v.chunk ++ [.barline b]) :=
    h.collects.append (by simp [hstarts])
  have hends : (barlinesOf (v.chunk ++ [.barline b])).filter Barline.ends = [b] := by
    simp [h.chunk, hb]
  exact ⟨h.closed, hcollects.addEnding hends, rfl, rfl⟩

/-- Of a voice that closes its repeat, all repeats are counted. -/
theorem closed_closeRepeat (hclosed : ∀ r ∈ v.repeats, r.Counted) (explicitStart : Bool)
    (measure : String) (hpending : ∀ r, v.pending? = some r →
      r.Counted ∧ (r.explicitStart = false → r.Ready)) :
    ∀ r ∈ (v.closeRepeat explicitStart measure).1.repeats, r.Counted := by
  unfold Voice.closeRepeat
  split
  · exact hclosed
  · next r hr =>
    obtain ⟨hcounted, hready⟩ := hpending r hr
    intro r' hr'
    simp only [repeats, List.filterMap_append, List.mem_append] at hr'
    rcases hr' with hr' | hr'
    · exact hclosed r' hr'
    · rw [List.mem_singleton.mp hr']
      split
      · exact hcounted
      · next hneither =>
        have hnone : r.explicitStart = false := by
          cases hown : r.explicitStart <;> simp_all
        exact (hready hnone).withImplicitStart hnone measure

/-- The repeat that is collected is counted, also where nothing has come into it yet. -/
theorem counted (h : v.Counts) {r : Repeat} (hr : v.pending? = some r) :
    r.Counted ∧ (r.explicitStart = false → r.Ready) := by
  have hcollects := h.collects
  rw [collecting, hr, Option.getD_some] at hcollects
  have hstarts : r.explicitStart = false → (barlinesOf v.chunk).find? Barline.starts = none := by
    intro hnone
    have hall := hcollects.unopened hnone
    rw [List.find?_append, Option.or_eq_none_iff] at hall
    exact hall.2
  refine ⟨?_, fun hnone => hcollects.ready (hstarts hnone)⟩
  by_cases hempty : r.body = [] ∧ r.endings = []
  · exact .inl hempty
  · exact .inr (hcollects.ready (hcollects.begun (by tauto))).times

/-- The repeat is closed, and none begins in the open chunk. -/
theorem closeRepeat (h : v.Counts) (hstarts : (barlinesOf v.chunk).find? Barline.starts = none)
    (explicitStart : Bool) (measure : String) : (v.closeRepeat explicitStart measure).1.Counts := by
  refine ⟨closed_closeRepeat h.closed explicitStart measure fun r hr => h.counted hr, ?_, ?_, ?_⟩
  all_goals unfold Voice.closeRepeat
  all_goals split
  · exact h.collects
  · exact .none hstarts
  all_goals first | exact h.chunk | exact h.plain

/-- The counts of a voice stay right when its open chunk becomes closed content. -/
theorem flush (h : v.Counts) (hnone : v.pending? = none) : v.flush.Counts := by
  have hcollecting : v.flush.collecting = .opened false none := by rw [collecting, Voice.flush, hnone]; rfl
  refine ⟨?_, ?_, rfl, rfl⟩
  · simp only [repeats, Voice.flush, List.filterMap_append, h.plain, List.append_nil]
    exact h.closed
  · rw [hcollecting]
    exact .none rfl

/-- **A barline** is taken by the voice. -/
theorem takeBarline (h : v.Counts) (b : Barline) (explicitStart : Bool) (measure : String) :
    (v.takeBarline b explicitStart measure).1.Counts := by
  unfold Voice.takeBarline
  cases hc : b.category with
  | standalone =>
    have hstarts : b.starts = false := by simp [Barline.starts, hc]
    have hends : b.ends = false := by simp [Barline.ends, hc]
    refine ⟨h.closed, h.collects.append (by simp [hstarts]), ?_, ?_⟩
    · simp [Voice.append, h.chunk, hends]
    · simp [Voice.append, h.plain, VoiceElement.repeat?]
  | repeatStart =>
    have hends : b.ends = false := by simp [Barline.ends, hc]
    have hclosed := closed_closeRepeat h.closed explicitStart measure fun r hr => h.counted hr
    have hplain : (v.closeRepeat explicitStart measure).1.chunk.filterMap VoiceElement.repeat? = [] := by
      unfold Voice.closeRepeat
      split <;> exact h.plain
    refine ⟨?_, .opened b hc, by simp [hends], rfl⟩
    simp only [repeats, Voice.flush, List.filterMap_append, hplain, List.append_nil]
    exact hclosed
  | endingStart =>
    have hmoved := h.moveIntoRepeat
    have hstarts : b.starts = false := by simp [Barline.starts, hc]
    have hends : b.ends = false := by simp [Barline.ends, hc]
    have hcollects : v.moveIntoRepeat.collecting.Collects ([] ++ [.barline b]) :=
      hmoved.collects.append (by simp [hstarts])
    exact ⟨hmoved.closed, hcollects, by simp [hends], rfl⟩
  | hookedEndingEnd =>
    have hended := h.closeEnding (b := b) (by simp [Barline.ends, hc]) .hooked
    dsimp only
    split
    · exact hended
    · exact hended.closeRepeat rfl explicitStart measure
  | hooklessEndingEnd =>
    have hended := h.closeEnding (b := b) (by simp [Barline.ends, hc]) .hookless
    exact hended.closeRepeat rfl explicitStart measure
  | repeatEnd =>
    dsimp only
    split
    · exact h.closeEnding (by simp [Barline.ends, hc]) .hooked
    · have hready := h.collects.close h.chunk hc
      refine ⟨closed_closeRepeat (by exact h.closed) explicitStart measure fun r hr => ?_, .none rfl,
        rfl, rfl⟩
      cases hr
      exact ⟨.inr hready.times, fun _ => hready⟩

/-- **The end of a part** comes to the voice. -/
theorem endRepeats (h : v.Counts) (explicitStart : Bool) (measure : String) :
    (v.endRepeats explicitStart measure).1.Counts := by
  unfold Voice.endRepeats
  cases hpending : v.pending? with
  | none => exact h
  | some r =>
    dsimp only
    split
    · exact h.moveIntoRepeat.closeRepeat rfl explicitStart measure
    · next hsome =>
      have hcollects := h.collects
      rw [collecting, hpending, Option.getD_some] at hcollects
      exact h.closeRepeat (hcollects.begun (.inr (by simpa using hsome))) explicitStart measure

/-- **What reading music does to a voice** keeps its repeats counted. -/
theorem invariant : VoiceInvariant Voice.Counts where
  newVoice p key := begin _ _ _ fun e he => by
    simp only [Part.opening, List.mem_append, List.mem_map, Option.mem_toList] at he
    rcases he with (⟨_, _, rfl⟩ | ⟨_, _, rfl⟩) | ⟨_, _, rfl⟩ <;> exact ⟨rfl, rfl⟩
  append he h := h.append he
  edit {v w} hedited h := by
    cases hedited with
    | place => exact h.of_same rfl rfl rfl h.plain
    | @append e given =>
      refine h.append ?_
      cases e <;> first | exact ⟨rfl, rfl⟩ | exact nomatch given
    | joinChord joined => exact h.joinChord joined
    | takeBarline => exact h.takeBarline ..
    | endRepeats => exact h.endRepeats ..
    | flush none => exact h.flush none
    | sing n lyrics =>
      obtain ⟨_, _, _, hsung⟩ := v.sing_eq n lyrics
      rw [hsung]
      exact h.of_same rfl rfl rfl h.plain
    | markSlurs slurs kind =>
      obtain ⟨_, _, hmarked⟩ := v.markSlurs_eq slurs kind
      rw [hmarked]
      exact h.of_same rfl rfl rfl h.plain
  divisions perWhole h := h.of_same rfl rfl rfl h.plain

end Voice.Counts

/-! ## Documents -/

/-- **How often repeats are played.** The repeats of a voice of the score stand at the top level of
its content. A repeat that anything has come into is played as often as the barline says that opens
it, or if that one says nothing, as the barline says that closes the repeat itself. So the number at
a barline that sends the music back is kept if this barline closes the repeat, and never if it only
ends one of the endings. -/
theorem Document.times_eq {root : Element} {score : Score} {part : Part} {voice : Voice}
    (h : (Document.read settings root).score = .ok score) (hpart : part ∈ score.parts)
    (hvoice : voice ∈ part.voices) :
    voice.RepeatsAtTop ∧ ∀ r ∈ voice.repeats, r.Counted :=
  ⟨(Document.begins_eq h hpart hvoice).1,
    (Voice.Counts.invariant.part.score h part hpart voice hvoice).closed⟩

/-- A sign to go back, with a number. -/
def backElement (times : String) : Element :=
  { name := "repeat", attributes := [("direction", "backward"), ("times", times)] }

/-- A repeat with one ending. The barline that ends the ending says that it is played three
times. -/
def countAtEnding : Element :=
  singleMeasure [noteElement 1 "C" "1" "1" [], endingElement "left" "start" [],
    noteElement 2 "D" "1" "1" [], endingElement "right" "stop" [backElement "3"]]

/-- The number at the end of an ending is lost: the repeat has none. -/
theorem Document.uncounted_ending : ∃ score, ∃ part ∈ score.parts, ∃ voice ∈ part.voices,
    ∃ r ∈ voice.repeats, (Document.read {} countAtEnding).score = .ok score ∧
      r.opening?.bind Barline.repeatTimes? = none ∧
      r.backward.map Barline.repeatTimes? = [some 3] ∧ r.times? = none := by
  have hthere : hasVoice countAtEnding "P" ⟨1, 1⟩ (fun voice => voice.repeats.any fun r =>
      r.opening?.bind Barline.repeatTimes? = none ∧
        r.backward.map Barline.repeatTimes? = [some 3] ∧ r.times? = none) = true := by
    decide +kernel
  obtain ⟨score, part, hpart, voice, hvoice, hread, _, _, hholds⟩ := exists_voice hthere
  obtain ⟨r, hr, hall⟩ := List.any_eq_true.mp hholds
  exact ⟨score, part, hpart, voice, hvoice, r, hr, hread, of_decide_eq_true hall⟩

/-- A repeat with one ending. Another barline that goes back follows the end of the ending, and
closes the repeat with a number of its own. -/
def countAfterEnding : Element :=
  singleMeasure [noteElement 1 "C" "1" "1" [], endingElement "left" "start" [],
    noteElement 2 "D" "1" "1" [], endingElement "right" "stop" [backElement "3"],
    noteElement 3 "E" "1" "1" [],
    { name := "barline", attributes := [("location", "right")], children := [backElement "2"] }]

/-- Of two numbers the repeat has the one at the barline that closes it. -/
theorem Document.times_eq_afterEnding : ∃ score, ∃ part ∈ score.parts, ∃ voice ∈ part.voices,
    ∃ r ∈ voice.repeats, (Document.read {} countAfterEnding).score = .ok score ∧
      r.backward.map Barline.repeatTimes? = [some 3, some 2] ∧ r.times? = some 2 := by
  have hthere : hasVoice countAfterEnding "P" ⟨1, 1⟩ (fun voice => voice.repeats.any fun r =>
      r.body ≠ [] ∧ r.backward.map Barline.repeatTimes? = [some 3, some 2] ∧
        r.count? = some 2) = true := by
    decide +kernel
  obtain ⟨score, part, hpart, voice, hvoice, hread, _, _, hholds⟩ := exists_voice hthere
  obtain ⟨r, hr, hall⟩ := List.any_eq_true.mp hholds
  obtain ⟨hbody, hnumbers, hcount⟩ := of_decide_eq_true hall
  have htimes : r.times? = r.count? :=
    ((Document.times_eq hread hpart hvoice).2 r hr).resolve_left fun hempty => hbody hempty.1
  exact ⟨score, part, hpart, voice, hvoice, r, hr, hread, hnumbers, htimes.trans hcount⟩

end Partwise
