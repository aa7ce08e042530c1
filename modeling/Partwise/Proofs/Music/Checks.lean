import Partwise.Proofs.Music.Elsewhere
import Partwise.Proofs.Music.Measures
import Partwise.Proofs.Reading.Paying

/-!
# Music · Checks: every measure of a voice is checked once

A voice owes a check as soon as a measure gives it a note, padding or a movement forward, and it
gets the check where the next measure of the part begins, or where the part ends. Tuplets are closed
by then, and repeats may have moved what the voice holds into other places; all the same, in the
order of the music the check stands right behind what the measure gave.

`barsOf` lists the measures of a document that give something to a voice, each with what it gives
and with the number of the measure that follows it. `InBars` says that elements are such measures,
one after the other, each with a single check behind it. While a measure is read its check is owed:
`Reading.Owes` says what the voice holds behind its last check, and `Unfolds.inBars` carries this
through a whole reading. So it is with all voices of a score (`Document.bars_checked`).
-/

namespace Partwise

open Markup

variable {settings : Settings} {r s t : Reading} {m : Moment} {ms : List Moment} {id : String}
  {key : VoiceKey} {d : Deed} {owed : List Arrived} {next? : Option String}

/-! ## The measures of a voice -/

/-- A measure that gave something to a voice, and the number of the one that follows in its part. -/
structure Bar where
  given : List Arrived
  next? : Option String

/-- A measure, if it gave anything. -/
def barOf (given : List Arrived) (next? : Option String) : List Bar :=
  if given = [] then [] else [⟨given, next?⟩]

/-- The number of the measure that is entered next, before the part is left. -/
def nextMeasure? : List Moment → Option String
  | [] => none
  | m :: ms =>
    match m.move with
    | .enterMeasure e => some ((e.attr? "number").getD "")
    | .leavePart _ => none
    | _ => nextMeasure? ms

/-- The moments of a measure, from where it was entered. -/
def inMeasure (ms : List Moment) : List Moment :=
  ms.takeWhile fun m => !m.move.isBoundary

/-- The measures that give something to a voice of a part, in the order of the document. -/
def barsOf (settings : Settings) (id : String) (key : VoiceKey) : List Moment → List Bar
  | [] => []
  | m :: ms =>
    (if m.move.entersMeasure then
      barOf (arrivals settings id key m.after.partId? (inMeasure ms)) (nextMeasure? ms)
    else []) ++ barsOf settings id key ms

/-- The elements are those that the measures gave, with one check behind each measure. -/
inductive InBars : List VoiceElement → List Bar → Prop
  | nil : InBars [] []
  | cons {run rest : List VoiceElement} {bar : Bar} {bars : List Bar}
      (timed : ∀ e ∈ run, e.isTimed = true)
      (written : (imprints run).map Imprint.written = bar.given.map Arrived.written)
      (given : bar.given ≠ []) (more : InBars rest bars) :
      InBars (run ++ .barCheck bar.next? :: rest) (bar :: bars)

namespace InBars

variable {as bs : List VoiceElement} {first last : List Bar}

theorem append (h : InBars as first) (h' : InBars bs last) : InBars (as ++ bs) (first ++ last) := by
  induction h with
  | nil => exact h'
  | cons timed written given _ ih =>
    rw [List.append_assoc, List.cons_append, List.cons_append]
    exact .cons timed written given ih

/-- There is a check for each of the measures and for no other, with the number that follows it. -/
theorem checks (h : InBars as first) :
    as.filter VoiceElement.isCheck = first.map fun bar => .barCheck bar.next? := by
  induction h with
  | nil => rfl
  | @cons run rest bar bars timed _ _ _ ih =>
    have hrun : run.filter VoiceElement.isCheck = [] := by
      refine List.filter_eq_nil_iff.mpr fun e he => ?_
      have htimed := timed e he
      cases e <;> simp_all [VoiceElement.isTimed, VoiceElement.isCheck]
    rw [List.filter_append, hrun, List.filter_cons_of_pos rfl, ih]
    rfl

end InBars

/-- The checks of some elements are those that stand among what takes time. -/
theorem checks_checked (es : List VoiceElement) :
    (checked es).filter VoiceElement.isCheck = es.filter VoiceElement.isCheck := by
  unfold checked
  rw [List.filter_filter]
  refine List.filter_congr fun e _ => ?_
  cases e.isCheck <;> simp

/-- A deed brings nothing to a voice unless it is heard there. -/
theorem Deed.brings_eq_nil_iff (r : Reading) : d.brings r key = [] ↔ d.voice? ≠ some key := by
  refine ⟨fun hnone hvoice => ?_, brings_other r⟩
  cases d with
  | note input =>
    cases hvoice
    rw [brings_note] at hnone
    simp at hnone
  | forward k duration line =>
    cases hvoice
    rw [brings_forward] at hnone
    simp at hnone
  | backup | enterMeasure | leaveMeasure | enterPart | leavePart | nothing => exact nomatch hvoice

/-! ## Behind the last check -/

namespace Reading

/-- The music of a voice behind its last check, with what open tuplets still hold. -/
def unsealed (r : Reading) (id : String) (key : VoiceKey) : List VoiceElement :=
  (r.checked id key).rtakeWhile VoiceElement.isTimed ++
    if r.partId? = some id then r.passage.held key else []

/-- Behind what is sealed there is only what takes time. -/
theorem checked_eq_sealed (r : Reading) (id : String) (key : VoiceKey) :
    r.checked id key = r.sealed id key ++ (r.checked id key).rtakeWhile VoiceElement.isTimed := by
  rw [sealed_eq, List.rdropWhile_append_rtakeWhile]

/-- The music of a voice is what is sealed, and then what is not. -/
theorem music_eq_sealed (r : Reading) (id : String) (key : VoiceKey) :
    r.music id key = timed (r.sealed id key) ++ r.unsealed id key := by
  have hparts : (r.partOf id).elim [] (Part.music · key) = timed (r.checked id key) := by
    rw [checked]
    cases r.partOf id with
    | none => rfl
    | some p =>
      change p.music key = timed (p.checked key)
      rw [Part.music, Part.checked]
      cases p.voice? key with
      | none => rfl
      | some v => exact (timed_checked v.flatten).symm
  have hrun : timed ((r.checked id key).rtakeWhile VoiceElement.isTimed) =
      (r.checked id key).rtakeWhile VoiceElement.isTimed :=
    List.filter_eq_self.mpr fun _ => List.mem_rtakeWhile_imp
  rw [music, hparts, unsealed, ← List.append_assoc, ← hrun, ← timed_append, ← checked_eq_sealed]

/-- While what is sealed stays and nothing is heard, what stands behind the last check stays. -/
theorem unsealed_congr (hsealed : s.sealed id key = r.sealed id key)
    (hmusic : s.music id key = r.music id key) : s.unsealed id key = r.unsealed id key := by
  rw [music_eq_sealed, music_eq_sealed, hsealed] at hmusic
  exact List.append_cancel_left hmusic

/-- What a voice holds behind its last check is what it was given since. As long as that is nothing,
it owes no check. -/
structure Owes (r : Reading) (id : String) (key : VoiceKey) (owed : List Arrived) : Prop where
  written : (imprints (r.unsealed id key)).map Imprint.written = owed.map Arrived.written
  nothing : owed = [] → r.unsealed id key = []
  due : r.partId? = some id ∧ key ∈ r.passage.unchecked ↔ owed ≠ []
  ascending : Ascending r.passage.unchecked

namespace Owes

/-- What is not heard and seals nothing leaves what is owed, if it leaves who owes a check. -/
theorem of_same (h : r.Owes id key owed) (hsealed : s.sealed id key = r.sealed id key)
    (hmusic : s.music id key = r.music id key)
    (hdue : (s.partId? = some id ∧ key ∈ s.passage.unchecked) ↔ owed ≠ [])
    (hascending : Ascending s.passage.unchecked) : s.Owes id key owed := by
  have hunsealed := unsealed_congr hsealed hmusic
  exact ⟨by rw [hunsealed, h.written], fun hnone => hunsealed.trans (h.nothing hnone), hdue,
    hascending⟩

/-- A voice that holds nothing behind its last check owes none, where none is owed. -/
theorem of_none (hunsealed : r.unsealed id key = []) (hunchecked : r.passage.unchecked = []) :
    r.Owes id key [] := by
  refine ⟨by rw [hunsealed]; rfl, fun _ => hunsealed, by simp [hunchecked], ?_⟩
  rw [hunchecked]
  exact List.Pairwise.nil

/-- Outside of all parts no check is owed. -/
theorem eq_nil (h : r.Owes id key owed) (hnone : r.partId? = none) : owed = [] := by
  by_contra howed
  have hid := (h.due.mpr howed).1
  rw [hnone] at hid
  exact nomatch hid

/-- **Within a measure** the voice owes a check for what the deed brings it, too. -/
theorem bear (h : r.Owes id key owed) (hbears : r.Bears d s) (hdoes : Does r s d)
    (halone : ∀ id, d = .enterPart id → r.partId? = none) (hpart : s.partId? = r.partId?) :
    s.Owes id key (owed ++ if r.partId? = some id then d.brings r key else []) := by
  have hsealed := hbears.abides.sealed id key
  obtain ⟨new, hnew, hfits⟩ := hdoes.imprints_eq halone id key
  refine ⟨?_, ?_, ?_, hbears.abides.ascending h.ascending⟩
  · rw [music_eq_sealed, music_eq_sealed, hsealed, imprints_append, imprints_append,
      List.append_assoc] at hnew
    rw [List.append_cancel_left hnew, List.map_append, List.map_append, h.written,
      written_of_fits hfits]
  · intro hnone
    obtain ⟨hbefore, hbrings⟩ := List.append_eq_nil_iff.mp hnone
    have hother : r.partId? = some id → d.voice? ≠ some key := by
      intro hid
      rw [if_pos hid] at hbrings
      exact (Deed.brings_eq_nil_iff r).mp hbrings
    rw [unsealed_congr hsealed (hdoes.music_other halone hother), h.nothing hbefore]
  · rw [hpart]
    by_cases hid : r.partId? = some id
    · have hbefore : key ∈ r.passage.unchecked ↔ owed ≠ [] := by simpa [hid] using h.due
      have hafter : key ∈ s.passage.unchecked ↔ key ∈ r.passage.unchecked ∨ d.voice? = some key :=
        ⟨hbears.abides.only key, fun hk => hk.elim (hbears.abides.kept key) (hbears.owed key)⟩
      rw [if_pos hid, hafter, hbefore, ne_eq, ne_eq, List.append_eq_nil_iff, Deed.brings_eq_nil_iff]
      tauto
    · have hnone : owed = [] := by
        by_contra howed
        exact hid (h.due.mpr howed).1
      simp [hid, hnone]

/-- **Where a check is put** none is owed any more, and what was owed is a measure of the voice. -/
theorem pay (h : r.Owes id key owed) (hpays : Pays next? r s) (hnone : r.passage.tuplets = [])
    (hmusic : s.music id key = r.music id key) :
    s.Owes id key [] ∧ ∃ paid, s.sealed id key = r.sealed id key ++ paid ∧
      InBars paid (barOf owed next?) := by
  have hsealed := hpays.sealed id key
  by_cases howed : owed = []
  · rw [if_neg fun hdue => h.due.mp hdue howed] at hsealed
    refine ⟨.of_none ?_ hpays.unchecked, [], by rw [hsealed, List.append_nil], ?_⟩
    · rw [unsealed_congr hsealed hmusic, h.nothing howed]
    · rw [barOf, if_pos howed]
      exact .nil
  · rw [if_pos (h.due.mpr howed)] at hsealed
    have hheld : r.unsealed id key = (r.checked id key).rtakeWhile VoiceElement.isTimed := by
      simp [unsealed, Passage.held, Passage.tupletKey?, hnone]
    have hchecked : r.checked id key = r.sealed id key ++ r.unsealed id key :=
      hheld ▸ r.checked_eq_sealed id key
    have htimed : ∀ e ∈ r.unsealed id key, e.isTimed = true := by
      rw [hheld]
      exact fun _ => List.mem_rtakeWhile_imp
    refine ⟨.of_none ?_ hpays.unchecked, r.unsealed id key ++ [.barCheck next?], ?_, ?_⟩
    · rw [music_eq_sealed, music_eq_sealed, hsealed, hchecked, timed_append, timed_append,
        show timed (r.unsealed id key) = _ from List.filter_eq_self.mpr htimed] at hmusic
      exact List.append_right_eq_self.mp (hmusic.trans (List.append_nil _).symm)
    · rw [hsealed, hchecked, List.append_assoc]
    · rw [barOf, if_neg howed]
      exact @InBars.cons _ [] ⟨owed, next?⟩ [] htimed h.written howed .nil

end Owes

end Reading

/-! ## Whole readings -/

/-- The measures of a voice that are not checked yet: the one that is being read or was read last,
with what is owed for it and what it is still to give, and then those that are entered later. -/
def barsAhead (settings : Settings) (id : String) (key : VoiceKey) (inside : Bool)
    (part? : Option String) (owed : List Arrived) (ms : List Moment) : List Bar :=
  barOf (owed ++ if inside then arrivals settings id key part? (inMeasure ms) else [])
    (nextMeasure? ms) ++ barsOf settings id key ms

/-- No tuplet is opened but by notes and movements forward. -/
theorem Does.tuplets_none (h : Does r s d) (hvoice : d.voice? = none)
    (hnone : r.passage.tuplets = []) : s.passage.tuplets = [] := by
  cases h with
  | place | join | forward => exact nomatch hvoice
  | backup back => exact back.tuplets
  | enterMeasure begins => exact begins.tuplets.none hnone
  | leaveMeasure _ hclosed => exact hclosed
  | enterPart begins => rw [begins.passage]
  | leavePart ends => exact ends.tuplets
  | nothing quiet => exact quiet.tuplets.none hnone

/-- Outside of measures a move is heard in no voice. -/
theorem Move.voice?_deed {move : Move} (r : Reading) (hkeeps : move.keepsToMeasure false = true) :
    (move.deed settings r).voice? = none := by
  cases move with
  | leaf e =>
    obtain ⟨hnote, hforward⟩ : e.name ≠ "note" ∧ e.name ≠ "forward" := by
      simpa [keepsToMeasure, Element.isFilling] using hkeeps
    exact Deed.voice?_ofLeaf r hnote hforward
  | enterPart | leavePart | enterMeasure | leaveMeasure | leavePartList => rfl

/-- Outside of measures no tuplet is open. -/
theorem Does.tuplets_outside {inside : Bool} {move : Move}
    (h : Does r s (move.deed settings r)) (hkeeps : move.keepsToMeasure inside = true)
    (hnone : inside = false → r.passage.tuplets = []) (hout : move.opensMeasure inside = false) :
    s.passage.tuplets = [] := by
  cases move with
  | leaveMeasure e =>
    cases h with
    | leaveMeasure _ hclosed => exact hclosed
  | enterMeasure e => exact nomatch hout
  | leaf | leavePartList | enterPart | leavePart =>
    obtain rfl : inside = false := hout
    exact h.tuplets_none (Move.voice?_deed r hkeeps) (hnone rfl)

/-- The move neither enters a measure or a part nor leaves a part. -/
def Move.goesOn : Move → Bool
  | leaf _ | leavePartList _ | leaveMeasure _ => true
  | enterMeasure _ | enterPart _ | leavePart _ => false

/-- A move that is no boundary goes on. -/
theorem Move.goesOn_of_not_isBoundary {move : Move} (h : move.isBoundary = false) :
    move.goesOn = true := by
  cases move with
  | leaf | leavePartList => rfl
  | enterPart | leavePart | enterMeasure | leaveMeasure => exact nomatch h

/-- What goes on leaves what is sealed, and gives content to the voice of its deed only. -/
theorem Reading.Bears.perform {move : Move} {u : Unit} (hr : r.Sound)
    (h : Ends (move.perform settings) r u s) (hmove : move.goesOn = true) :
    r.Bears (move.deed settings r) s := by
  cases move with
  | leaf e => exact .readLeaf hr h
  | leavePartList line =>
    exact .of_orderly (.sameMusic fun _ _ _ => SameMusic.closeGroups) h rfl
  | leaveMeasure e => exact .of_orderly .leaveMeasure h rfl
  | enterPart | leavePart | enterMeasure => exact nomatch hmove

/-- What goes on stays in its part. -/
theorem Move.partAfter_deed {move : Move} (r : Reading) (hmove : move.goesOn = true)
    (part? : Option String) : (move.deed settings r).partAfter part? = part? := by
  cases move with
  | leaf e => exact Deed.partAfter_ofLeaf settings r e part?
  | leavePartList | leaveMeasure => rfl
  | enterPart | leavePart | enterMeasure => exact nomatch hmove

/-- The number of the next measure is the same after a move that goes on. -/
theorem nextMeasure?_cons (hmove : m.move.goesOn = true) (ms : List Moment) :
    nextMeasure? (m :: ms) = nextMeasure? ms := by
  rw [nextMeasure?]
  cases hcases : m.move with
  | leaf | leavePartList | leaveMeasure | enterPart => rfl
  | leavePart | enterMeasure =>
    rw [hcases] at hmove
    cases hmove

/-- No measure comes in with a move that goes on. -/
theorem barsOf_cons (hmove : m.move.goesOn = true) (ms : List Moment) :
    barsOf settings id key (m :: ms) = barsOf settings id key ms := by
  have hstays : m.move.entersMeasure = false := by
    cases hcases : m.move with
    | leaf | leavePartList | leaveMeasure | enterPart | leavePart => rfl
    | enterMeasure =>
      rw [hcases] at hmove
      cases hmove
  rw [barsOf, hstays]
  rfl

/-- What a move brings that goes on is no longer ahead afterwards, but owed. -/
theorem barsAhead_cons {inside : Bool} (hmove : m.move.goesOn = true)
    (hkeeps : m.move.keepsToMeasure inside = true) (part? : Option String) (ms : List Moment) :
    barsAhead settings id key inside part? owed (m :: ms) =
      barsAhead settings id key (m.move.opensMeasure inside) part? (owed ++
        if part? = some id then (m.move.deed settings m.before).brings m.before key else []) ms := by
  have hpart : (m.move.deed settings m.before).partAfter part? = part? :=
    Move.partAfter_deed m.before hmove part?
  have hout (hinside : inside = false) :
      (m.move.deed settings m.before).brings m.before key = [] := by
    subst hinside
    exact Deed.brings_other m.before (by simp [Move.voice?_deed m.before hkeeps])
  rw [barsAhead, barsAhead, nextMeasure?_cons hmove, barsOf_cons hmove, List.append_assoc]
  congr 3
  cases hcases : m.move with
  | leaf | leavePartList =>
    rw [hcases] at hpart hout
    cases inside with
    | false => simp [hout, Move.opensMeasure]
    | true => simp [inMeasure, arrivals, hcases, hpart, Move.opensMeasure, Move.isBoundary]
  | leaveMeasure =>
    simp [inMeasure, arrivals, hcases, Move.opensMeasure, Move.isBoundary, Move.deed, Deed.brings]
  | enterPart | leavePart | enterMeasure =>
    rw [hcases] at hmove
    cases hmove

namespace Reading.Owes

/-- Where a part is entered nothing is owed. -/
theorem enterPart (h : r.Owes id key owed) (hr : r.Sound) (hnone : r.partId? = none) {e : Element}
    {u : Unit} (henter : Ends (Partwise.enterPart e) r u s) :
    owed = [] ∧ s.Owes id key [] ∧ s.sealed id key = r.sealed id key := by
  have hbegins := PartBegins.enterPart hr henter
  have hsealed : s.sealed id key = r.sealed id key := by
    rw [Reading.sealed, Reading.sealed, partOf_enterPart henter]
  obtain rfl := h.eq_nil hnone
  refine ⟨rfl, .of_none ?_ (by rw [hbegins.passage]), hsealed⟩
  rw [unsealed_congr hsealed (by rw [hbegins.music hnone]), h.nothing rfl]

/-- Where a part is left the last measure is paid for. -/
theorem leavePart (h : r.Owes id key owed) (hr : r.Sound) {e : Element} {u : Unit}
    (hleave : Ends (Partwise.leavePart e) r u s) :
    s.Owes id key [] ∧ ∃ paid, s.sealed id key = r.sealed id key ++ paid ∧
      InBars paid (barOf owed none) := by
  obtain ⟨t, habides, hquiet, hnone, hpays⟩ := Pays.leavePart hr h.ascending hleave
  have hdue : (t.partId? = some id ∧ key ∈ t.passage.unchecked) ↔ owed ≠ [] := by
    rw [← h.due, hquiet.partId]
    refine and_congr_right fun _ => ⟨fun hk => ?_, habides.kept key⟩
    exact (habides.only key hk).resolve_right nofun
  have hthere := h.of_same (habides.sealed id key) (hquiet.music id key) hdue
    (habides.ascending h.ascending)
  rw [← habides.sealed id key]
  refine hthere.pay hpays hnone ?_
  rw [(PartEnds.leavePart hr hleave).music, hquiet.music]

end Reading.Owes

/-- **One move** pays for a measure or for none, and what it pays for is the first of what was
ahead. -/
theorem Reading.Owes.move {inside : Bool} (h : m.before.Owes id key owed) (hr : m.before.Sound)
    (hstep : Ends (m.move.perform settings) m.before () m.after)
    (halone : ∀ id, m.move.deed settings m.before = .enterPart id → m.before.partId? = none)
    (hkeeps : m.move.keepsToMeasure inside = true) (hparts : m.move.partOutside inside = true)
    (hnone : inside = false → m.before.passage.tuplets = []) (ms : List Moment) :
    ∃ owed' paid bars, m.after.Owes id key owed' ∧
      m.after.sealed id key = m.before.sealed id key ++ paid ∧ InBars paid bars ∧
      barsAhead settings id key inside m.before.partId? owed (m :: ms) = bars ++
        barsAhead settings id key (m.move.opensMeasure inside) m.after.partId? owed' ms := by
  have hdoes := Does.perform hr hstep
  by_cases hmove : m.move.goesOn = true
  · have hbears := Reading.Bears.perform hr hstep hmove
    have hpart : m.after.partId? = m.before.partId? :=
      hdoes.partId.trans (Move.partAfter_deed m.before hmove _)
    refine ⟨_, [], [], h.bear hbears hdoes halone hpart, ?_, .nil, ?_⟩
    · rw [hbears.abides.sealed, List.append_nil]
    · rw [hpart, List.nil_append]
      exact barsAhead_cons hmove hkeeps _ ms
  · obtain ⟨before, move, after⟩ := m
    dsimp only at *
    cases move with
    | leaf | leavePartList | leaveMeasure => exact absurd rfl hmove
    | enterMeasure e =>
      obtain rfl : inside = false := by simpa [Move.keepsToMeasure] using hkeeps
      have hbegins := MeasureBegins.enterMeasure hr hstep
      obtain ⟨hpaid, paid, hsealed, hbars⟩ := h.pay (.enterMeasure h.ascending hstep) (hnone rfl)
        (congrFun (congrFun (congrArg View.music hbegins.view) id) key)
      refine ⟨[], paid, _, hpaid, hsealed, hbars, ?_⟩
      simp [barsAhead, barsOf, Move.entersMeasure, Move.opensMeasure, nextMeasure?]
    | enterPart e =>
      obtain rfl : inside = false := by simpa [Move.partOutside] using hparts
      obtain ⟨rfl, hentered, hsealed⟩ := h.enterPart hr (halone _ rfl) hstep
      refine ⟨[], [], [], hentered, by rw [hsealed, List.append_nil], .nil, ?_⟩
      simp [barsAhead, barOf, barsOf, Move.entersMeasure, Move.opensMeasure]
    | leavePart e =>
      obtain rfl : inside = false := by simpa [Move.partOutside] using hparts
      obtain ⟨hpaid, paid, hsealed, hbars⟩ := h.leavePart hr hstep
      refine ⟨[], paid, _, hpaid, hsealed, hbars, ?_⟩
      simp [barsAhead, barOf, barsOf, Move.entersMeasure, Move.opensMeasure, nextMeasure?]

/-- **A reading** puts one check behind each measure of a voice. -/
theorem Unfolds.inBars {inside : Bool} (h : Unfolds settings r ms t)
    (hfollows : Follows settings r ms t)
    (hkeeps : throughout Move.keepsToMeasure inside (ms.map Moment.move) = true)
    (hparts : throughout Move.partOutside inside (ms.map Moment.move) = true)
    (hnone : inside = false → r.passage.tuplets = []) (howes : r.Owes id key owed)
    (hend : t.partId? = none) :
    ∃ rest, t.checked id key = r.sealed id key ++ rest ∧
      InBars rest (barsAhead settings id key inside r.partId? owed ms) := by
  induction h generalizing inside owed with
  | nil r =>
    obtain rfl := howes.eq_nil hend
    have hrun := (List.append_eq_nil_iff.mp (howes.nothing rfl)).1
    refine ⟨[], hrun ▸ r.checked_eq_sealed id key, ?_⟩
    cases inside <;> exact .nil
  | @cons m ms t hsound hdoes halone _ ih =>
    obtain ⟨-, hstep, hrest⟩ := hfollows.of_cons
    rw [List.map_cons, throughout, Bool.and_eq_true] at hkeeps hparts
    obtain ⟨owed', paid, bars, howes', hsealed, hpaid, hahead⟩ :=
      howes.move hsound hstep halone hkeeps.1 hparts.1 hnone ms
    obtain ⟨rest, hchecked, hbars⟩ :=
      ih hrest hkeeps.2 hparts.2 (hdoes.tuplets_outside hkeeps.1 hnone) howes' hend
    refine ⟨paid ++ rest, by rw [hchecked, hsealed, List.append_assoc], ?_⟩
    rw [hahead]
    exact hpaid.append hbars

/-! ## Documents -/

/-- **Every measure of a voice is checked once.** In a document that keeps to its measures, let a
voice of the score be read in the order of its music, repeats included. What takes time in it comes
in one run for each measure that gave it a note, padding or a movement forward, in the order of the
document. Right behind each run stands one check, with the number of the measure that follows in the
same part element, or with none behind the last one there. There are no other checks. -/
theorem Document.bars_checked {root : Element} {score : Score}
    (h : (Document.read settings root).score = .ok score)
    (hkeeps : root.keepsToMeasures = true) :
    (trail settings root).map Moment.move = movesOf root ∧
      ∀ part ∈ score.parts, ∀ voice ∈ part.voices,
        InBars (checked voice.flatten)
          (barsOf settings part.id voice.key (trail settings root)) := by
  have hparts := Document.partsOutside h hkeeps
  obtain ⟨last, hfollows, hunfolds, hcomplete, hmoves⟩ := Document.follows_unfolds h
  refine ⟨hmoves, fun part hpart voice hvoice => ?_⟩
  rw [Element.keepsToMeasures, ← hmoves] at hkeeps
  have hstart : ({} : Reading).Owes part.id voice.key [] := .of_none rfl rfl
  obtain ⟨rest, hchecked, hbars⟩ :=
    hunfolds.inBars hfollows hkeeps hparts (fun _ => rfl) hstart hcomplete.partId
  have hlast : last.checked part.id voice.key = checked voice.flatten := by
    rw [Reading.checked, hcomplete.partOf hpart]
    change part.checked voice.key = _
    rw [Part.checked, hcomplete.voice? hpart hvoice]
    rfl
  rw [← hlast, hchecked]
  exact hbars

/-- A measure with a number. -/
def measureElement (number : String) (es : List Element) : Element :=
  { name := "measure", attributes := [("number", number)], children := es }

/-- A part of three measures, of which the second one has nothing for the second voice. -/
def silentSecondMeasure : Element :=
  { name := "score-partwise"
    children :=
      [{ name := "part-list", children := [{ name := "score-part", attributes := [("id", "P")] }] },
        { name := "part"
          attributes := [("id", "P")]
          children :=
            [measureElement "1" [noteElement 1 "C" "1" "1" [], backupElement "1",
              noteElement 2 "E" "2" "1" []],
              measureElement "2" [noteElement 3 "D" "1" "1" []],
              measureElement "3" [noteElement 4 "C" "1" "1" [], backupElement "1",
                noteElement 5 "E" "2" "1" []]] }] }

/-- The second voice has two checks: that of the first measure and that of the last. -/
theorem Document.bars_checked_silentMeasure : ∃ score, ∃ part ∈ score.parts,
    ∃ voice ∈ part.voices, (Document.read {} silentSecondMeasure).score = .ok score ∧
      silentSecondMeasure.keepsToMeasures = true ∧ voice.key = ⟨1, 2⟩ ∧
      voice.flatten.filter VoiceElement.isCheck = [.barCheck (some "2"), .barCheck none] := by
  have hthere : hasVoice silentSecondMeasure "P" ⟨1, 2⟩ (fun _ => true) = true := by
    decide +kernel
  have hkeeps : silentSecondMeasure.keepsToMeasures = true := by decide +kernel
  obtain ⟨score, part, hpart, voice, hvoice, hread, hid, hkey, _⟩ := exists_voice hthere
  have hchecks := ((Document.bars_checked hread hkeeps).2 part hpart voice hvoice).checks
  have hbars : (barsOf {} "P" ⟨1, 2⟩ (trail {} silentSecondMeasure)).map Bar.next? =
      [some "2", none] := by
    decide +kernel
  refine ⟨score, part, hpart, voice, hvoice, hread, hkeeps, hkey, ?_⟩
  rw [← checks_checked, hchecks, hid, hkey]
  exact (List.map_map (g := VoiceElement.barCheck) (f := Bar.next?)).symm.trans (congrArg _ hbars)

end Partwise
