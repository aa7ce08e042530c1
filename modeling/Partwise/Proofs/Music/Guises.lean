import Partwise.Proofs.Music.Folding
import Partwise.Proofs.Reading.Views
import Partwise.Reading.PartList
import Partwise.Reading.Signs
import Partwise.Voice.Repeats

/-!
# Music · Guises: scores in which some things are said otherwise

A `Guise` says how notes and chords are shown, in which divisions tuplets are written down, and how
much is seen of what a voice has sung. Parts in a guise have the same voices, and each voice has the
same elements in the same places, repeats included, so a guise goes together with everything that
reading does to the voices of a part: it makes no difference whether a part is changed first and
then shown in the guise, or the other way round.

* `Voice.takeBarline_guise`, `Voice.endRepeats_guise`: barlines move the same elements.
* `Voice.joinChord_guise`: a note joins the same element.
* `assembleGroups_map`: a score is put together from parts in whatever guise.
-/

namespace Partwise

/-! ## Guises -/

/-- How a part is shown. -/
structure Guise where
  note : Note → Note
  chord : Chord → Chord
  /-- The divisions that a tuplet is written down in. -/
  tuplets : Nat → Nat
  stanzas : List String → List String
  slurDepth : Nat → Nat
  slurOpening : Option LyricKind → Option LyricKind

/-- A guise shows notes where they are and as long as they are, and chords as those of its notes. A
voice that begins has sung nothing in any guise. -/
structure Guise.Lawful (g : Guise) : Prop where
  isRest : ∀ n, (g.note n).isRest = n.isRest
  line : ∀ n, (g.note n).line = n.line
  length : ∀ n, (g.note n).soundingWholeNotes = n.soundingWholeNotes
  measure : ∀ n, (g.note n).measureNumber = n.measureNumber
  chordMeasure : ∀ c, (g.chord c).measureNumber = c.measureNumber
  ofPair : ∀ a b, g.chord (.ofPair a b) = .ofPair (g.note a) (g.note b)
  absorb : ∀ c n, g.chord (c.absorb n) = (g.chord c).absorb (g.note n)
  skip : ∀ duration staff voice measure line position,
    g.note { Note.skip duration staff voice measure line with positionInMeasure := position } =
      { Note.skip duration staff voice measure line with positionInMeasure := position }
  stanzas : g.stanzas [] = []
  slurDepth : g.slurDepth 0 = 0
  slurOpening : g.slurOpening none = none

/-! ## Elements in a guise -/

mutual

/-- A tuplet in a guise. -/
def Tuplet.guise (g : Guise) : Tuplet → Tuplet
  | ⟨number, actual, normal, divisions, staff, voice, measure, position, members, line⟩ =>
    ⟨number, actual, normal, g.tuplets divisions, staff, voice, measure, position,
      guiseMembers g members, line⟩

/-- A member of a tuplet in a guise. -/
def TupletMember.guise (g : Guise) : TupletMember → TupletMember
  | .note n => .note (g.note n)
  | .chord c => .chord (g.chord c)
  | .tuplet t => .tuplet (t.guise g)

/-- The members of a tuplet in a guise. -/
def guiseMembers (g : Guise) : List TupletMember → List TupletMember
  | [] => []
  | m :: ms => m.guise g :: guiseMembers g ms

end

mutual

/-- An element of a voice in a guise. -/
def VoiceElement.guise (g : Guise) : VoiceElement → VoiceElement
  | .note n => .note (g.note n)
  | .chord c => .chord (g.chord c)
  | .tuplet t => .tuplet (t.guise g)
  | .repeated r => .repeated (r.guise g)
  | e => e

/-- A repeat in a guise. -/
def Repeat.guise (g : Guise) : Repeat → Repeat
  | { body, endings, explicitStart, times? } =>
    { body := guiseElements g body, endings := guiseEndings g endings, explicitStart, times? }

/-- The elements of a voice in a guise. -/
def guiseElements (g : Guise) : List VoiceElement → List VoiceElement
  | [] => []
  | e :: es => e.guise g :: guiseElements g es

/-- The endings of a repeat in a guise. -/
def guiseEndings (g : Guise) : List Ending → List Ending
  | [] => []
  | { numbers, kind, chunk } :: endings =>
    { numbers, kind, chunk := guiseElements g chunk } :: guiseEndings g endings

end

section

variable {g : Guise}

/-- Members are shown in a guise one by one. -/
theorem guiseMembers_eq (ms : List TupletMember) :
    guiseMembers g ms = ms.map (TupletMember.guise g) := by
  induction ms with
  | nil => rfl
  | cons m ms ih => rw [guiseMembers, ih, List.map_cons]

/-- Elements are shown in a guise one by one. -/
theorem guiseElements_eq (es : List VoiceElement) :
    guiseElements g es = es.map (VoiceElement.guise g) := by
  induction es with
  | nil => rfl
  | cons e es ih => rw [guiseElements, ih, List.map_cons]

/-- An ending in a guise. -/
def Ending.guise (g : Guise) (ending : Ending) : Ending :=
  { ending with chunk := ending.chunk.map (VoiceElement.guise g) }

/-- Endings are shown in a guise one by one. -/
theorem guiseEndings_eq (endings : List Ending) :
    guiseEndings g endings = endings.map (Ending.guise g) := by
  induction endings with
  | nil => rfl
  | cons ending endings ih =>
    obtain ⟨numbers, kind, chunk⟩ := ending
    rw [guiseEndings, ih, List.map_cons, guiseElements_eq]
    rfl

end

/-! ## Tuplets -/

namespace Tuplet

variable {g : Guise} (t : Tuplet)

/-- A tuplet in a guise has its divisions and its members in the guise, and is the same otherwise.
-/
theorem guise_eq : t.guise g =
    { t with
      divisionsPerWhole := g.tuplets t.divisionsPerWhole
      members := t.members.map (TupletMember.guise g) } := by
  cases t
  rw [guise, guiseMembers_eq]

/-- A tuplet keeps its number in a guise. -/
@[simp] theorem number_guise : (t.guise g).number = t.number := by rw [guise_eq]

/-- A tuplet is of the same voice in a guise. -/
@[simp] theorem key_guise : (t.guise g).key = t.key := by
  rw [guise_eq]
  rfl

/-- A tuplet stands in the same measure in a guise. -/
@[simp] theorem measureNumber_guise : (t.guise g).measureNumber = t.measureNumber := by
  rw [guise_eq]

/-- A tuplet has members in a guise if it has any. -/
theorem isEmpty_guise : (t.guise g).members.isEmpty = t.members.isEmpty := by
  rw [guise_eq, List.isEmpty_map]

/-- One more member comes to the end in any guise. -/
theorem append_guise (m : TupletMember) : (t.append m).guise g = (t.guise g).append (m.guise g) := by
  rw [guise_eq, guise_eq, append, append, List.map_append]
  rfl

end Tuplet

/-! ## Joining -/

namespace Guise.Lawful

variable {g : Guise} (n : Note) (chordOpen : Bool)

mutual

/-- A note joins a member of a tuplet in any guise. -/
theorem join_member (hg : g.Lawful) (m : TupletMember) :
    (m.guise g).join (g.note n) chordOpen = (m.join n chordOpen).map (TupletMember.guise g) := by
  match m with
  | .note first =>
    rw [TupletMember.guise, TupletMember.join, TupletMember.join, hg.isRest]
    split
    · rfl
    · rw [← hg.ofPair]
      rfl
  | .chord c =>
    rw [TupletMember.guise, TupletMember.join, TupletMember.join]
    split
    · rw [← hg.absorb]
      rfl
    · rfl
  | .tuplet t =>
    rw [TupletMember.guise, TupletMember.join, TupletMember.join, join_tuplet hg t]
    cases t.join n chordOpen <;> rfl

/-- A note joins a tuplet in any guise. -/
theorem join_tuplet (hg : g.Lawful) (t : Tuplet) :
    (t.guise g).join (g.note n) chordOpen = (t.join n chordOpen).map (Tuplet.guise g) := by
  match t with
  | ⟨_, _, _, _, _, _, _, _, members, _⟩ =>
    rw [Tuplet.guise, Tuplet.join, Tuplet.join, join_members hg members]
    cases joinLastMember n chordOpen members <;> rfl

/-- A note joins the last member in any guise. -/
theorem join_members (hg : g.Lawful) (ms : List TupletMember) :
    joinLastMember (g.note n) chordOpen (guiseMembers g ms) =
      (joinLastMember n chordOpen ms).map (guiseMembers g) := by
  match ms with
  | [] => rfl
  | [m] =>
    rw [guiseMembers, guiseMembers, joinLastMember, joinLastMember, join_member hg m]
    cases m.join n chordOpen <;> rfl
  | m :: m' :: ms =>
    have hrest := join_members hg (m' :: ms)
    show (joinLastMember (g.note n) chordOpen (guiseMembers g (m' :: ms))).map (m.guise g :: ·) =
      ((joinLastMember n chordOpen (m' :: ms)).map (m :: ·)).map (guiseMembers g)
    rw [hrest]
    cases joinLastMember n chordOpen (m' :: ms) <;> rfl

end

/-- A note joins an element of a voice in any guise. -/
theorem join_element (hg : g.Lawful) (e : VoiceElement) :
    (e.guise g).join (g.note n) chordOpen = (e.join n chordOpen).map (VoiceElement.guise g) := by
  cases e with
  | note first =>
    rw [VoiceElement.guise, VoiceElement.join, VoiceElement.join, hg.isRest]
    split
    · rfl
    · rw [← hg.ofPair]
      rfl
  | chord c =>
    rw [VoiceElement.guise, VoiceElement.join, VoiceElement.join]
    split
    · rw [← hg.absorb]
      rfl
    · rfl
  | tuplet t =>
    rw [VoiceElement.guise, VoiceElement.join, VoiceElement.join, join_tuplet n chordOpen hg]
    cases t.join n chordOpen <;> rfl
  | _ => rfl

/-- A note joins the last element in any guise. -/
theorem joinLast_map (hg : g.Lawful) (es : List VoiceElement) :
    joinLast (g.note n) chordOpen (es.map (VoiceElement.guise g)) =
      (joinLast n chordOpen es).map (List.map (VoiceElement.guise g)) := by
  match es with
  | [] => rfl
  | [e] =>
    rw [List.map_cons, List.map_nil, joinLast, joinLast, join_element n chordOpen hg]
    cases e.join n chordOpen <;> rfl
  | e :: e' :: es =>
    have hrest := joinLast_map hg (e' :: es)
    show (joinLast (g.note n) chordOpen ((e' :: es).map (VoiceElement.guise g))).map
        (e.guise g :: ·) =
      ((joinLast n chordOpen (e' :: es)).map (e :: ·)).map (List.map (VoiceElement.guise g))
    rw [hrest]
    cases joinLast n chordOpen (e' :: es) <;> rfl

end Guise.Lawful

/-! ## Measures of elements -/

namespace Guise.Lawful

variable {g : Guise}

mutual

/-- An element stands in the same measure in a guise. -/
theorem measureNumber?_element (hg : g.Lawful) (e : VoiceElement) :
    (e.guise g).measureNumber? = e.measureNumber? := by
  match e with
  | .note n => exact congrArg some (hg.measure n)
  | .chord c => exact congrArg some (hg.chordMeasure c)
  | .tuplet t => exact congrArg some t.measureNumber_guise
  | .repeated r => exact measureNumber?_repeat hg r
  | .barline _ => rfl
  | .clef _ => rfl
  | .key _ => rfl
  | .time _ => rfl
  | .direction _ => rfl
  | .barCheck _ => rfl

/-- A repeat begins in the same measure in a guise. -/
theorem measureNumber?_repeat (hg : g.Lawful) (r : Repeat) :
    (r.guise g).measureNumber? = r.measureNumber? := by
  match r with
  | ⟨body, _, _, _⟩ => exact firstMeasureNumber?_guise hg body

/-- The first of some elements that names a measure names the same one in a guise. -/
theorem firstMeasureNumber?_guise (hg : g.Lawful) (es : List VoiceElement) :
    firstMeasureNumber? (guiseElements g es) = firstMeasureNumber? es := by
  match es with
  | [] => rfl
  | e :: es =>
    rw [guiseElements, firstMeasureNumber?, firstMeasureNumber?, measureNumber?_element hg e,
      firstMeasureNumber?_guise hg es]

end

end Guise.Lawful

/-- A chunk opens with the same barline in any guise. -/
theorem firstBarline?_guise {g : Guise} (chunk : List VoiceElement) :
    firstBarline? (chunk.map (VoiceElement.guise g)) = firstBarline? chunk := by
  cases chunk with
  | nil => rfl
  | cons e es => cases e <;> rfl

/-! ## Repeats -/

namespace Repeat

variable {g : Guise} (r : Repeat)

/-- A repeat in a guise has its body and its endings in the guise. -/
theorem guise_eq : r.guise g =
    { r with
      body := r.body.map (VoiceElement.guise g)
      endings := r.endings.map (Ending.guise g) } := by
  cases r
  rw [guise, guiseElements_eq, guiseEndings_eq]

/-- A chunk comes behind the last ending in any guise. -/
theorem extendLastEnding_guise (chunk : List VoiceElement) (endings : List Ending) :
    (extendLastEnding chunk endings).map (Ending.guise g) =
      extendLastEnding (chunk.map (VoiceElement.guise g)) (endings.map (Ending.guise g)) := by
  match endings with
  | [] => rfl
  | [ending] => simp [extendLastEnding, Ending.guise]
  | ending :: next :: endings =>
    exact congrArg (ending.guise g :: ·) (extendLastEnding_guise chunk (next :: endings))

/-- A repeat that goes on goes on alike in a guise. -/
theorem extend_guise (chunk : List VoiceElement) :
    (r.extend chunk).guise g = (r.guise g).extend (chunk.map (VoiceElement.guise g)) := by
  rw [guise_eq, guise_eq]
  unfold extend
  dsimp only
  rw [List.isEmpty_map]
  split
  · simp only [List.map_append]
  · simp only [extendLastEnding_guise]

/-- An ending that is added to a repeat is added to it in a guise. -/
theorem addEnding_guise (ending : Ending) :
    (r.addEnding ending).guise g = (r.guise g).addEnding (ending.guise g) := by
  simp only [guise_eq, addEnding, List.map_append, List.map_cons, List.map_nil]

end Repeat

/-- A repeat gets the same start in any guise. -/
theorem Guise.Lawful.withImplicitStart {g : Guise} (hg : g.Lawful) (r : Repeat) (measure : String) :
    (r.withImplicitStart measure).guise g = (r.guise g).withImplicitStart measure := by
  have hmeasure : firstMeasureNumber? (r.body.map (VoiceElement.guise g)) =
      firstMeasureNumber? r.body := by
    rw [← guiseElements_eq, hg.firstMeasureNumber?_guise]
  simp only [Repeat.guise_eq, Repeat.withImplicitStart, hmeasure, List.map_cons]
  rfl

/-! ## Voices -/

/-- A voice in a guise, in other divisions. -/
def Voice.guise (g : Guise) (divisions : Nat → Nat) (v : Voice) : Voice :=
  { v with
    elements := v.elements.map (VoiceElement.guise g)
    chunk := v.chunk.map (VoiceElement.guise g)
    pending? := v.pending?.map (Repeat.guise g)
    divisionsPerWhole := divisions v.divisionsPerWhole
    stanzas := g.stanzas v.stanzas
    slurDepth := g.slurDepth v.slurDepth
    slurOpening? := g.slurOpening v.slurOpening? }

namespace Voice

variable {g : Guise} {divisions : Nat → Nat} (v : Voice)

/-- A voice keeps its key in a guise. -/
@[simp] theorem key_guise : (v.guise g divisions).key = v.key := rfl

/-- An element that is put at the end of a voice is so in a guise. -/
theorem append_guise (e : VoiceElement) :
    (v.append e).guise g divisions = (v.guise g divisions).append (e.guise g) := by
  simp only [guise, append, List.map_append, List.map_cons, List.map_nil]

/-- What a voice has collected moves to its elements in a guise as well. -/
theorem flush_guise : v.flush.guise g divisions = (v.guise g divisions).flush := by
  simp only [guise, flush, List.map_append, List.map_nil]

/-- In a guise a voice is collecting its content in the guise. -/
theorem collecting_guise : (v.guise g divisions).collecting = v.collecting.guise g := by
  cases h : v.pending? <;> simp [collecting, guise, h, Repeat.opened, Repeat.guise_eq]

/-- What a voice has collected moves into its repeat in a guise as well. -/
theorem moveIntoRepeat_guise :
    v.moveIntoRepeat.guise g divisions = (v.guise g divisions).moveIntoRepeat := by
  have hextend := v.collecting.extend_guise v.chunk (g := g)
  simp only [moveIntoRepeat, collecting_guise]
  simp only [guise, List.map_nil, Option.map_some, hextend]

/-- A voice closes an ending alike in a guise. -/
theorem closeEnding_guise (closing : Barline) (kind : EndingKind) :
    (v.closeEnding closing kind).guise g divisions =
      (v.guise g divisions).closeEnding closing kind := by
  have hchunk : (v.guise g divisions).chunk = v.chunk.map (VoiceElement.guise g) := rfl
  simp only [closeEnding, collecting_guise, hchunk, firstBarline?_guise]
  simp only [guise, List.map_nil, Option.map_some, Repeat.addEnding_guise, Ending.guise]

/-- A voice closes a repeat alike in a guise, and the same is told of it. -/
theorem closeRepeat_guise (hg : g.Lawful) (explicitStart : Bool) (measure : String) :
    (v.guise g divisions).closeRepeat explicitStart measure =
      ((v.closeRepeat explicitStart measure).1.guise g divisions,
        (v.closeRepeat explicitStart measure).2) := by
  unfold closeRepeat
  have hpending : (v.guise g divisions).pending? = v.pending?.map (Repeat.guise g) := rfl
  rw [hpending]
  rcases v.pending? with _ | r
  · rfl
  · have hexplicit : (r.guise g).explicitStart = r.explicitStart := by rw [Repeat.guise_eq]
    have hendings : (r.guise g).endings.length = r.endings.length := by
      rw [Repeat.guise_eq, List.length_map]
    simp only [Option.map_some, hexplicit, hendings, ← hg.withImplicitStart, ← apply_ite]
    simp only [guise, List.map_append, List.map_cons, List.map_nil, Option.map_none,
      VoiceElement.guise]

/-- A voice is in an ending in a guise if it is in one. -/
theorem inEnding_guise : (v.guise g divisions).inEnding = v.inEnding := by
  have hchunk : (v.guise g divisions).chunk = v.chunk.map (VoiceElement.guise g) := rfl
  rw [inEnding, inEnding, hchunk, firstBarline?_guise]

/-- **A barline** does the same to a voice in any guise. -/
theorem takeBarline_guise (hg : g.Lawful) (b : Barline) (explicitStart : Bool) (measure : String) :
    (v.guise g divisions).takeBarline b explicitStart measure =
      ((v.takeBarline b explicitStart measure).1.guise g divisions,
        (v.takeBarline b explicitStart measure).2) := by
  have happend : (v.guise g divisions).append (.barline b) =
      (v.append (.barline b)).guise g divisions := (v.append_guise (.barline b)).symm
  unfold takeBarline
  rw [inEnding_guise, happend, ← closeEnding_guise, ← closeEnding_guise, collecting_guise]
  cases b.category with
  | standalone => rfl
  | repeatStart =>
    dsimp only
    rw [closeRepeat_guise _ hg]
    simp only [← flush_guise]
    rfl
  | endingStart =>
    dsimp only
    rw [← moveIntoRepeat_guise]
    rfl
  | hookedEndingEnd =>
    dsimp only
    split
    · rfl
    · exact closeRepeat_guise _ hg ..
  | hooklessEndingEnd => exact closeRepeat_guise _ hg ..
  | repeatEnd =>
    dsimp only
    split
    · rfl
    · rw [← closeRepeat_guise _ hg, moveIntoRepeat_guise, append_guise]
      simp only [guise, Option.map_some, Repeat.guise_eq]
      rfl

/-- **The end of a part** does the same to a voice in any guise. -/
theorem endRepeats_guise (hg : g.Lawful) (explicitStart : Bool) (measure : String) :
    (v.guise g divisions).endRepeats explicitStart measure =
      ((v.endRepeats explicitStart measure).1.guise g divisions,
        (v.endRepeats explicitStart measure).2) := by
  unfold endRepeats
  have hpending : (v.guise g divisions).pending? = v.pending?.map (Repeat.guise g) := rfl
  rw [hpending]
  rcases v.pending? with _ | r
  · rfl
  · have hendings : (r.guise g).endings.isEmpty = r.endings.isEmpty := by
      rw [Repeat.guise_eq, List.isEmpty_map]
    simp only [Option.map_some, hendings, ← moveIntoRepeat_guise, ← apply_ite]
    exact closeRepeat_guise _ hg ..

/-- **A note joins** the last element of a voice in any guise. -/
theorem joinChord_guise (hg : g.Lawful) (divisions : Nat → Nat) (n : Note) (chordOpen : Bool) :
    (v.guise g divisions).joinChord (g.note n) chordOpen =
      (v.joinChord n chordOpen).map (Voice.guise g divisions) := by
  have hchunk : (v.guise g divisions).chunk = v.chunk.map (VoiceElement.guise g) := rfl
  unfold joinChord
  rw [hchunk, Guise.Lawful.joinLast_map n chordOpen hg]
  cases joinLast n chordOpen v.chunk <;> rfl

end Voice

/-! ## Parts -/

/-- Elements that keep their keys are put in the same places. -/
theorem map_upsert {α β κ : Type} [DecidableEq κ] (before : κ → κ → Bool) {key : α → κ}
    {key' : β → κ} (x : α) {f : α → β} (hf : ∀ x, key' (f x) = key x) (ys : List α) :
    (upsert before key x ys).map f = upsert before key' (f x) (ys.map f) := by
  induction ys with
  | nil => rfl
  | cons y ys ih =>
    rw [List.map_cons, upsert, upsert, hf, hf, apply_ite (List.map f), apply_ite (List.map f),
      List.map_cons, List.map_cons, List.map_cons, List.map_cons, ih]

/-- A part in a guise, in other divisions. -/
def Part.guise (g : Guise) (divisions : Nat → Nat) (p : Part) : Part :=
  { p with divisionsPerWhole := divisions p.divisionsPerWhole }.mapVoices (Voice.guise g divisions)

namespace Part

variable {g : Guise} {divisions : Nat → Nat} (p : Part)

/-- A part keeps its id in a guise. -/
@[simp] theorem id_guise : (p.guise g divisions).id = p.id := rfl

/-- A part keeps the keys of its voices in a guise. -/
theorem keys_guise : (p.guise g divisions).voices.map Voice.key = p.voices.map Voice.key := by
  simp [guise, mapVoices]

/-- A voice of a part in a guise is that voice in the guise. -/
theorem voice?_guise (key : VoiceKey) :
    (p.guise g divisions).voice? key = (p.voice? key).map (Voice.guise g divisions) :=
  voice?_mapVoices fun _ => rfl

/-- Voices that change alike in a guise make parts that are alike in it. -/
theorem mapVoices_guise {f f' : Voice → Voice}
    (hf : ∀ v, (f v).guise g divisions = f' (v.guise g divisions)) :
    (p.mapVoices f).guise g divisions = (p.guise g divisions).mapVoices f' := by
  have hvoices : p.voices.map (fun v => (f v).guise g divisions) =
      p.voices.map fun v => f' (v.guise g divisions) := List.map_congr_left fun v _ => hf v
  simp only [guise, mapVoices, List.map_map, Function.comp_def, hvoices]

/-- A voice that changes alike in a guise does so in a part in the guise. -/
theorem modifyVoice_guise {key : VoiceKey} {f f' : Voice → Voice}
    (hf : ∀ v, (f v).guise g divisions = f' (v.guise g divisions)) :
    (p.modifyVoice key f).guise g divisions = (p.guise g divisions).modifyVoice key f' :=
  p.mapVoices_guise fun v => by
    rw [apply_ite (Voice.guise g divisions), hf]
    rfl

/-- What a voice begins with is the same in any guise. -/
theorem opening_guise (staff : Nat) :
    (p.guise g divisions).opening staff = (p.opening staff).map (VoiceElement.guise g) := by
  have hsigns : ∀ {α : Type} (sign? : Option α) (f : α → VoiceElement),
      (∀ a, (f a).guise g = f a) →
        (sign?.toList.map f).map (VoiceElement.guise g) = sign?.toList.map f := by
    intro α sign? f hf
    cases sign? with
    | none => rfl
    | some a => exact congrArg (fun e => [e]) (hf a)
  have hopening : (p.guise g divisions).opening staff = p.opening staff := rfl
  rw [hopening, opening, List.map_append, List.map_append, hsigns _ _ fun _ => rfl,
    hsigns _ _ fun _ => rfl, hsigns _ _ fun _ => rfl]

/-- A voice that is new begins with the same signs in a guise. -/
theorem newVoice_guise (hg : g.Lawful) (key : VoiceKey) :
    (p.newVoice key).guise g divisions = (p.guise g divisions).newVoice key := by
  have hsung : (Voice.empty key.voice key.staff p.divisionsPerWhole).guise g divisions =
      Voice.empty key.voice key.staff (divisions p.divisionsPerWhole) := by
    simp [Voice.guise, Voice.empty, hg.stanzas, hg.slurDepth, hg.slurOpening]
  have hsame : ∀ (v : Voice) (es : List VoiceElement),
      Voice.guise g divisions { v with chunk := es } =
        { v.guise g divisions with chunk := es.map (VoiceElement.guise g) } := fun _ _ => rfl
  rw [newVoice, newVoice, hsame, hsung, opening_guise]
  rfl

/-- A voice begins in a part in a guise where it begins in the part. -/
theorem ensureVoice_guise (hg : g.Lawful) (key : VoiceKey) :
    (p.ensureVoice key).guise g divisions = (p.guise g divisions).ensureVoice key := by
  have hthere : ((p.guise g divisions).voice? key).isSome = (p.voice? key).isSome := by
    rw [voice?_guise, Option.isSome_map]
  have hvoices : (upsert VoiceKey.before Voice.key (p.newVoice key) p.voices).map
      (Voice.guise g divisions) =
        upsert VoiceKey.before Voice.key ((p.guise g divisions).newVoice key)
          (p.voices.map (Voice.guise g divisions)) := by
    rw [← newVoice_guise p hg]
    exact map_upsert VoiceKey.before _ Voice.key_guise p.voices
  unfold ensureVoice
  rw [hthere]
  split
  · rfl
  · simp only [guise, mapVoices, hvoices]

/-- A key comes into force alike in a guise. -/
theorem withKey_guise (key : Key) :
    (p.withKey key).guise g divisions = (p.guise g divisions).withKey key :=
  mapVoices_guise { p with key? := some key } fun v => v.append_guise (.key key)

/-- A time comes into force alike in a guise. -/
theorem withTime_guise (time : Time) :
    (p.withTime time).guise g divisions = (p.guise g divisions).withTime time :=
  mapVoices_guise { p with time? := some time } fun v => v.append_guise (.time time)

/-- A clef comes into force alike in a guise. -/
theorem withClef_guise (clef : Clef) :
    (p.withClef clef).guise g divisions = (p.guise g divisions).withClef clef :=
  mapVoices_guise (p.setClef clef) fun v => by
    rw [apply_ite (Voice.guise g divisions), v.append_guise]
    rfl

/-- Divisions that come into force are shown in their own way, whatever was in force. -/
theorem withDivisions_guise (perWhole : Nat) (divisions' : Nat → Nat) :
    (p.withDivisions perWhole).guise g divisions' =
      (p.guise g divisions).withDivisions (divisions' perWhole) := by
  simp only [withDivisions, guise, mapVoices, List.map_map]
  rfl

/-- All voices stand at the start of a measure in a guise, too. -/
theorem restart_guise (number : String) :
    ({ p with measureNumber := number }.mapVoices fun v =>
        { v with positionInMeasure := 0 }).guise g divisions =
      { p.guise g divisions with measureNumber := number }.mapVoices fun v =>
        { v with positionInMeasure := 0 } := by
  refine mapVoices_guise { p with measureNumber := number } ?_
  intro v
  rfl

end Part

/-! ## Scores -/

mutual

/-- A group whose parts are shown in some way. -/
def PartGroup.mapParts (f : Part → Part) : PartGroup → PartGroup
  | { id, name?, abbreviation?, symbol, orderingKey?, barline, isImplicit, members, line } =>
    { id, name?, abbreviation?, symbol, orderingKey?, barline, isImplicit
      members := mapPartsOfMembers f members
      line }

/-- A member of a group whose parts are shown in some way. -/
def GroupMember.mapParts (f : Part → Part) : GroupMember → GroupMember
  | .group g => .group (g.mapParts f)
  | .part p => .part (f p)

/-- Members of a group whose parts are shown in some way. -/
def mapPartsOfMembers (f : Part → Part) : List GroupMember → List GroupMember
  | [] => []
  | m :: ms => m.mapParts f :: mapPartsOfMembers f ms

end

/-- A score whose parts are shown in some way. -/
def Score.mapParts (f : Part → Part) (s : Score) : Score :=
  { s with groups := s.groups.map (PartGroup.mapParts f) }

section

variable {f : Part → Part} (hf : ∀ p, (f p).id = p.id)

include hf

/-- The other parts are the same if all parts are changed first, as long as they keep their ids. -/
theorem filter_id_map (id : String) (parts : List Part) :
    (parts.map f).filter (fun part => part.id ≠ id) =
      (parts.filter fun part => part.id ≠ id).map f := by
  rw [List.filter_map]
  simp only [Function.comp_def, hf]

/-- The part of an id is changed if all parts are, as long as they keep their ids. -/
theorem find?_id_map (id : String) (parts : List Part) :
    (parts.map f).find? (fun part => part.id = id) =
      (parts.find? fun part => part.id = id).map f := by
  rw [List.find?_map]
  simp only [Function.comp_def, hf]

end

mutual

/-- A draft is completed from parts that are shown in some way. -/
theorem GroupDraft.assemble_map {f : Part → Part} (hf : ∀ p, (f p).id = p.id) (parts : List Part)
    (draft : GroupDraft) :
    draft.assemble (parts.map f) =
      (draft.assemble parts).map fun a => (a.1.mapParts f, a.2.map f) := by
  match draft with
  | ⟨heading, members, _⟩ =>
    rw [GroupDraft.assemble, GroupDraft.assemble, assembleMembers_map hf]
    cases assembleMembers heading.line parts members <;> rfl

/-- A member of a group is put together from changed parts to what it would be, changed. -/
theorem DraftMember.assemble_map {f : Part → Part} (hf : ∀ p, (f p).id = p.id) (line : Nat)
    (parts : List Part) (member : DraftMember) :
    member.assemble line (parts.map f) =
      (member.assemble line parts).map fun a => (a.1.mapParts f, a.2.map f) := by
  match member with
  | .part id _ =>
    rw [DraftMember.assemble, DraftMember.assemble, find?_id_map hf, filter_id_map hf]
    cases parts.find? fun part => part.id = id <;> rfl
  | .group draft =>
    rw [DraftMember.assemble, DraftMember.assemble, GroupDraft.assemble_map hf parts draft]
    cases draft.assemble parts <;> rfl

/-- Members of a group are put together from changed parts to what they would be, changed. -/
theorem assembleMembers_map {f : Part → Part} (hf : ∀ p, (f p).id = p.id) (line : Nat)
    (parts : List Part) (members : List DraftMember) :
    assembleMembers line (parts.map f) members =
      (assembleMembers line parts members).map fun a => (mapPartsOfMembers f a.1, a.2.map f) := by
  match members with
  | [] => rfl
  | m :: ms =>
    rw [assembleMembers, assembleMembers, DraftMember.assemble_map hf line parts m]
    rcases m.assemble line parts with _ | ⟨member, left⟩
    · rfl
    · have hrest := assembleMembers_map hf line left ms
      show (assembleMembers line (left.map f) ms >>= fun a =>
          .ok (member.mapParts f :: a.1, a.2)) =
        (assembleMembers line left ms >>= fun a => .ok (member :: a.1, a.2)).map _
      rw [hrest]
      rcases assembleMembers line left ms with _ | ⟨members, left'⟩ <;> rfl

end

/-- **A score is put together** from parts that are shown in some way as it is from the parts
themselves. -/
theorem assembleGroups_map {f : Part → Part} (hf : ∀ p, (f p).id = p.id) (parts : List Part)
    (drafts : List GroupDraft) :
    assembleGroups (parts.map f) drafts =
      (assembleGroups parts drafts).map (List.map (PartGroup.mapParts f)) := by
  induction drafts generalizing parts with
  | nil => rfl
  | cons draft drafts ih =>
    rw [assembleGroups, assembleGroups, draft.assemble_map hf parts]
    rcases draft.assemble parts with _ | ⟨group, left⟩
    · rfl
    · show (assembleGroups (left.map f) drafts >>= fun groups =>
          .ok (group.mapParts f :: groups)) =
        (assembleGroups left drafts >>= fun groups => .ok (group :: groups)).map _
      rw [ih]
      rcases assembleGroups left drafts with _ | groups <;> rfl

end Partwise
