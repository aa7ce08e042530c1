import Partwise.Proofs.Reading.Abreast

/-!
# Reading · Invariants: what holds of every part at all times

While music is read, a voice is `Edited` in a few ways: it moves, it is given an element, its last
element becomes a chord, barlines and the end of the part move its content about, and it remembers
what it has sung. Signs are put into all voices of a part at once. All this may keep a property of
parts (`PartKeeps`); if parts have it when they are declared, it is a `PartInvariant`.

Two readings that are alike stay so if the parts of the first one must keep an invariant besides
(`Likeness.keeping`). A reading whose parts keep it is the same as itself, so the invariant holds
before and after every move of a document (`PartInvariant.trail`), and of its score
(`PartInvariant.score`). What is only kept holds from some reading on (`PartKeeps.follows`).
-/

namespace Partwise

open Markup

/-! ## Edits -/

/-- The element is one that a voice is given, without all voices being given the same: no sign, no
barline and no repeat. -/
def VoiceElement.isGiven : VoiceElement → Bool
  | note _ | chord _ | tuplet _ | direction _ | barCheck _ => true
  | _ => false

/-- The voice becomes another one while music is read. -/
inductive Voice.Edited (v : Voice) : Voice → Prop
  | place {position : WholeNotes} (fits : position.InWords) :
      v.Edited { v with positionInMeasure := position }
  | append {e : VoiceElement} (given : e.isGiven) : v.Edited (v.append e)
  | joinChord {n : Note} {chordOpen : Bool} {w : Voice} (joined : v.joinChord n chordOpen = .ok w) :
      v.Edited w
  | takeBarline (b : Barline) (explicitStart : Bool) (measure : String) :
      v.Edited (v.takeBarline b explicitStart measure).1
  | endRepeats (explicitStart : Bool) (measure : String) :
      v.Edited (v.endRepeats explicitStart measure).1
  | flush (none : v.pending? = none) : v.Edited v.flush
  | sing (n : Note) (lyrics : List Lyric) : v.Edited (v.sing n lyrics).1
  | markSlurs (slurs : List Slur) (kind : LyricKind) : v.Edited (v.markSlurs slurs kind)

/-- A voice that is edited keeps its key. -/
theorem Voice.Edited.key {v w : Voice} (h : v.Edited w) : w.key = v.key := by
  cases h with
  | joinChord joined => exact (Voice.of_joinChord joined).2.1
  | takeBarline => exact (v.like_takeBarline ..).key
  | endRepeats => exact (v.like_endRepeats ..).key
  | sing => exact (v.still_sing ..).1.key
  | markSlurs => exact (v.still_markSlurs ..).key
  | _ => rfl

/-! ## Invariants -/

/-- What reading music does to a part keeps the property. -/
structure PartKeeps (I : Part → Prop) : Prop where
  ensureVoice : ∀ {p} key, I p → I (p.ensureVoice key)
  edit : ∀ {p} {f : Voice → Voice}, I p → (∀ v ∈ p.voices, v.Edited (f v) ∨ f v = v) →
    I (p.mapVoices f)
  ensureStaves : ∀ {p} count, I p → I (p.ensureStaves count)
  enterMeasure : ∀ {p} number, I p → I { p with measureNumber := number }
  withKey : ∀ {p} key, I p → I (p.withKey key)
  withTime : ∀ {p} time, I p → I (p.withTime time)
  withClef : ∀ {p} clef, I p → I (p.withClef clef)
  withDivisions : ∀ {p} {perWhole}, DivisionsFit perWhole → I p → I (p.withDivisions perWhole)

/-- Parts have the property when they are declared, and reading music keeps it. -/
structure PartInvariant (I : Part → Prop) : Prop extends PartKeeps I where
  declare : ∀ e id, I (Part.ofElement e id)

/-! ## Readings that are the same -/

namespace Likeness

/-- Readings are alike that are the same. -/
def same : Likeness where
  heeds _ := true
  fails f g := f = g
  lenient := False
  here p q := p = q
  there p q := p = q
  tuplet t u := t = u
  note m n := m = n
  marks a b := a = b
  element e f := e = f

/-- That readings are the same goes together with everything that reading does. -/
theorem same_lawful : same.Lawful where
  failure _ := rfl
  deaf h := absurd trivial h
  id h := congrArg Part.id h
  leave h := h
  keys h := congrArg (fun p : Part => p.voices.map Voice.key) h
  pending _ h := congrArg (fun p : Part => p.voices.countP fun v => v.pending?.isSome) h
  position := by
    rintro p _ key v w rfl hv hw
    cases hv.symm.trans hw
    rfl
  ensureVoice {_ _ key} h := congrArg (Part.ensureVoice · key) h
  placeVoice {_ _ key position} _ h := congrArg
    (fun p : Part => p.modifyVoice key fun v => { v with positionInMeasure := position }) h
  append := by
    rintro p _ key e _ rfl rfl
    rfl
  addRest {_ _ key duration measure line} h := congrArg (fun p : Part => p.modifyVoice key fun v =>
    v.append (.note (skipRest v duration measure line))) h
  joinVoice := by
    rintro p _ key v w n _ chordOpen rfl hv hw rfl
    cases hv.symm.trans hw
    cases v.joinChord n chordOpen with
    | error => exact .error
    | ok v' => exact .ok rfl
  withKey := by
    rintro p _ key key' rfl heq
    cases heq trivial
    rfl
  withTime := by
    rintro p _ time time' rfl heq
    cases heq trivial
    rfl
  withClef := by
    rintro p _ clef clef' rfl heq _
    cases heq trivial
    rfl
  ensureStaves {_ _ count} h := congrArg (Part.ensureStaves · count) h
  restart := by
    rintro p _ number rfl
    rfl
  takeBarline := by
    rintro p _ b b' explicitStart explicitStart' measure rfl heq
    obtain ⟨rfl, rfl⟩ := heq trivial
    rfl
  close := by
    rintro p _ explicitStart explicitStart' measure rfl heq
    cases heq trivial
    rfl
  noteSame _ _ := rfl
  noteLine h := congrArg Note.line h
  noteLength h := congrArg Note.soundingWholeNotes h
  elementNote h := congrArg VoiceElement.note h
  elementTuplet h := congrArg VoiceElement.tuplet h
  elementDirection _ := rfl
  tupletKey h := congrArg Tuplet.key h
  tupletNumber h := congrArg Tuplet.number h
  tupletEmpty h := congrArg (fun t : Tuplet => t.members.isEmpty) h
  tupletNote := by
    rintro t _ n _ rfl rfl
    rfl
  tupletInner := by
    rintro t _ u _ rfl rfl
    rfl
  tupletJoin := by
    rintro t _ n _ chordOpen rfl rfl
    cases t.join n chordOpen with
    | error => exact .error
    | ok => exact .ok rfl
  queue h := congrArg (· ++ _) h

/-- That readings are the same goes together with whole documents. -/
theorem same_uniform : same.Uniform where
  toLawful := same_lawful
  enter h := h
  declare _ _ _ := rfl
  elementCheck _ := rfl
  noMarks := rfl
  unknown _ := id
  opens := by
    rintro p _ rfl _ _ _ _ _
    rfl
  divisions h := congrArg Part.divisionsPerWhole h
  withDivisions {_ _ perWhole} _ h := congrArg (Part.withDivisions · perWhole) h

/-- Voices that are the same sing the same. -/
theorem same_sings : same.Sings where
  strict := trivial
  note h := h
  sameNote _ := rfl
  marks h := h
  noMarks := rfl
  sung := by
    rintro p _ key v w n lyrics rfl hv hw
    cases hv.symm.trans hw
    rfl
  sing := by
    rintro p _ key v w n lyrics rfl hv hw
    cases hv.symm.trans hw
    rfl
  markSlurs {_ _ key} slurs kind h :=
    congrArg (fun p : Part => p.modifyVoice key fun v => v.markSlurs slurs kind) h

/-- Readings are alike as before, and the parts of the first one keep the property. -/
def keeping (L : Likeness) (I : Part → Prop) : Likeness :=
  { L with
    here := fun p q => L.here p q ∧ I p ∧ p.Keyed
    there := fun p q => L.there p q ∧ I p ∧ p.Keyed
    element := fun e f => L.element e f ∧ e.isGiven }

end Likeness

namespace PartKeeps

variable {I : Part → Prop}

/-- A part keeps the invariant when all its voices are edited. -/
theorem mapVoices (hI : PartKeeps I) {p : Part} {f : Voice → Voice} (h : I p ∧ p.Keyed)
    (hf : ∀ v ∈ p.voices, v.Edited (f v) ∨ f v = v) :
    I (p.mapVoices f) ∧ (p.mapVoices f).Keyed := by
  refine ⟨hI.edit h.1 hf, ?_⟩
  have hkeys : (p.mapVoices f).voices.map Voice.key = p.voices.map Voice.key := by
    rw [Part.mapVoices, List.map_map]
    refine List.map_congr_left fun v hv => ?_
    rcases hf v hv with hedited | hsame
    · exact hedited.key
    · exact congrArg Voice.key hsame
  rw [Part.Keyed, hkeys]
  exact h.2

/-- A part keeps the invariant when the voices with a key are edited. -/
theorem modifyVoice (hI : PartKeeps I) {p : Part} {key : VoiceKey} {f : Voice → Voice}
    (h : I p ∧ p.Keyed) (hf : ∀ v ∈ p.voices, v.key = key → v.Edited (f v)) :
    I (p.modifyVoice key f) ∧ (p.modifyVoice key f).Keyed := by
  refine hI.mapVoices h fun v hv => ?_
  split
  · next hkey => exact .inl (hf v hv hkey)
  · exact .inr rfl

/-- A part keeps the invariant when a voice becomes what it was edited to. -/
theorem setVoice (hI : PartKeeps I) {p : Part} {key : VoiceKey} {v w : Voice}
    (h : I p ∧ p.Keyed) (hv : p.voice? key = some v) (hedited : v.Edited w) :
    I (p.modifyVoice key fun _ => w) ∧ (p.modifyVoice key fun _ => w).Keyed := by
  refine hI.modifyVoice h fun u hu hkey => ?_
  have hfound := h.2.voice?_of_mem hu
  rw [hkey, hv] at hfound
  rwa [← Option.some.inj hfound]

end PartKeeps

/-! ## Readings that keep an invariant -/

namespace Likeness

variable {L : Likeness} {I : Part → Prop}

/-- A likeness stays lawful if the parts of the first reading must keep a property that reading
keeps. -/
theorem Lawful.keeping (hL : L.Lawful) (hI : PartKeeps I) : (L.keeping I).Lawful where
  failure := hL.failure
  deaf := hL.deaf
  id h := hL.id h.1
  leave h := ⟨hL.leave h.1, h.2⟩
  keys h := hL.keys h.1
  pending hs h := hL.pending hs h.1
  position h := hL.position h.1
  ensureVoice {_ _ key} h :=
    ⟨hL.ensureVoice h.1, hI.ensureVoice key h.2.1, h.2.2.ensureVoice key⟩
  placeVoice hposition h :=
    ⟨hL.placeVoice hposition h.1, hI.modifyVoice h.2 fun _ _ _ => .place hposition⟩
  append h he := ⟨hL.append h.1 he.1, hI.modifyVoice h.2 fun _ _ _ => .append he.2⟩
  addRest h := ⟨hL.addRest h.1, hI.modifyVoice h.2 fun _ _ _ => .append rfl⟩
  joinVoice {p q key v w n n'} chordOpen h hv hw hn := by
    have houtcomes := hL.joinVoice chordOpen h.1 hv hw hn
    generalize hjoin : v.joinChord n chordOpen = x at houtcomes
    generalize w.joinChord n' chordOpen = y at houtcomes
    cases houtcomes with
    | ok hjoined => exact .ok ⟨hjoined, hI.setVoice h.2 hv (.joinChord hjoin)⟩
    | error => exact .error
  withKey h heq :=
    ⟨hL.withKey h.1 heq, hI.withKey _ h.2.1, h.2.2.of_map rfl fun _ => rfl⟩
  withTime h heq :=
    ⟨hL.withTime h.1 heq, hI.withTime _ h.2.1, h.2.2.of_map rfl fun _ => rfl⟩
  withClef h heq hstaff :=
    ⟨hL.withClef h.1 heq hstaff, hI.withClef _ h.2.1, h.2.2.of_map rfl fun v => by split <;> rfl⟩
  ensureStaves h := ⟨hL.ensureStaves h.1, hI.ensureStaves _ h.2.1, h.2.2⟩
  restart {_ _ number} h :=
    ⟨hL.restart h.1, hI.mapVoices ⟨hI.enterMeasure number h.2.1, h.2.2⟩ fun _ _ =>
      .inl (.place WholeNotes.inWords_zero)⟩
  takeBarline {_ _ b _ explicitStart _ measure} h heq :=
    ⟨hL.takeBarline h.1 heq,
      hI.mapVoices h.2 fun _ _ => .inl (.takeBarline b explicitStart measure)⟩
  close {_ _ explicitStart _ measure} h heq := by
    have hended := hI.mapVoices h.2 fun v _ => .inl (.endRepeats explicitStart measure)
    refine ⟨hL.close h.1 heq, hI.mapVoices hended fun v hv => ?_⟩
    obtain ⟨w, _, rfl⟩ := List.mem_map.mp hv
    exact .inl (.flush (w.pending?_endRepeats ..))
  noteSame := hL.noteSame
  noteLine := hL.noteLine
  noteLength := hL.noteLength
  elementNote h := ⟨hL.elementNote h, rfl⟩
  elementTuplet h := ⟨hL.elementTuplet h, rfl⟩
  elementDirection d := ⟨hL.elementDirection d, rfl⟩
  tupletKey := hL.tupletKey
  tupletNumber := hL.tupletNumber
  tupletEmpty := hL.tupletEmpty
  tupletNote := hL.tupletNote
  tupletInner := hL.tupletInner
  tupletJoin := hL.tupletJoin
  queue := hL.queue

/-- A likeness for whole documents stays one if the parts of the first reading must keep an
invariant. -/
theorem Uniform.keeping (hL : L.Uniform) (hI : PartInvariant I) : (L.keeping I).Uniform where
  toLawful := hL.toLawful.keeping hI.toPartKeeps
  enter h := ⟨hL.enter h.1, h.2⟩
  declare e id hknown := ⟨hL.declare e id hknown, hI.declare e id, .nil⟩
  elementCheck next? := ⟨hL.elementCheck next?, rfl⟩
  noMarks := hL.noMarks
  unknown := hL.unknown
  opens h := hL.opens h.1
  divisions h := hL.divisions h.1
  withDivisions hfit h :=
    ⟨hL.withDivisions hfit h.1, hI.withDivisions hfit h.2.1, h.2.2.of_map rfl fun _ => rfl⟩

/-- Voices sing alike as before if the parts of the first reading must keep a property that reading
keeps. -/
theorem Sings.keeping (hS : L.Sings) (hI : PartKeeps I) : (L.keeping I).Sings where
  strict := hS.strict
  note := hS.note
  sameNote := hS.sameNote
  marks := hS.marks
  noMarks := hS.noMarks
  sung n lyrics h := hS.sung n lyrics h.1
  sing n lyrics h hv hw := ⟨hS.sing n lyrics h.1 hv hw, hI.setVoice h.2 hv (.sing n lyrics)⟩
  markSlurs slurs kind h :=
    ⟨hS.markSlurs slurs kind h.1, hI.modifyVoice h.2 fun _ _ _ => .markSlurs slurs kind⟩

end Likeness

namespace PartInvariant

variable {I : Part → Prop}

/-- Readings are alike that are the same, if all their parts keep the invariant. -/
def likeness (I : Part → Prop) : Likeness := Likeness.same.keeping I

/-- To be the same and to keep an invariant goes together with everything that reading does. -/
theorem lawful (hI : PartInvariant I) : (likeness I).Lawful := Likeness.same_lawful.keeping hI.toPartKeeps

/-- To be the same and to keep an invariant goes together with whole documents. -/
theorem uniform (hI : PartInvariant I) : (likeness I).Uniform := Likeness.same_uniform.keeping hI

/-- Voices that are the same and keep an invariant sing the same. -/
theorem sings (hI : PartInvariant I) : (likeness I).Sings := Likeness.same_sings.keeping hI.toPartKeeps

/-- A reading that is alike to itself has parts that keep the invariant. -/
theorem of_alike {r : Reading} (h : (likeness I).Alike r r) : ∀ p ∈ r.parts, I p := by
  intro p hp
  obtain ⟨i, hi, rfl⟩ := List.mem_iff_getElem.mp hp
  exact (h.parts.get hi hi).2.1

variable {settings : Settings} {root : Element}

/-- **At all times**, before and after every move of a document, all parts keep the invariant. -/
theorem trail (hI : PartInvariant I) {m : Moment} (hm : m ∈ Partwise.trail settings root) :
    (∀ p ∈ m.before.parts, I p) ∧ ∀ p ∈ m.after.parts, I p := by
  have hboth := hI.uniform.trail (hI.sings.policy hI.lawful settings) hm
  exact ⟨of_alike hboth.1, of_alike hboth.2⟩

/-- The parts of a score keep the invariant. -/
theorem score (hI : PartInvariant I) {score : Score}
    (h : (Document.read settings root).score = .ok score) : ∀ p ∈ score.parts, I p := by
  obtain ⟨last, hfollows, -, hcomplete, -⟩ := Document.follows_unfolds h
  intro p hp
  exact of_alike (hI.uniform.last (hI.sings.policy hI.lawful settings) hfollows) p
    (hcomplete.parts.subset hp)

end PartInvariant

/-! ## From a reading on -/

/-- Readings are alike that are the same, if the part with an id is declared and all parts have the
property. -/
def Likeness.sameFrom (id : String) (I : Part → Prop) : Likeness :=
  { Likeness.same.keeping I with known := fun declared => declared = id }

namespace PartKeeps

variable {I : Part → Prop} {settings : Settings} {r t : Reading} {ms : List Moment} {id : String}

/-- From some reading on, where all other parts keep a property, to be the same and to keep it goes
together with every move. -/
theorem even (hI : PartKeeps I) (hothers : ∀ p, p.id ≠ id → I p) :
    (Likeness.sameFrom id I).Even where
  toLawful := { Likeness.same_lawful.keeping hI with }
  enter h := h
  declare e id' hknown := ⟨rfl, hothers _ hknown, .nil⟩
  elementCheck _ := ⟨rfl, rfl⟩
  noMarks := rfl
  opens := by
    rintro p _ ⟨rfl, -⟩ _ _ _ _ _
    rfl
  divisions h := congrArg Part.divisionsPerWhole h.1
  withDivisions hfit h := by
    obtain ⟨rfl, hI', hkeyed⟩ := h
    exact ⟨rfl, hI.withDivisions hfit hI', hkeyed.of_map rfl fun _ => rfl⟩

/-- Readings that are the same come to the same under the same settings. -/
theorem policy (hI : PartKeeps I) (hothers : ∀ p, p.id ≠ id → I p) (settings : Settings) :
    Policy (Likeness.sameFrom id I) settings settings := by
  have hS : (Likeness.sameFrom id I).Sings := { Likeness.same_sings.keeping hI with }
  exact hS.policy (hI.even hothers).toLawful settings

/-- **From a reading on** the property is kept, if it only says something of a part that has been
declared. -/
theorem follows (hI : PartKeeps I) (hothers : ∀ p, p.id ≠ id → I p)
    (hrun : Follows settings r ms t) (hsound : r.Sound) (hsame : Likeness.same.Alike r r)
    (hdeclared : id ∈ r.parts.map Part.id) (hr : ∀ p ∈ r.parts, I p) : ∀ p ∈ t.parts, I p := by
  have hthere : ∀ p ∈ r.parts, (Likeness.sameFrom id I).there p p := fun p hp =>
    ⟨rfl, hr p hp, hsound.keyed p.id p (hsound.partOf_of_mem hp)⟩
  have halike : (Likeness.sameFrom id I).Alike r r := {
    identification := rfl
    partList := fun _ => rfl
    partId := rfl
    parts := List.forall₂_same.mpr hthere
    part := by
      cases hpart : r.part? with
      | none => exact .none
      | some p =>
        rw [Reading.part?, Option.bind_eq_some_iff] at hpart
        obtain ⟨_, -, hfound⟩ := hpart
        exact .some (hthere p (List.mem_of_find?_eq_some hfound))
    declared := hsame.declared
    distinct := hsame.distinct
    known := fun _ hknown => hknown ▸ hdeclared
    passage := { hsame.passage with } }
  have hlast := hrun.keeps (P := fun u => u.Sound ∧ (Likeness.sameFrom id I).Alike u u)
    ⟨hsound, halike⟩ fun _ _ => (hI.even hothers).step (hI.policy hothers settings)
  intro p hp
  obtain ⟨i, hi, rfl⟩ := List.mem_iff_getElem.mp hp
  exact (hlast.2.parts.get hi hi).2.1

end PartKeeps

/-! ## Voices -/

/-- What reading music does to a voice keeps the property. -/
structure VoiceInvariant (P : Voice → Prop) : Prop where
  newVoice : ∀ p key, P (Part.newVoice p key)
  append : ∀ {v} {e : VoiceElement}, e.Plain → P v → P (v.append e)
  edit : ∀ {v w}, v.Edited w → P v → P w
  divisions : ∀ {v : Voice} perWhole, P v → P { v with divisionsPerWhole := perWhole }

/-- A property that single voices keep is an invariant of the voices of a part. -/
theorem VoiceInvariant.part {P : Voice → Prop} (hP : VoiceInvariant P) :
    PartInvariant fun p => ∀ v ∈ p.voices, P v where
  declare _ _ _ hv := nomatch hv
  ensureVoice {p} key h := by
    unfold Part.ensureVoice
    split
    · exact h
    · intro v hv
      rcases mem_upsert hv with rfl | hv
      · exact hP.newVoice p key
      · exact h v hv
  edit {p f} h hf := by
    intro v hv
    obtain ⟨w, hw, rfl⟩ := List.mem_map.mp hv
    rcases hf w hw with hedited | hsame
    · exact hP.edit hedited (h w hw)
    · rw [hsame]
      exact h w hw
  ensureStaves _ h := h
  enterMeasure _ h := h
  withKey key h := List.forall_mem_map.mpr fun v hv => hP.append ⟨rfl, rfl⟩ (h v hv)
  withTime time h := List.forall_mem_map.mpr fun v hv => hP.append ⟨rfl, rfl⟩ (h v hv)
  withClef clef h := List.forall_mem_map.mpr fun v hv => by
    split
    · exact hP.append ⟨rfl, rfl⟩ (h v hv)
    · exact h v hv
  withDivisions {p} perWhole _ h := List.forall_mem_map.mpr fun v hv => hP.divisions perWhole (h v hv)

end Partwise
