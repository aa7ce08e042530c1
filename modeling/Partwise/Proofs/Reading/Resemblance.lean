import Partwise.Proofs.Music.Guises
import Partwise.Proofs.Reading.Abreast

/-!
# Reading · Resemblance: two readings that show the same in guises

Two readings resemble each other if their parts show the same, the parts of the first one in one
guise and those of the second one in another. Since a guise goes together with everything that
reading does to a part, this is a likeness that is `Lawful` (`Pairing.lawful`). The divisions of a
part may be shown in a way of its own for every part.
-/

namespace Partwise

/-- A guise for the parts of each of two readings. -/
structure Pairing extends Standard where
  first : Guise
  second : Guise
  /-- How the divisions of a part are shown, by its id. -/
  divisions : String → Nat → Nat
  divisions' : String → Nat → Nat
  marks : Attachments → Attachments → Prop
  /-- The ids of parts that may be read. -/
  among : String → Prop
  /-- The ids of parts that are known to be declared. -/
  known : String → Prop := fun _ => False

namespace Pairing

/-- The two parts show the same, and their voices are told apart by their keys. -/
structure Resemble (P : Pairing) (p q : Part) : Prop where
  guise_eq : p.guise P.first (P.divisions p.id) = q.guise P.second (P.divisions' q.id)
  keyed : p.Keyed

/-- Two readings are alike that show the same. -/
def likeness (P : Pairing) : Likeness where
  toStandard := P.toStandard
  here p q := P.Resemble p q ∧ P.among p.id
  there := P.Resemble
  tuplet t u := t.guise P.first = u.guise P.second
  note m n := P.first.note m = P.second.note n
  marks := P.marks
  element e f := e.guise P.first = f.guise P.second
  known := P.known

/-- What must be known of the two guises. -/
structure Lawful (P : Pairing) : Prop where
  failure : ∀ f, P.fails f f
  first : P.first.Lawful
  second : P.second.Lawful
  note : ∀ n, n.lyrics = [] → P.first.note n = P.second.note n
  queue : ∀ {a b c}, P.marks a b → P.marks (a ++ c) (b ++ c)

namespace Resemble

variable {P : Pairing} {p q : Part}

theorem id (h : P.Resemble p q) : p.id = q.id := by
  rw [← p.id_guise, h.guise_eq, q.id_guise]

theorem keys (h : P.Resemble p q) : p.voices.map Voice.key = q.voices.map Voice.key := by
  rw [← p.keys_guise, h.guise_eq, q.keys_guise]

theorem divisions (h : P.Resemble p q) :
    P.divisions p.id p.divisionsPerWhole = P.divisions' q.id q.divisionsPerWhole := by
  have hdivisions : (p.guise P.first (P.divisions p.id)).divisionsPerWhole =
      (q.guise P.second (P.divisions' q.id)).divisionsPerWhole := by rw [h.guise_eq]
  exact hdivisions

/-- As many repeats are pending. -/
theorem pending (h : P.Resemble p q) :
    p.voices.countP (fun v => v.pending?.isSome) = q.voices.countP fun v => v.pending?.isSome := by
  have hcount : ∀ (g : Guise) (d : Nat → Nat) (p : Part),
      (p.guise g d).voices.countP (fun v => v.pending?.isSome) =
        p.voices.countP fun v => v.pending?.isSome := by
    intro g d p
    rw [Part.guise, Part.mapVoices, List.countP_map]
    refine List.countP_congr fun v _ => ?_
    simp [Voice.guise]
  rw [← hcount, h.guise_eq, hcount]

/-- Voices of one key show the same. -/
theorem voice (h : P.Resemble p q) {key : VoiceKey} {v w : Voice} (hv : p.voice? key = some v)
    (hw : q.voice? key = some w) :
    v.guise P.first (P.divisions p.id) = w.guise P.second (P.divisions' q.id) := by
  have hvoice : (p.guise P.first (P.divisions p.id)).voice? key =
      (q.guise P.second (P.divisions' q.id)).voice? key := by rw [h.guise_eq]
  rw [Part.voice?_guise, Part.voice?_guise, hv, hw] at hvoice
  exact Option.some.inj hvoice

/-- Parts show the same after changes that come to the same in their guises. -/
theorem of_map (h : P.Resemble p q) {p' q' : Part} (F : Part → Part) (hid : p'.id = p.id)
    (hid' : q'.id = q.id) (hkeyed : p'.Keyed)
    (hp : p'.guise P.first (P.divisions p.id) = F (p.guise P.first (P.divisions p.id)))
    (hq : q'.guise P.second (P.divisions' q.id) = F (q.guise P.second (P.divisions' q.id))) :
    P.Resemble p' q' :=
  ⟨by rw [hid, hid', hp, hq, h.guise_eq], hkeyed⟩

/-- Parts that resemble each other do so after one change of both that goes together with all
guises. -/
theorem change (h : P.Resemble p q) (hP : P.Lawful) (f : Part → Part) (hid : ∀ p, (f p).id = p.id)
    (hkeyed : p.Keyed → (f p).Keyed)
    (hf : ∀ (g : Guise) (d : Nat → Nat) (p : Part), g.Lawful →
      (f p).guise g d = f (p.guise g d)) : P.Resemble (f p) (f q) :=
  h.of_map f (hid p) (hid q) (hkeyed h.keyed) (hf _ _ p hP.first) (hf _ _ q hP.second)

/-- Parts that resemble each other do so after one change of all their voices. -/
theorem mapVoices (h : P.Resemble p q) (hP : P.Lawful) (f : Voice → Voice)
    (hkey : ∀ v, (f v).key = v.key)
    (hf : ∀ (g : Guise) (d : Nat → Nat) (v : Voice), g.Lawful →
      (f v).guise g d = f (v.guise g d)) : P.Resemble (p.mapVoices f) (q.mapVoices f) :=
  h.change hP (fun p => p.mapVoices f) (fun _ => rfl) (fun hkeyed => hkeyed.of_map rfl hkey)
    fun g d p hg => p.mapVoices_guise fun v => hf g d v hg

/-- A voice that changes and keeps its key is told apart from the others. -/
theorem keyed_modifyVoice {key : VoiceKey} {f : Voice → Voice}
    (hkey : ∀ v, v.key = key → (f v).key = key) (hkeyed : p.Keyed) :
    (p.modifyVoice key f).Keyed := by
  refine hkeyed.of_map rfl fun v => ?_
  split
  · next hv => rw [hkey v hv, hv]
  · rfl

/-- Parts that resemble each other do so after one change of the voices with a key. -/
theorem modifyVoice (h : P.Resemble p q) (hP : P.Lawful) {key : VoiceKey} (f : Voice → Voice)
    (hkey : ∀ v, (f v).key = v.key)
    (hf : ∀ (g : Guise) (d : Nat → Nat) (v : Voice), g.Lawful →
      (f v).guise g d = f (v.guise g d)) :
    P.Resemble (p.modifyVoice key f) (q.modifyVoice key f) :=
  h.change hP (fun p => p.modifyVoice key f) (fun _ => rfl)
    (keyed_modifyVoice fun v hv => (hkey v).trans hv) fun g d p hg =>
    p.modifyVoice_guise fun v => hf g d v hg

/-- Voices become others that show the same. -/
theorem setVoice (h : P.Resemble p q) {key : VoiceKey} {v w : Voice} (hkey : v.key = key)
    (hvw : v.guise P.first (P.divisions p.id) = w.guise P.second (P.divisions' q.id)) :
    P.Resemble (p.modifyVoice key fun _ => v) (q.modifyVoice key fun _ => w) :=
  h.of_map (fun p => p.modifyVoice key fun _ => w.guise P.second (P.divisions' q.id)) rfl rfl
    (keyed_modifyVoice (fun _ _ => hkey) h.keyed) (p.modifyVoice_guise fun _ => hvw)
    (q.modifyVoice_guise fun _ => rfl)

/-- Elements that show the same are put at the end of a voice. -/
theorem append (h : P.Resemble p q) {key : VoiceKey} {e f : VoiceElement}
    (hef : e.guise P.first = f.guise P.second) :
    P.Resemble (p.modifyVoice key fun v => v.append e) (q.modifyVoice key fun v => v.append f) := by
  refine h.of_map (fun p => p.modifyVoice key fun v => v.append (f.guise P.second)) rfl rfl
    (keyed_modifyVoice (fun _ hv => hv) h.keyed) ?_ (q.modifyVoice_guise fun v => v.append_guise f)
  rw [← hef]
  exact p.modifyVoice_guise fun v => v.append_guise e

end Resemble

/-- Outcomes that show the same in their guises are alike. -/
theorem outcomes_of_map {α β ε : Type} {f g : α → β} {A : α → α → Prop} {x y : Except ε α}
    (h : x.map f = y.map g) (hA : ∀ a b, x = .ok a → f a = g b → A a b) :
    Likeness.Outcomes A x y := by
  cases x <;> cases y
  · cases h
    exact .error
  · exact nomatch h
  · exact nomatch h
  · exact .ok (hA _ _ rfl (Except.ok.inj h))

/-- An invisible rest is given to a voice in any guise. -/
theorem addRest_guise {g : Guise} (hg : g.Lawful) (divisions : Nat → Nat) (v : Voice)
    (duration : WholeNotes) (measure : String) (line : Nat) :
    (v.append (.note (skipRest v duration measure line))).guise g divisions =
      (v.guise g divisions).append
        (.note (skipRest (v.guise g divisions) duration measure line)) := by
  rw [v.append_guise, VoiceElement.guise, skipRest, hg.skip]
  rfl

/-- **Two readings that resemble each other** stay so, whatever is read. -/
theorem Lawful.likeness {P : Pairing} (hP : P.Lawful) : P.likeness.Lawful where
  failure := hP.failure
  deaf h := absurd trivial h
  id h := h.id
  leave h := h.1
  keys h := h.1.keys
  pending _ h := h.1.pending
  position h hv hw := (congrArg Voice.positionInMeasure (h.1.voice hv hw) :)
  ensureVoice {p q key} h := by
    refine ⟨h.1.change hP (fun p => p.ensureVoice key) (fun p => p.id_ensureVoice)
      (fun hkeyed => hkeyed.ensureVoice key) fun g d p hg => p.ensureVoice_guise hg key, ?_⟩
    rw [Part.id_ensureVoice]
    exact h.2
  placeVoice _ h := ⟨h.1.modifyVoice hP _ (fun _ => rfl) fun _ _ _ _ => rfl, h.2⟩
  append h he := ⟨h.1.append he, h.2⟩
  addRest h := ⟨h.1.modifyVoice hP _ (fun _ => rfl) fun _ d v hg => addRest_guise hg d v .., h.2⟩
  joinVoice {p q key v w n n'} chordOpen h hv hw hn := by
    have hfirst := v.joinChord_guise hP.first (P.divisions p.id) n chordOpen
    have hsecond := w.joinChord_guise hP.second (P.divisions' q.id) n' chordOpen
    rw [h.1.voice hv hw, hn, hsecond] at hfirst
    have hkeys : ∀ v', v.joinChord n chordOpen = .ok v' → v'.key = key := fun v' hjoin =>
      (Voice.of_joinChord hjoin).2.1.trans (Part.key_of_voice? hv)
    exact outcomes_of_map hfirst.symm fun v' w' hjoin hvw => ⟨h.1.setVoice (hkeys v' hjoin) hvw, h.2⟩
  withKey {_ _ key key'} h heq := heq trivial ▸ ⟨h.1.change hP (fun p => p.withKey key) (fun _ => rfl)
    (fun hkeyed => hkeyed.of_map rfl fun _ => rfl) fun _ _ p _ => p.withKey_guise key, h.2⟩
  withTime {_ _ time time'} h heq := heq trivial ▸ ⟨h.1.change hP (fun p => p.withTime time) (fun _ => rfl)
    (fun hkeyed => hkeyed.of_map rfl fun _ => rfl) fun _ _ p _ => p.withTime_guise time, h.2⟩
  withClef {_ _ clef clef'} h heq _ := heq trivial ▸ ⟨h.1.change hP (fun p => p.withClef clef) (fun _ => rfl)
    (fun hkeyed => hkeyed.of_map rfl fun v => by split <;> rfl)
    fun _ _ p _ => p.withClef_guise clef, h.2⟩
  ensureStaves {_ _ count} h := ⟨h.1.change hP (fun p => p.ensureStaves count) (fun _ => rfl)
    (fun hkeyed => hkeyed) fun _ _ _ _ => rfl, h.2⟩
  restart {_ _ number} h := ⟨h.1.change hP (fun p => { p with measureNumber := number }.mapVoices
    fun v => { v with positionInMeasure := 0 }) (fun _ => rfl)
    (fun hkeyed => hkeyed.of_map (f := fun v => { v with positionInMeasure := 0 }) rfl fun _ => rfl)
    fun _ _ p _ => p.restart_guise number, h.2⟩
  takeBarline {p q b b' explicitStart explicitStart' measure} h heq := by
    obtain ⟨rfl, rfl⟩ := heq trivial
    exact ⟨h.1.mapVoices hP _ (fun v => (v.like_takeBarline ..).key)
      fun g d v hg => by rw [v.takeBarline_guise hg], h.2⟩
  close {p q explicitStart explicitStart' measure} h heq := by
    obtain rfl := heq trivial
    have hended := h.1.mapVoices hP (fun v => (v.endRepeats explicitStart measure).1)
      (fun v => (v.like_endRepeats ..).key) fun g d v hg => by rw [v.endRepeats_guise hg]
    exact ⟨hended.mapVoices hP _ (fun _ => rfl) fun _ _ v _ => v.flush_guise, h.2⟩
  noteSame := hP.note
  noteLine {n n'} h := by rw [← hP.first.line, h, hP.second.line]
  noteLength {n n'} h := by rw [← hP.first.length, h, hP.second.length]
  elementNote h := congrArg VoiceElement.note h
  elementTuplet h := congrArg VoiceElement.tuplet h
  elementDirection _ := rfl
  tupletKey {t u} h := by rw [← t.key_guise, h, u.key_guise]
  tupletNumber {t u} h := by rw [← t.number_guise, h, u.number_guise]
  tupletEmpty {t u} h := by rw [← t.isEmpty_guise, h, u.isEmpty_guise]
  tupletNote {t u n n'} h hn := by
    show (t.append (.note n)).guise P.first = (u.append (.note n')).guise P.second
    rw [t.append_guise, u.append_guise, h]
    exact congrArg (fun n => (u.guise P.second).append (.note n)) hn
  tupletInner {t u i i'} h hi := by
    show (t.append (.tuplet i)).guise P.first = (u.append (.tuplet i')).guise P.second
    rw [t.append_guise, u.append_guise, h]
    exact congrArg (fun t => (u.guise P.second).append (.tuplet t)) hi
  tupletJoin {t u n n'} chordOpen h hn := by
    have hfirst := Guise.Lawful.join_tuplet n chordOpen hP.first t
    have hsecond := Guise.Lawful.join_tuplet n' chordOpen hP.second u
    rw [h, hn, hsecond] at hfirst
    exact outcomes_of_map hfirst.symm fun _ _ _ htu => htu
  queue := hP.queue

/-- A part in the guise of the first reading. -/
def showFirst (P : Pairing) (p : Part) : Part := p.guise P.first (P.divisions p.id)

/-- A part in the guise of the second reading. -/
def showSecond (P : Pairing) (p : Part) : Part := p.guise P.second (P.divisions' p.id)

/-- Parts that show the same are put together to groups that do. -/
theorem groups {P : Pairing} {parts parts' : List Part} (h : List.Forall₂ P.Resemble parts parts')
    (drafts : List GroupDraft) :
    Likeness.Outcomes
      (fun gs gs' => gs.map (PartGroup.mapParts P.showFirst) = gs'.map (PartGroup.mapParts P.showSecond))
      (assembleGroups parts drafts) (assembleGroups parts' drafts) := by
  have hparts : parts.map P.showFirst = parts'.map P.showSecond := by
    rw [← List.forall₂_eq_eq_eq, List.forall₂_map_left_iff, List.forall₂_map_right_iff]
    exact h.imp fun _ _ hpq => hpq.guise_eq
  have hgroups := assembleGroups_map (f := P.showFirst) (fun _ => rfl) parts drafts
  rw [hparts, assembleGroups_map (f := P.showSecond) fun _ => rfl] at hgroups
  exact outcomes_of_map hgroups.symm fun _ _ _ heq => heq

/-- Two readings in whose guises divisions are shown as they are. -/
structure Plain (P : Pairing) : Prop extends P.Lawful where
  divisions : P.divisions = fun _ => id
  divisions' : P.divisions' = fun _ => id
  tuplets : P.first.tuplets = P.second.tuplets
  among : ∀ id, P.among id
  unknown : ∀ id, ¬ P.known id
  noMarks : P.marks ∅ ∅

/-- Under guises that show divisions as they are, divisions are the same. -/
theorem Plain.uniform {P : Pairing} (hP : P.Plain) : P.likeness.Uniform where
  toLawful := hP.toLawful.likeness
  opens {p q} h start key measure position line := by
    have hdivisions : p.divisionsPerWhole = q.divisionsPerWhole := by
      simpa only [hP.divisions, hP.divisions', id_eq] using h.1.divisions
    show Tuplet.guise _ _ = Tuplet.guise _ _
    rw [Tuplet.guise_eq, Tuplet.guise_eq, hdivisions, hP.tuplets]
    rfl
  enter h := ⟨h, hP.among _⟩
  declare e id _ := by
    refine ⟨?_, List.nodup_nil⟩
    rw [hP.divisions, hP.divisions']
    rfl
  unknown := hP.unknown
  divisions h := by
    have hdivisions := h.1.divisions
    rwa [hP.divisions, hP.divisions'] at hdivisions
  withDivisions {p q perWhole} _ h := by
    refine ⟨h.1.of_map (fun p => p.withDivisions perWhole) rfl rfl
      (h.1.keyed.of_map rfl fun _ => rfl) ?_ ?_, h.2⟩
    · rw [hP.divisions]
      exact p.withDivisions_guise perWhole _
    · rw [hP.divisions']
      exact q.withDivisions_guise perWhole _
  elementCheck _ := rfl
  noMarks := hP.noMarks

end Pairing

end Partwise
