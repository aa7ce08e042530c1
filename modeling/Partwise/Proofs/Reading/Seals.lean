import Mathlib.Data.List.DropRight
import Partwise.Proofs.Reading.Orders
import Partwise.Proofs.Reading.Policies

/-!
# Reading · Seals: what stands before the last check stays

The check at the end of a measure seals what a voice holds up to there: `Voice.sealed` are its
notes, chords, tuplets and checks, repeats included, as far as the last check. New elements come
behind it, and a member of a chord joins what stands last, which is no check. Barlines and the end
of the part move content about, but they leave its order.

The passage remembers which voices were given content since their last check. Only notes and
movements forward add to these, and only the voice that they name.

Both is said at once of a step: it is `Orderly`. A step that gives content to its voice, so that a
check is owed afterwards, `Fills` this voice.
-/

namespace Partwise

open Markup

variable {α β : Type}

/-! ## Elements and checks -/

/-- The element is a check. -/
def VoiceElement.isCheck : VoiceElement → Bool
  | barCheck _ => true
  | _ => false

/-- The elements that take time, and the checks among them. -/
def checked (es : List VoiceElement) : List VoiceElement :=
  es.filter fun e => e.isTimed || e.isCheck

/-- What stands up to the last check. -/
def sealed (es : List VoiceElement) : List VoiceElement :=
  (checked es).rdropWhile VoiceElement.isTimed

/-- What takes time in two lists of elements one after the other, and the checks among it, is that
of the first and then that of the second. -/
@[simp] theorem checked_append (as bs : List VoiceElement) :
    checked (as ++ bs) = checked as ++ checked bs :=
  List.filter_append ..

/-- Implicit starts neither take time nor check anything. -/
theorem checked_played (es : List VoiceElement) : checked (played es) = checked es := by
  unfold checked played
  rw [List.filter_filter]
  refine List.filter_congr fun e _ => ?_
  cases e <;> simp [VoiceElement.isTimed, VoiceElement.isCheck, VoiceElement.isImplicit]

/-- Without the checks there remains what takes time. -/
theorem timed_checked (es : List VoiceElement) : timed (checked es) = timed es := by
  unfold timed checked
  rw [List.filter_filter]
  refine List.filter_congr fun e _ => ?_
  cases e.isTimed <;> simp

/-- What is no check comes behind what is sealed. -/
theorem sealed_append {as bs : List VoiceElement} (h : ∀ e ∈ bs, e.isCheck = false) :
    sealed (as ++ bs) = sealed as := by
  induction bs generalizing as with
  | nil => rw [List.append_nil]
  | cons e bs ih =>
    rw [List.append_cons, ih fun x hx => h x (List.mem_cons_of_mem e hx), sealed, sealed,
      checked_append]
    cases htimed : e.isTimed with
    | true =>
      have hkept : checked [e] = [e] := by simp [checked, htimed]
      rw [hkept, List.rdropWhile_concat_pos _ _ _ htimed]
    | false =>
      have hdropped : checked [e] = [] := by simp [checked, htimed, h e List.mem_cons_self]
      rw [hdropped, List.append_nil]

/-- A note joins no check. -/
theorem VoiceElement.isCheck_join {n : Note} {chordOpen : Bool} {e e' : VoiceElement}
    (h : e.join n chordOpen = .ok e') :
    (∀ x ∈ e.flatten, x.isCheck = false) ∧ ∀ x ∈ e'.flatten, x.isCheck = false := by
  unfold join at h
  split at h
  · split at h
    · cases h
    · cases h
      simp [flatten, isCheck]
  · split at h
    · cases h
      simp [flatten, isCheck]
    · cases h
  · obtain ⟨t', _, rfl⟩ := of_map_eq_ok h
    simp [flatten, isCheck]
  · cases h

/-- A note that joins what stands last leaves what is sealed. -/
theorem sealed_joinLast {n : Note} {chordOpen : Bool} {es es' : List VoiceElement}
    (h : joinLast n chordOpen es = .ok es') (before : List VoiceElement) :
    sealed (before ++ flattenElements es') = sealed (before ++ flattenElements es) := by
  induction es generalizing es' before with
  | nil => exact nomatch h
  | cons e es ih =>
    cases es with
    | nil =>
      obtain ⟨e', he, rfl⟩ := of_map_eq_ok h
      obtain ⟨hold, hnew⟩ := VoiceElement.isCheck_join he
      simp only [flattenElements, List.append_nil]
      rw [sealed_append hold, sealed_append hnew]
    | cons next es =>
      obtain ⟨rest, hrest, rfl⟩ := of_map_eq_ok h
      rw [flattenElements, flattenElements, ← List.append_assoc, ← List.append_assoc]
      exact ih hrest _

/-! ## Voices -/

namespace Voice

/-- What stands in the voice up to its last check, repeats included. -/
def sealed (v : Voice) : List VoiceElement := Partwise.sealed v.flatten

/-- The voice is another one behind its last check only. -/
structure Abides (v w : Voice) : Prop where
  key : w.key = v.key
  sealed : w.sealed = v.sealed

namespace Abides

variable {v w : Voice}

/-- A voice is the same as itself up to its last check. -/
theorem refl (v : Voice) : v.Abides v := ⟨rfl, rfl⟩

/-- Of two voices with the same content each is the same as the other up to the last check. -/
theorem of_flatten (hkey : w.key = v.key) (hflatten : w.flatten = v.flatten) : v.Abides w :=
  ⟨hkey, congrArg Partwise.sealed hflatten⟩

/-- Nothing but implicit starts comes in. -/
theorem of_played (hkey : w.key = v.key) (hplayed : played w.flatten = played v.flatten) :
    v.Abides w := by
  refine ⟨hkey, ?_⟩
  unfold Voice.sealed Partwise.sealed
  rw [← checked_played, hplayed, checked_played]

/-- An element that is neither a check nor a repeat comes in at the end. -/
theorem append (v : Voice) {e : VoiceElement} (hflatten : e.flatten = [e])
    (he : e.isCheck = false) : v.Abides (v.append e) := by
  have hplain : ∀ x ∈ e.flatten, x.isCheck = false := by simp [hflatten, he]
  exact ⟨rfl, by rw [Voice.sealed, flatten_append, sealed_append hplain, Voice.sealed]⟩

/-- A member of a chord joins what stands behind the last check. -/
theorem joinChord {n : Note} {chordOpen : Bool} (h : v.joinChord n chordOpen = .ok w) :
    v.Abides w := by
  obtain ⟨chunk, hchunk, rfl⟩ := of_map_eq_ok h
  refine ⟨rfl, ?_⟩
  simp only [Voice.sealed, flatten_eq]
  exact sealed_joinLast hchunk _

/-- A barline moves the content of a voice about and keeps what stands up to the last check. -/
theorem takeBarline (v : Voice) (b : Barline) (explicitStart : Bool) (measure : String) :
    v.Abides (v.takeBarline b explicitStart measure).1 := by
  have happended := append v (e := .barline b) rfl rfl
  refine ⟨(v.like_takeBarline ..).key, ?_⟩
  rw [← happended.sealed]
  unfold Voice.sealed Partwise.sealed
  rw [← checked_played, played_takeBarline, ← checked_played (v.append _).flatten, flatten_append,
    played_append]
  rfl

/-- Repeats that end keep what stands up to the last check of a voice. -/
theorem endRepeats (v : Voice) (explicitStart : Bool) (measure : String) :
    v.Abides (v.endRepeats explicitStart measure).1 :=
  of_played (v.like_endRepeats ..).key (v.played_endRepeats ..)

/-- A voice that sings keeps its content. -/
theorem sing (v : Voice) (n : Note) (lyrics : List Lyric) : v.Abides (v.sing n lyrics).1 := by
  obtain ⟨_, _, _, hsung⟩ := v.sing_eq n lyrics
  rw [hsung]
  exact of_flatten rfl rfl

/-- A voice that follows the slurs of a note keeps its content. -/
theorem markSlurs (v : Voice) (slurs : List Slur) (kind : LyricKind) :
    v.Abides (v.markSlurs slurs kind) := by
  obtain ⟨_, _, hmarked⟩ := v.markSlurs_eq slurs kind
  rw [hmarked]
  exact of_flatten rfl rfl

end Abides

end Voice

/-! ## Parts -/

namespace Part

variable {p q t : Part} {key : VoiceKey} {f : Voice → Voice}

/-- What takes time in a voice of the part, and the checks among it. -/
def checked (p : Part) (key : VoiceKey) : List VoiceElement :=
  (p.voice? key).elim [] fun v => Partwise.checked v.flatten

/-- What stands in a voice of the part up to its last check. -/
def sealed (p : Part) (key : VoiceKey) : List VoiceElement :=
  (p.checked key).rdropWhile VoiceElement.isTimed

/-- A voice begins with signs, which neither take time nor check anything. -/
theorem checked_ensureVoice (p : Part) (key k : VoiceKey) :
    (p.ensureVoice key).checked k = p.checked k := by
  have hnew : Partwise.checked (p.newVoice key).flatten = [] := by
    have hopening : (p.newVoice key).flatten = flattenElements (p.opening key.staff) := rfl
    rw [hopening, Part.opening]
    cases p.clef? key.staff <;> cases p.key? <;> cases p.time? <;> rfl
  rw [checked, checked, voice?_ensureVoice]
  split
  · next hk =>
    rw [hk, voiceOrNew]
    cases p.voice? key with
    | none => exact hnew
    | some v => rfl
  · rfl

/-- Of every voice the part is another one behind the last check only. -/
structure Abides (p q : Part) : Prop where
  id : q.id = p.id
  sealed : ∀ key, q.sealed key = p.sealed key

namespace Abides

/-- A part is the same as itself up to the last checks of its voices. -/
theorem refl (p : Part) : p.Abides p := ⟨rfl, fun _ => rfl⟩

/-- What is the same up to the last checks of its voices after two changes is so after both. -/
theorem trans (h : p.Abides q) (h' : q.Abides t) : p.Abides t :=
  ⟨h'.id.trans h.id, fun key => (h'.sealed key).trans (h.sealed key)⟩

/-- All voices change behind their last checks; what else is changed does not matter. -/
theorem of_map (hid : q.id = p.id) (hq : q.voices = p.voices.map f)
    (hf : ∀ v : Voice, v.Abides (f v)) : p.Abides q := by
  refine ⟨hid, fun key => ?_⟩
  have hvoice : q.voice? key = (p.voice? key).map f := by
    rw [← voice?_mapVoices fun v => (hf v).key]
    simp only [voice?, hq, mapVoices]
  rw [Part.sealed, Part.sealed, Part.checked, Part.checked, hvoice]
  cases p.voice? key with
  | none => rfl
  | some v => exact (hf v).sealed

/-- All voices of a part may change behind their last checks. -/
theorem mapVoices (hf : ∀ v : Voice, v.Abides (f v)) : p.Abides (p.mapVoices f) :=
  of_map rfl rfl hf

/-- One voice of a part may change behind its last check. -/
theorem modifyVoice (hf : ∀ v : Voice, v.Abides (f v)) : p.Abides (p.modifyVoice key f) := by
  refine mapVoices fun v => ?_
  split
  · exact hf v
  · exact .refl v

/-- A voice that begins holds nothing up to a check. -/
theorem ensureVoice (p : Part) (key : VoiceKey) : p.Abides (p.ensureVoice key) :=
  ⟨id_ensureVoice, fun k => congrArg (List.rdropWhile _) (p.checked_ensureVoice key k)⟩

/-- A voice is put in the place of one from which it differs behind the last check only. -/
theorem setVoice {v w : Voice} (hv : p.voice? key = some v) (h : v.Abides w) :
    p.Abides (p.modifyVoice key fun _ => w) := by
  have hw : w.key = key := h.key.trans (key_of_voice? hv)
  refine ⟨rfl, fun k => ?_⟩
  rw [Part.sealed, Part.sealed, Part.checked, Part.checked, voice?_modifyVoice fun _ _ => hw]
  split
  · next hk =>
    rw [hk, hv]
    exact h.sealed
  · rfl

end Abides

end Part

/-! ## Voices that owe a check -/

/-- Voices in ascending order, each once. -/
def Ascending (keys : List VoiceKey) : Prop := keys.Pairwise fun a b => a.before b

/-- One voice comes before another if its staff does, or if it stands before it on the same staff.
-/
theorem VoiceKey.before_iff {a b : VoiceKey} :
    a.before b = true ↔ a.staff < b.staff ∨ a.staff = b.staff ∧ a.voice < b.voice := by
  simp [before]

/-- Voices are kept in an order. -/
theorem VoiceKey.orders : Orders VoiceKey.before where
  irrefl a := by simp [before]
  trans := by
    simp only [before_iff]
    omega
  total := by
    simp only [before_iff]
    intro a b hne hab
    have hparts : ¬ (a.staff = b.staff ∧ a.voice = b.voice) := by
      rintro ⟨hstaff, hvoice⟩
      exact hne (by cases a; cases b; simp_all)
    omega

/-- Voices in ascending order come once each. -/
theorem Ascending.nodup {keys : List VoiceKey} (h : Ascending keys) : keys.Nodup := by
  refine h.imp fun {a b} hab => ?_
  rintro rfl
  exact VoiceKey.orders.irrefl a hab

/-! ## Readings -/

/-- What stands in a voice of a part up to its last check. -/
def Reading.sealed (r : Reading) (id : String) (key : VoiceKey) : List VoiceElement :=
  (r.partOf id).elim [] (·.sealed key)

/-- Of every voice the reading is another one behind the last check only, and no voice was given
content but the one named. -/
structure Reading.Abides (key? : Option VoiceKey) (r s : Reading) : Prop where
  sealed : ∀ id key, s.sealed id key = r.sealed id key
  kept : ∀ k ∈ r.passage.unchecked, k ∈ s.passage.unchecked
  only : ∀ k ∈ s.passage.unchecked, k ∈ r.passage.unchecked ∨ key? = some k
  ascending : Ascending r.passage.unchecked → Ascending s.passage.unchecked

namespace Reading.Abides

variable {key? : Option VoiceKey} {key : VoiceKey} {r s t : Reading} {part part' : Part}
  {q : Passage} {line : Nat} {u : Unit}

/-- Two readings in which the same is sealed and the same voices owe a check are alike in this. -/
theorem of_same (hsealed : ∀ id key, s.sealed id key = r.sealed id key)
    (hunchecked : s.passage.unchecked = r.passage.unchecked) : r.Abides key? s :=
  ⟨hsealed, fun _ hk => hunchecked ▸ hk, fun _ hk => .inl (hunchecked ▸ hk),
    fun hr => hunchecked ▸ hr⟩

/-- A reading leaves what it has sealed. -/
theorem refl (r : Reading) : r.Abides key? r := of_same (fun _ _ => rfl) rfl

/-- What two steps leave sealed, both of them together leave sealed. -/
theorem trans (h : r.Abides key? s) (h' : s.Abides key? t) : r.Abides key? t :=
  ⟨fun id key => (h'.sealed id key).trans (h.sealed id key), fun k hk => h'.kept k (h.kept k hk),
    fun k hk => (h'.only k hk).elim (h.only k) .inr, fun hr => h'.ascending (h.ascending hr)⟩

/-- If no voice was given content, then none was but the one named. -/
theorem weaken (h : r.Abides none s) : r.Abides key? s :=
  ⟨h.sealed, h.kept, fun k hk => (h.only k hk).imp_right nofun, h.ascending⟩

/-- The part that is being read changes behind the last checks of its voices. -/
theorem of_becomes (hpart : r.part? = some part) (h : Becomes r s part' q)
    (hpart' : part.Abides part') (hunchecked : q.unchecked = r.passage.unchecked) : r.Abides key? s := by
  have hbefore := (Becomes.refl hpart).here
  have hafter := h.here
  rw [hpart'.id] at hafter
  refine of_same (fun id key => ?_) (by rw [h.passage, hunchecked])
  by_cases hid : id = part.id
  · rw [hid, Reading.sealed, Reading.sealed, hbefore, hafter]
    exact hpart'.sealed key
  · rw [Reading.sealed, Reading.sealed, h.others id (by rwa [hpart'.id])]

/-- What leaves parts and passage alone leaves the checks. -/
theorem of_sameMusic (h : SameMusic r s) : r.Abides key? s := by
  refine of_same (fun id key => ?_) (by rw [h.passage])
  rw [Reading.sealed, Reading.sealed, Reading.partOf, Reading.partOf, h.parts]

/-- A part that is declared has no voices yet. -/
theorem of_declared (h : Declared r s part) : r.Abides key? s := by
  refine of_same (fun id key => ?_) (by rw [h.passage])
  rw [Reading.sealed, Reading.sealed, h.partOf]
  cases r.partOf id with
  | some p => rfl
  | none => split <;> simp [Part.sealed, Part.checked, Part.voice?, h.silent]

/-- A voice is put back in a new state behind its last check. -/
theorem writeBack {v w : Voice} (hat : Ends (Partwise.voiceAt line key) r v s)
    (h : Ends (Partwise.changePart line fun part => part.modifyVoice key fun _ => w) s u t)
    (hw : v.Abides w) : r.Abides key? t := by
  obtain ⟨part, _, hcurrent, _⟩ := hat.bind
  have hpart := hcurrent.currentPart.1
  obtain ⟨rfl, hthere⟩ := (Becomes.refl hpart).voiceAt hat
  refine of_becomes hpart (hthere.changePart h rfl) ?_ rfl
  exact (Part.Abides.ensureVoice part key).trans
    (.setVoice (by rw [Part.voice?_ensureVoice, if_pos rfl]) hw)

end Reading.Abides

/-! ## Orderly steps -/

/-- The step leaves what is sealed, and gives content to no voice but the one named. -/
def Orderly (key? : Option VoiceKey) (x : Step α) : Prop :=
  ∀ r a s, Ends x r a s → r.Abides key? s

namespace Orderly

variable {key? : Option VoiceKey} {key : VoiceKey} {line : Nat} {settings : Settings} {e : Element}

/-- A step that only gives a value leaves what is sealed and gives content to no voice. -/
theorem pure (a : α) : Orderly key? (Pure.pure a : Step α) := by
  intro r b s h
  rw [h.pure.2]
  exact .refl r

/-- A step that fails is orderly, since it never ends well. -/
theorem throw (failure : Failure) : Orderly key? (MonadExcept.throw failure : Step α) :=
  fun _ _ _ h => absurd h not_ends_throw

/-- Decoders leave what is sealed and give content to no voice. -/
theorem lift (x : Journaled α) : Orderly key? (liftM x : Step α) := by
  intro r a s h
  rw [h.lift.2]
  exact .refl r

/-- Two orderly steps one after the other are orderly. -/
theorem bind {x : Step α} {f : α → Step β} (hx : Orderly key? x) (hf : ∀ a, Orderly key? (f a)) :
    Orderly key? (x >>= f) := by
  intro r b t h
  obtain ⟨a, s, hfirst, hrest⟩ := h.bind
  exact (hx _ _ _ hfirst).trans (hf a _ _ _ hrest)

/-- A step that looks at the reading is orderly, if it is for all that may be found. -/
theorem look {f : Reading → Step α} (hf : ∀ r, Orderly key? (f r)) :
    Orderly key? (MonadState.get >>= f) := by
  refine bind ?_ hf
  intro r a s h
  rw [h.get.2]
  exact .refl s

/-- An orderly step of which the value is thrown away is orderly. -/
theorem discard {x : Step α} (hx : Orderly key? x) : Orderly key? (Functor.discard x) := by
  intro r u s h
  obtain ⟨a, hrun⟩ := h.discard
  exact hx _ _ _ hrun

/-- Orderly steps are so together, one for each element of a list. -/
theorem forM {f : α → Step Unit} (hf : ∀ c, Orderly key? (f c)) (cs : List α) :
    Orderly key? (cs.forM f) := by
  induction cs with
  | nil => exact pure ()
  | cons c cs ih => exact bind (hf c) fun _ => ih

/-- To look at the part that is being read leaves what is sealed and gives content to no voice. -/
theorem currentPart : Orderly key? (Partwise.currentPart line) := by
  intro r part s h
  rw [h.currentPart.2]
  exact .refl r

/-- The passage changes in other things than the checks that are owed. -/
theorem changePassage {f : Passage → Passage} (hf : ∀ q, (f q).unchecked = q.unchecked) :
    Orderly key? (Partwise.changePassage f) := by
  intro r _ _ h
  rw [h.changePassage]
  exact .of_same (fun _ _ => rfl) (hf _)

/-- A change of the part that is being read is orderly if it changes voices only behind their last
checks. -/
theorem changePart {f : Part → Part} (hf : ∀ p : Part, p.Abides (f p)) :
    Orderly key? (Partwise.changePart line f) := by
  intro r u s h
  obtain ⟨part, hpart, _⟩ := h.changePart
  exact .of_becomes hpart ((Becomes.refl hpart).changePart h (hf part).id) (hf part) rfl

/-- To look for a voice is orderly, even where the voice begins by it. -/
theorem voiceAt : Orderly key? (Partwise.voiceAt line key) := by
  intro r v s h
  obtain ⟨part, _, hcurrent, _⟩ := h.bind
  have hpart := hcurrent.currentPart.1
  exact .of_becomes hpart ((Becomes.refl hpart).voiceAt h).2 (.ensureVoice part key) rfl

/-- A change of a voice is orderly if it changes it only behind its last check. -/
theorem modifyVoice {f : Voice → Voice} (hf : ∀ v : Voice, v.Abides (f v)) :
    Orderly key? (Partwise.changePart line fun part => part.modifyVoice key f) :=
  changePart fun _ => .modifyVoice hf

/-- A change of a voice that may begin by it is orderly if it changes it only behind its last check.
-/
theorem changeVoice {f : Voice → Voice} (hf : ∀ v : Voice, v.Abides (f v)) :
    Orderly key? (Partwise.changeVoice line key f) :=
  bind (discard voiceAt) fun _ => modifyVoice hf

/-- An element that is no check is put at the end of a voice. -/
theorem appendTo {e : VoiceElement} (hflatten : e.flatten = [e]) (he : e.isCheck = false) :
    Orderly key? (Partwise.appendTo line key e) :=
  changeVoice fun v => .append v hflatten he

end Orderly

/-- The step is orderly and gives content to the voice, which owes a check afterwards. -/
structure Fills (key : VoiceKey) (x : Step α) : Prop where
  orderly : Orderly (some key) x
  owed : ∀ r a s, Ends x r a s → key ∈ s.passage.unchecked

namespace Fills

variable {key : VoiceKey}

/-- A step that fails fills any voice, since it never ends well. -/
theorem throw (failure : Failure) : Fills key (MonadExcept.throw failure : Step α) :=
  ⟨.throw failure, fun _ _ _ h => absurd h not_ends_throw⟩

/-- What follows on a step that gives content takes none away. -/
theorem bind {x : Step α} {f : α → Step β} (hx : Fills key x) (hf : ∀ a, Orderly (some key) (f a)) :
    Fills key (x >>= f) := by
  refine ⟨hx.orderly.bind hf, fun r b t h => ?_⟩
  obtain ⟨a, s, hfirst, hrest⟩ := h.bind
  exact (hf a _ _ _ hrest).kept key (hx.owed _ _ _ hfirst)

/-- What follows on an orderly step gives content to the voice, if it does after all its values. -/
theorem after {x : Step α} {f : α → Step β} (hx : Orderly (some key) x) (hf : ∀ a, Fills key (f a)) :
    Fills key (x >>= f) := by
  refine ⟨hx.bind fun a => (hf a).orderly, fun r b t h => ?_⟩
  obtain ⟨a, s, _, hrest⟩ := h.bind
  exact (hf a).owed _ _ _ hrest

/-- A step that looks at the reading gives content to the voice, if it does for all that may be
found. -/
theorem look {f : Reading → Step α} (hf : ∀ r, Fills key (f r)) :
    Fills key (MonadState.get >>= f) :=
  after (fun r _ _ h => h.get.2 ▸ .refl r) hf

/-- A change of the passage that notes the voice as given gives content to it. -/
theorem touch {f : Passage → Passage} (hf : ∀ q, (f q).unchecked = (q.touch key).unchecked) :
    Fills key (Partwise.changePassage f) := by
  constructor
  · intro r u s h
    rw [h.changePassage]
    refine ⟨fun _ _ => rfl, fun k hk => ?_, fun k hk => ?_, fun hr => ?_⟩
    · show k ∈ (f r.passage).unchecked
      rw [hf]
      exact mem_upsert_iff.mpr (.inr hk)
    · replace hk : k ∈ (f r.passage).unchecked := hk
      rw [hf] at hk
      exact (mem_upsert_iff.mp hk).symm.imp_right fun heq => congrArg some heq.symm
    · show Ascending (f r.passage).unchecked
      rw [hf]
      exact VoiceKey.orders.ascending_upsert hr
  · intro r u s h
    rw [h.changePassage]
    show key ∈ (f r.passage).unchecked
    rw [hf]
    exact mem_upsert_self ..

end Fills

end Partwise
