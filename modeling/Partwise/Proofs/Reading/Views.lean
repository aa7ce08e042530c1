import Partwise.Proofs.Reading.Ends

/-!
# Reading · Views: a reading seen part by part and voice by voice

Parts are known by their ids and voices by their keys, so a reading is seen through
`Reading.partOf` and a part through `Part.voice?`. Here stands what the elementary changes do to
these views: a voice that begins, a voice that changes, all voices changing (`voice?_ensureVoice`,
`voice?_modifyVoice`, `voice?_mapVoices`), and the part that is being read put back in a new state
(`partOf_setPart`).

`Becomes r s part q` says that `s` is `r` with its current part turned into `part` and its passage
into `q`. Steps within a part are described by it one after the other: each lemma below takes what
the reading has become so far and gives what it is after one more step.
-/

namespace Partwise

/-! ## Voices of a part -/

/-- Looking for a key finds the element that was put in, or what was found before. -/
theorem find?_upsert {α κ : Type} [DecidableEq κ] (before : κ → κ → Bool) (key : α → κ) (x : α)
    (ys : List α) (k : κ) :
    (upsert before key x ys).find? (fun y => key y = k) =
      if k = key x then some x else ys.find? fun y => key y = k := by
  induction ys with
  | nil => by_cases h : k = key x <;> simp [upsert, h, eq_comm]
  | cons y ys ih =>
    unfold upsert
    by_cases hk : k = key x
    · subst hk
      split
      · simp
      · split
        · simp
        · next hne _ => simp [Ne.symm hne, ih]
    · rw [if_neg hk] at ih ⊢
      have hx : key x ≠ k := Ne.symm hk
      split
      · next heq => simp [hx, ← heq]
      · split
        · simp [hx]
        · by_cases hy : key y = k <;> simp [hy, ih]

/-- An element with a new key comes in between the others. -/
theorem perm_upsert {α κ : Type} [DecidableEq κ] (before : κ → κ → Bool) (key : α → κ) (x : α)
    {ys : List α} (h : ∀ y ∈ ys, key y ≠ key x) : (upsert before key x ys).Perm (x :: ys) := by
  induction ys with
  | nil => exact List.Perm.refl _
  | cons y ys ih =>
    unfold upsert
    rw [if_neg (Ne.symm (h y List.mem_cons_self))]
    split
    · exact List.Perm.refl _
    · exact ((ih fun z hz => h z (List.mem_cons_of_mem _ hz)).cons y).trans (List.Perm.swap x y ys)

namespace Part

variable {p : Part} {key k : VoiceKey} {f : Voice → Voice}

/-- The voice with a key, or the one that would begin now. -/
def voiceOrNew (p : Part) (key : VoiceKey) : Voice :=
  (p.voice? key).getD (p.newVoice key)

/-- A voice that is looked for by its key has that key. -/
theorem key_of_voice? {v : Voice} (h : p.voice? k = some v) : v.key = k := by
  simpa using List.find?_some h

/-- Every voice changes where it stands. -/
theorem voice?_mapVoices (hf : ∀ v, (f v).key = v.key) :
    (p.mapVoices f).voice? k = (p.voice? k).map f := by
  have hcomp : (fun v : Voice => decide (v.key = k)) ∘ f = fun v => decide (v.key = k) := by
    funext v
    simp [hf]
  simp only [voice?, mapVoices, List.find?_map, hcomp]

/-- One voice changes, the others stay. -/
theorem voice?_modifyVoice (hf : ∀ v, v.key = key → (f v).key = key) :
    (p.modifyVoice key f).voice? k = if k = key then (p.voice? k).map f else p.voice? k := by
  have hkey : ∀ v : Voice, (if v.key = key then f v else v).key = v.key := by
    intro v
    split
    · next h => rw [hf v h, h]
    · rfl
  rw [modifyVoice, voice?_mapVoices hkey]
  cases h : p.voice? k with
  | none => simp
  | some v =>
    have hv := key_of_voice? h
    by_cases hk : k = key
    · simp [hv, hk]
    · simp [hv, hk]

/-- A voice that is there stays; one that is not begins; the others stay. -/
theorem voice?_ensureVoice :
    (p.ensureVoice key).voice? k = if k = key then some (p.voiceOrNew key) else p.voice? k := by
  unfold ensureVoice
  split
  · next h =>
    obtain ⟨v, hv⟩ := Option.isSome_iff_exists.mp h
    by_cases hk : k = key
    · simp [hk, voiceOrNew, hv]
    · simp [hk]
  · next h =>
    have hnone : p.voice? key = none := by simpa using h
    have hnew : p.voiceOrNew key = p.newVoice key := by simp [voiceOrNew, hnone]
    rw [hnew]
    exact find?_upsert VoiceKey.before Voice.key (p.newVoice key) p.voices k

@[simp] theorem id_ensureVoice : (p.ensureVoice key).id = p.id := by
  unfold ensureVoice
  split <;> rfl

/-- The voice with the key, once it has begun. -/
@[simp] theorem key_voiceOrNew : (p.voiceOrNew key).key = key := by
  unfold voiceOrNew
  cases h : p.voice? key with
  | none => rfl
  | some v => exact key_of_voice? h

end Part

/-! ## Parts of a reading -/

namespace Reading

/-- The part with an id. -/
def partOf (r : Reading) (id : String) : Option Part :=
  r.parts.find? fun p => p.id = id

theorem part?_eq (r : Reading) : r.part? = r.partId?.bind r.partOf := rfl

/-- A part that is looked for by its id has that id. -/
theorem id_of_partOf {r : Reading} {id : String} {p : Part} (h : r.partOf id = some p) :
    p.id = id := by
  simpa using List.find?_some h

/-- A part is put back in the place of the one with its id. -/
theorem partOf_setPart (r : Reading) (part : Part) (id : String) :
    (r.setPart part).partOf id =
      if id = part.id then (r.partOf id).map fun _ => part else r.partOf id := by
  unfold partOf setPart
  dsimp only
  induction r.parts with
  | nil => simp
  | cons p ps ih =>
    rw [List.map_cons, List.find?_cons, List.find?_cons]
    by_cases hp : p.id = part.id
    · by_cases hid : id = part.id
      · simp [hp, hid]
      · have hne : part.id ≠ id := Ne.symm hid
        rw [ih]
        simp [hp, hid, hne]
    · by_cases hid : p.id = id
      · have hne : id ≠ part.id := fun he => hp (hid.trans he)
        simp [hid, hne]
      · rw [ih]
        simp [hp, hid]

/-- Of two parts with one id the second is put over the first. -/
theorem setPart_setPart {r : Reading} {p q : Part} (hid : q.id = p.id) :
    (r.setPart p).setPart q = r.setPart q := by
  simp only [setPart, List.map_map, Reading.mk.injEq, true_and, and_true]
  apply List.map_congr_left
  intro part _
  by_cases hpart : part.id = p.id
  · simp [hpart, hid]
  · simp [hpart, hid]

end Reading

/-! ## What a reading becomes -/

/-- The reading `s` is `r` with the part that is being read turned into `part` and the passage into
`q`. -/
structure Becomes (r s : Reading) (part : Part) (q : Passage) : Prop where
  partId : r.partId? = some part.id
  same_partId : s.partId? = r.partId?
  passage : s.passage = q
  here : s.partOf part.id = some part
  others : ∀ id, id ≠ part.id → s.partOf id = r.partOf id
  ids : s.parts.map Part.id = r.parts.map Part.id

namespace Becomes

variable {r s t : Reading} {part : Part} {q : Passage} {line : Nat} {key : VoiceKey}

/-- A reading with a current part is what it is. -/
theorem refl (h : r.part? = some part) : Becomes r r part r.passage := by
  rw [Reading.part?_eq, Option.bind_eq_some_iff] at h
  obtain ⟨id, hid, hpart⟩ := h
  have hp := Reading.id_of_partOf hpart
  subst hp
  exact ⟨hid, rfl, rfl, hpart, fun _ _ => rfl, rfl⟩

/-- The current part is the one that the reading has become. -/
theorem part? (h : Becomes r s part q) : s.part? = some part := by
  rw [Reading.part?_eq, h.same_partId, h.partId]
  exact h.here

/-- The part is put back in a new state. -/
theorem setPart (h : Becomes r s part q) {part' : Part} (hid : part'.id = part.id) :
    Becomes r (s.setPart part') part' q := by
  refine ⟨by rw [hid]; exact h.partId, h.same_partId, h.passage, ?_, ?_, ?_⟩
  · rw [Reading.partOf_setPart, if_pos rfl, hid, h.here]
    rfl
  · intro id hne
    rw [Reading.partOf_setPart, if_neg hne]
    exact h.others id (by rwa [hid] at hne)
  · rw [← h.ids]
    simp only [Reading.setPart, List.map_map]
    apply List.map_congr_left
    intro p _
    by_cases hp : p.id = part'.id <;> simp [hp]

/-- A change of the passage goes on with the changed passage. -/
theorem changePassage (h : Becomes r s part q) {f : Passage → Passage} {u : Unit}
    (hrun : Ends (Partwise.changePassage f) s u t) : Becomes r t part (f q) := by
  rw [hrun.changePassage]
  exact ⟨h.partId, h.same_partId, by rw [h.passage], h.here, h.others, h.ids⟩

/-- To look at the part that is being read finds it as it became, and changes nothing. -/
theorem currentPart (h : Becomes r s part q) {p : Part}
    (hrun : Ends (Partwise.currentPart line) s p t) : p = part ∧ t = s := by
  obtain ⟨hp, rfl⟩ := hrun.currentPart
  rw [h.part?] at hp
  exact ⟨(Option.some.inj hp).symm, rfl⟩

/-- A change of the part that is being read goes on with the changed part. -/
theorem changePart (h : Becomes r s part q) {f : Part → Part} {u : Unit}
    (hrun : Ends (Partwise.changePart line f) s u t) (hf : (f part).id = part.id) :
    Becomes r t (f part) q := by
  obtain ⟨p, hp, rfl⟩ := hrun.changePart
  rw [h.part?] at hp
  cases hp
  exact h.setPart hf

/-- A voice is looked for and begins if it is not there. -/
theorem voiceAt (h : Becomes r s part q) {v : Voice}
    (hrun : Ends (Partwise.voiceAt line key) s v t) :
    v = part.voiceOrNew key ∧ Becomes r t (part.ensureVoice key) q := by
  obtain ⟨p, _, hp, hmatch⟩ := hrun.bind
  obtain ⟨rfl, rfl⟩ := h.currentPart hp
  split at hmatch
  · next voice hvoice =>
    obtain ⟨rfl, rfl⟩ := hmatch.pure
    have hthere : p.ensureVoice key = p := by simp [Part.ensureVoice, hvoice]
    rw [hthere]
    exact ⟨by simp [Part.voiceOrNew, hvoice], h⟩
  · next hvoice =>
    obtain ⟨_, _, htell, hrest⟩ := hmatch.bind
    obtain ⟨_, _, hset, hpure⟩ := hrest.bind
    obtain ⟨rfl, rfl⟩ := hpure.pure
    rw [hset.modify, htell.tell]
    exact ⟨by simp [Part.voiceOrNew, hvoice], h.setPart Part.id_ensureVoice⟩

/-- A voice is changed. If it was not there, it began before. -/
theorem changeVoice (h : Becomes r s part q) {f : Voice → Voice} {u : Unit}
    (hrun : Ends (Partwise.changeVoice line key f) s u t) :
    Becomes r t ((part.ensureVoice key).modifyVoice key f) q := by
  obtain ⟨_, s₁, hvoice, hchange⟩ := hrun.bind
  obtain ⟨_, hat⟩ := Ends.discard hvoice
  exact (h.voiceAt hat).2.changePart hchange rfl

/-- An element is put at the end of a voice. -/
theorem appendTo (h : Becomes r s part q) {e : VoiceElement} {u : Unit}
    (hrun : Ends (Partwise.appendTo line key e) s u t) :
    Becomes r t ((part.ensureVoice key).modifyVoice key fun v => v.append e) q :=
  h.changeVoice hrun

/-- What only speaks or decodes changes nothing. -/
theorem lift (h : Becomes r s part q) {α : Type} {x : Journaled α} {a : α}
    (hrun : Ends (liftM x) s a t) : Gives x a ∧ Becomes r t part q := by
  obtain ⟨hx, rfl⟩ := hrun.lift
  exact ⟨hx, h⟩

end Becomes

end Partwise
