import Partwise.Proofs.Music.Tuplets
import Partwise.Proofs.Reading.Rescaling
import Partwise.Proofs.Reading.Resemblance

/-!
# Reading · Units: in what units time is counted

A document counts time in divisions, of which it says itself how many are a quarter. With `k` times
as many divisions that are `k` times as short it says the same: `Transcript.inUnits` is a transcript
with `k` times as many divisions in its tuplets, and in those parts and their voices that have got
divisions. A document of which every part has got divisions before it counts in them
(`Element.isDivided`) comes to a transcript, and in other units to the same one in these, or it
fails the same in both (`Document.read_inUnits`).

The two readings are followed side by side (`Reading.Resemblance`). Which parts have got divisions
changes on the way, and with it when two parts resemble each other: `Divided` keeps account of it,
and `Units.perform` says of every move how readings that are `Abreast` stay so.
-/

namespace Partwise

open Markup

/-! ## Scores in other units -/

/-- Scores whose tuplets are written down in units that are `k` times as short. -/
def Guise.units (k : Nat) : Guise where
  note := id
  chord := id
  tuplets divisions := k * divisions
  stanzas := id
  slurDepth := id
  slurOpening := id

/-- Other units change nothing of what a reading asks about music. -/
theorem Guise.units_lawful (k : Nat) : (Guise.units k).Lawful where
  isRest _ := rfl
  line _ := rfl
  length _ := rfl
  measure _ := rfl
  chordMeasure _ := rfl
  ofPair _ _ := rfl
  absorb _ _ := rfl
  skip _ _ _ _ _ _ := rfl
  stanzas := rfl
  slurDepth := rfl
  slurOpening := rfl

mutual

/-- A tuplet in the same units is the same. -/
theorem Tuplet.guise_one (t : Tuplet) : t.guise (.units 1) = t := by
  match t with
  | ⟨_, _, _, divisions, _, _, _, _, members, _⟩ =>
    have hdivisions : (Guise.units 1).tuplets divisions = divisions := Nat.one_mul divisions
    rw [Tuplet.guise, hdivisions, guiseMembers_one members]

/-- A member of a tuplet is the same in the same units. -/
theorem TupletMember.guise_one (m : TupletMember) : m.guise (.units 1) = m := by
  match m with
  | .note _ => rfl
  | .chord _ => rfl
  | .tuplet t => rw [TupletMember.guise, t.guise_one]

/-- The members of a tuplet are the same in the same units. -/
theorem guiseMembers_one (ms : List TupletMember) : guiseMembers (.units 1) ms = ms := by
  match ms with
  | [] => rfl
  | m :: ms => rw [guiseMembers, m.guise_one, guiseMembers_one ms]

end

mutual

/-- An element of a voice is the same in the same units. -/
theorem VoiceElement.guise_one (e : VoiceElement) : e.guise (.units 1) = e := by
  match e with
  | .note _ => rfl
  | .chord _ => rfl
  | .tuplet t => rw [VoiceElement.guise, t.guise_one]
  | .repeated r => rw [VoiceElement.guise, r.guise_one]
  | .barline _ => rfl
  | .clef _ => rfl
  | .key _ => rfl
  | .time _ => rfl
  | .direction _ => rfl
  | .barCheck _ => rfl

/-- A repeat is the same in the same units. -/
theorem Repeat.guise_one (r : Repeat) : r.guise (.units 1) = r := by
  match r with
  | ⟨body, endings, _, _⟩ => rw [Repeat.guise, guiseElements_one body, guiseEndings_one endings]

/-- The elements of a voice are the same in the same units. -/
theorem guiseElements_one (es : List VoiceElement) : guiseElements (.units 1) es = es := by
  match es with
  | [] => rfl
  | e :: es => rw [guiseElements, e.guise_one, guiseElements_one es]

/-- The endings of a repeat are the same in the same units. -/
theorem guiseEndings_one (endings : List Ending) : guiseEndings (.units 1) endings = endings := by
  match endings with
  | [] => rfl
  | ⟨_, _, chunk⟩ :: endings => rw [guiseEndings, guiseElements_one chunk, guiseEndings_one endings]

end

/-- Divisions in units that are as long are the same. -/
theorem Voice.guise_one (v : Voice) : v.guise (.units 1) (fun d => d) = v := by
  have helements : ∀ es : List VoiceElement, es.map (VoiceElement.guise (.units 1)) = es :=
    fun es => (guiseElements_eq es).symm.trans (guiseElements_one es)
  have hpending : v.pending?.map (Repeat.guise (.units 1)) = v.pending? := by
    rw [show Repeat.guise (.units 1) = id from funext Repeat.guise_one, Option.map_id]
    rfl
  simp only [guise, helements, hpending]
  rfl

/-- A part is the same in the same units. -/
theorem Part.guise_one (p : Part) : p.guise (.units 1) (fun d => d) = p := by
  have hvoices : Voice.guise (.units 1) (fun d => d) = fun v => v := funext Voice.guise_one
  rw [guise, mapVoices, hvoices, List.map_id']

namespace Voice

variable {k : Nat} {divisions : Nat → Nat} (v : Voice)

/-- The slurs of a note are followed the same in all units. -/
theorem markSlurs_units (slurs : List Slur) (kind : LyricKind) :
    (v.guise (.units k) divisions).markSlurs slurs kind =
      (v.markSlurs slurs kind).guise (.units k) divisions := by
  have hstop : ∀ (slurs : List Slur) (v : Voice),
      slurs.foldl (fun v _ => v.stopSlur) (v.guise (.units k) divisions) =
        (slurs.foldl (fun v _ => v.stopSlur) v).guise (.units k) divisions :=
    fun _ _ => List.foldl_hom _ fun _ _ => rfl
  have hstart : ∀ (slurs : List Slur) (v : Voice),
      slurs.foldl (fun v _ => v.startSlur kind) (v.guise (.units k) divisions) =
        (slurs.foldl (fun v _ => v.startSlur kind) v).guise (.units k) divisions :=
    fun _ _ => List.foldl_hom _ fun _ _ => rfl
  unfold markSlurs
  dsimp only
  rw [hstop, hstart]

/-- A voice sings the same in all units. -/
theorem sing_units (n : Note) (lyrics : List Lyric) :
    (v.guise (.units k) divisions).sing n lyrics =
      ((v.sing n lyrics).1.guise (.units k) divisions, (v.sing n lyrics).2) := by
  have hlearned : (v.guise (.units k) divisions).learnStanzas lyrics =
      (v.learnStanzas lyrics).guise (.units k) divisions := rfl
  have hchunks : ((v.learnStanzas lyrics).guise (.units k) divisions).lyricChunks n lyrics =
      (v.learnStanzas lyrics).lyricChunks n lyrics := rfl
  have hsilent : ((v.learnStanzas lyrics).guise (.units k) divisions).silentKind n =
      (v.learnStanzas lyrics).silentKind n := rfl
  unfold sing
  dsimp only
  rw [hlearned, hchunks, hsilent, markSlurs_units]

end Voice

/-! ## Divisions on the way -/

/-- What is known of divisions on the way through a document: which part is being read, and which
parts have got divisions. -/
structure Divided where
  current? : Option String := none
  ids : List String := []

namespace Divided

/-- What is known after a move. -/
def step (d : Divided) : Move → Divided
  | .enterPart e => { d with current? := some ((e.attr? "id").getD "") }
  | .leavePart _ => { d with current? := none }
  | .leaf e =>
    if e.name = "attributes" ∧ e.has "divisions" then { d with ids := d.current?.toList ++ d.ids }
    else d
  | _ => d

/-- Only attributes bring divisions. -/
theorem step_leaf {d : Divided} {e : Element} (h : e.name ≠ "attributes") :
    d.step (.leaf e) = d :=
  if_neg fun hname => h hname.1

/-- Attributes with divisions give divisions to the part that is being read, and others to none. -/
theorem ids_step_attributes {d : Divided} {e : Element} (h : e.name = "attributes") :
    (d.step (.leaf e)).ids = if e.has "divisions" then d.current?.toList ++ d.ids else d.ids := by
  unfold step
  simp only [h, true_and]
  split <;> rfl

/-- Which part is being read after a move. -/
theorem current_step (d : Divided) (settings : Settings) (r : Reading) (m : Move) :
    (d.step m).current? = (m.deed settings r).partAfter d.current? := by
  cases m with
  | leaf e =>
    have hsame : (d.step (.leaf e)).current? = d.current? := by
      unfold step
      dsimp only
      split <;> rfl
    exact hsame.trans (Deed.partAfter_ofLeaf settings r e d.current?).symm
  | enterPart | leavePart | enterMeasure | leaveMeasure | leavePartList => rfl

/-- The part has got divisions, if the move counts in them. -/
def reckons (d : Divided) : Move → Bool
  | .leaf e => !e.isReckoned || d.current?.all (d.ids.contains ·)
  | _ => true

/-- Whatever the moves count, the part has got divisions before. -/
def reckonsAll (d : Divided) : List Move → Bool
  | [] => true
  | m :: ms => d.reckons m && (d.step m).reckonsAll ms

end Divided

/-- Every note, and every movement in time, of a part comes after divisions of that part. -/
def Markup.Element.isDivided (root : Element) : Bool :=
  Divided.reckonsAll {} (movesOf root)

/-- The ids of the parts that have got divisions in the end. -/
def Markup.Element.dividedParts (root : Element) : List String :=
  ((movesOf root).foldl Divided.step {}).ids

/-- The divisions of a part in units that are `k` times as short, if it has got divisions. -/
def unitsOf (k : Nat) (ids : List String) (id : String) (divisions : Nat) : Nat :=
  if id ∈ ids then k * divisions else divisions

/-! ## Readings in two units -/

/-- A failure may differ in what it says about divisions. -/
inductive Failure.Rescaled (k : Nat) : Failure → Failure → Prop
  | same (f : Failure) : Rescaled k f f
  | divisions (line : Nat) (n : Int) :
      Rescaled k (.range line (.divisionsNotPositive n)) (.range line (.divisionsNotPositive (k * n)))

/-- The first reading is looked at in the units of the second one. -/
def Pairing.units (k : Nat) (ids : List String) (among : String → Prop) : Pairing where
  heeds _ := true
  fails := Failure.Rescaled k
  lenient := False
  first := .units k
  second := .units 1
  divisions := unitsOf k ids
  divisions' _ divisions := divisions
  marks a b := a = b
  among := among
  known id := id ∈ ids

namespace Units

variable {k : Nat} {ids : List String} {among : String → Prop} {settings : Settings}
variable {r s : Reading} {e : Element} {d : Divided} {m : Move}

/-- Readings are alike that are the same but for the units of divisions. -/
abbrev likeness (k : Nat) (ids : List String) (among : String → Prop) : Likeness :=
  (Pairing.units k ids among).likeness

/-- That readings are the same in two units goes together with everything that reading does. -/
theorem lawful (k : Nat) (ids : List String) (among : String → Prop) :
    (likeness k ids among).Lawful :=
  Pairing.Lawful.likeness
    { failure := .same
      first := Guise.units_lawful k
      second := Guise.units_lawful 1
      note := fun _ _ => rfl
      queue := fun h => congrArg (· ++ _) h }

/-- Which part is being read makes no difference for whole documents. -/
theorem whole (k : Nat) (ids : List String) : (likeness k ids fun _ => True).Whole where
  toLawful := lawful k ids _
  enter h := ⟨h, trivial⟩
  declare e id hunknown := by
    have hdivisions : ∀ divisions, unitsOf k ids id divisions = divisions :=
      fun divisions => if_neg hunknown
    refine ⟨?_, List.nodup_nil⟩
    show (Part.ofElement e id).guise (.units k) (unitsOf k ids id) = _
    rw [Part.guise, hdivisions]
    rfl
  elementCheck _ := rfl
  noMarks := rfl

/-- Voices sing the same. -/
theorem sings (k : Nat) (ids : List String) (among : String → Prop) :
    (likeness k ids among).Sings where
  strict := trivial
  note h := h
  sameNote _ := rfl
  marks h := h
  noMarks := rfl
  sung n lyrics h hv hw := by
    have hsung := congrArg (fun v => (v.sing n lyrics).2) (h.1.voice hv hw)
    simpa only [Pairing.units, Voice.sing_units] using hsung
  sing n lyrics h hv hw := by
    have hsung := congrArg (fun v => (v.sing n lyrics).1) (h.1.voice hv hw)
    simp only [Pairing.units, Voice.sing_units] at hsung
    refine ⟨h.1.setVoice ?_ hsung, h.2⟩
    exact (Voice.still_sing _ n lyrics).1.key.trans (Part.key_of_voice? hv)
  markSlurs {p q key} slurs kind h := by
    have hmark : ∀ (g : Guise) (divisions : Nat → Nat) (p : Part), (∃ k, g = .units k) →
        (p.modifyVoice key fun v => v.markSlurs slurs kind).guise g divisions =
          (p.guise g divisions).modifyVoice key fun v => v.markSlurs slurs kind := by
      rintro _ divisions p ⟨k, rfl⟩
      exact p.modifyVoice_guise fun v => (v.markSlurs_units slurs kind).symm
    refine ⟨h.1.of_map (fun p => p.modifyVoice key fun v => v.markSlurs slurs kind) rfl rfl ?_
      (hmark _ _ p ⟨k, rfl⟩) (hmark _ _ q ⟨1, rfl⟩), h.2⟩
    exact Pairing.Resemble.keyed_modifyVoice
      (fun v hv => (v.still_markSlurs slurs kind).key.trans hv) h.1.keyed

/-- In a part that has got divisions these are `k` times as many. -/
theorem divisions_eq {p q : Part} (h : (likeness k ids (· ∈ ids)).here p q) :
    q.divisionsPerWhole = k * p.divisionsPerWhole := by
  have hdivisions : unitsOf k ids p.id p.divisionsPerWhole = q.divisionsPerWhole := h.1.divisions
  rw [← hdivisions]
  exact if_pos h.2

/-- Tuplets open in the divisions of their part. -/
theorem opens (k : Nat) (ids : List String) : (likeness k ids (· ∈ ids)).Opens := by
  intro p q h start key measure position line
  show Tuplet.guise (.units k) _ = Tuplet.guise (.units 1) _
  rw [divisions_eq h, TupletStart.tuplet, TupletStart.tuplet, Tuplet.guise, Tuplet.guise]
  simp only [Guise.units, Nat.one_mul]
  rfl

/-- Where divisions count, the second reading has finer ones. -/
theorem finer (h : (likeness k ids (· ∈ ids)).Alike r s) :
    (r.surroundings settings).Finer k (s.surroundings settings) := by
  have hpart := h.part
  unfold Surroundings.Finer
  show s.part?.map _ = r.part?.map _
  generalize r.part? = p? at hpart
  generalize s.part? = q? at hpart
  cases hpart with
  | none => rfl
  | some hpq => exact congrArg some (divisions_eq hpq)

/-! ### Notes and movements in time -/

/-- A duration in divisions is the same in other units, if its part has got divisions. -/
theorem duration (hk : 0 < k) (hfits : e.rescalable k) (h : (likeness k ids (· ∈ ids)).Alike r s) :
    Concur (likeness k ids (· ∈ ids)).toStandard Eq ((r.surroundings settings).duration e)
      ((s.surroundings settings).duration (e.rescaled k)) := by
  rw [(finer h).duration hk hfits]
  exact .refl (Surroundings.steady_duration _ e).blind .same

/-- A note stands in the same voice in other units. -/
theorem place (h : (likeness k ids among).Alike r s) (e : Element) (current : VoiceKey) :
    Concur (likeness k ids among).toStandard Eq ((r.surroundings settings).place e current)
      ((s.surroundings settings).place (e.rescaled k) current) := by
  rw [Surroundings.place_rescaled]
  exact ((sings k ids among).policy (lawful k ids among) settings).place h e current

/-- Two notes are read alike that are the same in two units, if the part has got divisions. -/
theorem readNote (hk : 0 < k) (hfits : e.rescalable k) :
    Partwise.Parallel (likeness k ids (· ∈ ids)).toStandard
      ((likeness k ids (· ∈ ids)).With Reading.Begun) (likeness k ids (· ∈ ids)).Alike Eq
      (Partwise.readNote settings e) (Partwise.readNote settings (e.rescaled k)) := by
  refine (lawful k ids _).readNote (opens k ids)
    ((sings k ids _).policy (lawful k ids _) settings) (e.line_rescaled k) fun r s h => ?_
  refine (NoteInput.concur (lawful k ids _).failure (sameNote_rescaled k e) (place h e _)
    fun display? ratio? => ?_).mono ?_
  · rw [(finer h).noteLength hk hfits]
    exact .refl (Surroundings.steady_noteLength _ e display? ratio?).blind .same
  · rintro i i' ⟨hsilent, hlyrics, rfl⟩
    rw [e.childrenNamed_rescaled, ← hlyrics]
    exact ⟨i, .refl (lawful k ids _) hsilent, performNote_rescaled e.line i⟩

/-- Whatever counts time is read alike in a part that has got divisions. -/
theorem readReckoned (hk : 0 < k) (hfits : e.rescalable k) (he : e.isReckoned) :
    Partwise.Parallel (likeness k ids (· ∈ ids)).toStandard
      ((likeness k ids (· ∈ ids)).With Reading.Begun) (likeness k ids (· ∈ ids)).Alike Eq
      (readLeaf settings e) (readLeaf settings (e.rescaled k)) := by
  simp only [Element.isReckoned, Bool.or_eq_true, beq_iff_eq, or_assoc] at he
  rcases he with hname | hname | hname
  · rw [readLeaf_note hname, readLeaf_note ((e.name_rescaled k).trans hname)]
    exact readNote hk hfits
  · rw [readLeaf_backup hname, readLeaf_backup ((e.name_rescaled k).trans hname)]
    exact fun r s h => (lawful k ids _).readBackup (e.line_rescaled k)
      (fun _ _ h => duration hk hfits h) r s h.1
  · rw [readLeaf_forward hname, readLeaf_forward ((e.name_rescaled k).trans hname)]
    exact fun r s h => (lawful k ids _).readForward (e.line_rescaled k)
      (fun _ _ h => duration hk hfits h) (fun _ _ key h => place h e key) r s h.1

/-! ### Divisions -/

/-- Divisions are read as `k` times what they were. -/
theorem divisionsOfElement {S : Standard} (hfails : S.fails = Failure.Rescaled k) (hk : 0 < k)
    (hfits : e.rescalable k) (hname : e.name = "divisions") :
    Concur S (fun perWhole perWhole' => perWhole' = k * perWhole) (Partwise.divisionsOfElement e)
      (Partwise.divisionsOfElement (e.rescaled k)) := by
  have hsame : ∀ f, S.fails f f := fun f => hfails ▸ .same f
  unfold Partwise.divisionsOfElement
  rw [Element.value?_count hfits (by rw [hname]; rfl), e.line_rescaled]
  rcases hvalue : e.value? .i64 with fault | _ | n
  · exact .throw (hsame _)
  · exact .throw (hsame _)
  · have hrange : 4 * (k * n) < 0x100000000 := Element.lt_of_divisions hfits hname hvalue
    have hpositive : (k : Int) * n ≤ 0 ↔ n ≤ 0 := by
      rw [← not_lt, ← not_lt, mul_pos_iff_of_pos_left (by omega)]
    show Concur S _ (if n ≤ 0 then _ else _) (if (k : Int) * n ≤ 0 then _ else _)
    simp only [hpositive]
    split
    · exact .throw (hfails ▸ .divisions e.line n)
    · next hn =>
      have hgrows : n ≤ k * n := le_mul_of_one_le_left (by omega) (by omega)
      rw [if_neg (by omega), if_neg (by omega)]
      refine .pure ?_
      rw [← Int.toNat_natCast k, ← Int.toNat_mul (by omega) (by omega), Int.toNat_natCast]
      exact congrArg Int.toNat (mul_left_comm 4 (k : Int) n)

/-- A part resembles another one in divisions that came into force in both. -/
theorem resemble_withDivisions {p q : Part} (h : (Pairing.units k ids among).Resemble p q)
    (perWhole : Nat) : (Pairing.units k (p.id :: ids) among).Resemble (p.withDivisions perWhole)
      (q.withDivisions (k * perWhole)) := by
  have hunits : unitsOf k (p.id :: ids) p.id perWhole = k * perWhole :=
    if_pos List.mem_cons_self
  refine ⟨?_, h.keyed.of_map rfl fun _ => rfl⟩
  calc (p.withDivisions perWhole).guise (.units k) (unitsOf k (p.id :: ids) p.id)
      = (p.guise (.units k) (unitsOf k ids p.id)).withDivisions (k * perWhole) := by
        rw [p.withDivisions_guise, hunits]
    _ = (q.guise (.units 1) fun d => d).withDivisions (k * perWhole) :=
        congrArg (fun p : Part => p.withDivisions (k * perWhole)) h.guise_eq
    _ = (q.withDivisions (k * perWhole)).guise (.units 1) fun d => d :=
        (q.withDivisions_guise (k * perWhole) fun d => d).symm

/-- Other parts are no concern of divisions that come into force. -/
theorem resemble_other {p q : Part} {id : String} (hid : p.id ≠ id)
    (h : (Pairing.units k ids among).Resemble p q) :
    (Pairing.units k (id :: ids) among).Resemble p q := by
  have hunits : unitsOf k (id :: ids) p.id = unitsOf k ids p.id := by
    funext divisions
    simp [unitsOf, hid]
  refine ⟨?_, h.keyed⟩
  show p.guise (.units k) (unitsOf k (id :: ids) p.id) = q.guise (.units 1) fun d => d
  rw [hunits]
  exact h.guise_eq

/-- Divisions come into force, and the part has got them from now on. -/
theorem readDivisions (hk : 0 < k) (hfits : e.rescalable k) (hname : e.name = "divisions")
    (h : (likeness k ids fun _ => True).Alike r s) :
    Partwise.ParallelAt (likeness k ids fun _ => True).toStandard
      (likeness k (r.partId?.toList ++ ids) fun _ => True).Alike Eq r s
      (Partwise.readDivisions e) (Partwise.readDivisions (e.rescaled k)) := by
  unfold Partwise.readDivisions
  rw [e.line_rescaled]
  refine ParallelAt.bind (R := fun t u => r = t ∧ s = u)
    (.lift (divisionsOfElement rfl hk hfits hname) ⟨rfl, rfl⟩) ?_
  rintro perWhole _ _ _ rfl ⟨rfl, rfl⟩
  refine ParallelAt.bind (A := Eq) ((lawful k ids _).withPartAt h fun p q hp hq hpq => ?_)
    fun _ _ _ _ _ h' => .lift (.tell _ _) h'
  rw [(Becomes.refl hp).partId]
  intro j j' hjj'
  refine .ends ⟨rfl, ?_⟩ hjj'
  exact h.becomePart (lawful k ids _) (lawful k _ _) hp hq rfl hpq
    ⟨resemble_withDivisions hpq.1 perWhole, trivial⟩ (fun _ _ hid hxy => resemble_other hid hxy)
    (fun _ hid => (List.mem_cons.mp hid).symm) (h.passage.mono (fun _ _ h => h) (fun _ _ h => h) fun hs => hs)
    fun hs => hs

/-- Attributes are read alike in two units, and their part has got divisions after that if they hold
some. -/
theorem readAttributes (hk : 0 < k) (hfits : e.rescalable k)
    (h : (likeness k ids fun _ => True).Alike r s) :
    Partwise.ParallelAt (likeness k ids fun _ => True).toStandard
      (likeness k (if e.has "divisions" then r.partId?.toList ++ ids else ids) fun _ => True).Alike
      Eq r s (Partwise.readAttributes e) (Partwise.readAttributes (e.rescaled k)) := by
  rw [readAttributes_eq, readAttributes_eq, readSigns_rescaled, e.child?_rescaled, Element.has]
  rcases hchild : e.child? "divisions" with _ | child
  · exact (lawful k ids _).readSigns (.refl (lawful k ids _) e) r s h
  · have hfits' := Element.rescalable_of_child? hfits hchild
    exact (readDivisions hk hfits' (Element.name_of_child? hchild) h).bind
      fun _ _ t u _ h' => (lawful k _ _).readSigns (.refl (lawful k _ _) e) t u h'

/-! ### Moves -/

/-- Readings that are alike are so whichever parts may be read, if that is true of the one that is
being read. -/
theorem among_of {among' : String → Prop} (h : (likeness k ids among).Alike r s)
    (hamong : ∀ p, r.part? = some p → among' p.id) : (likeness k ids among').Alike r s :=
  h.mono (fun _ _ hpq => ⟨hpq.guise_eq, hpq.keyed⟩)
    (fun p _ hp hpq => ⟨⟨hpq.1.guise_eq, hpq.1.keyed⟩, hamong p hp⟩)
    (h.passage.mono (fun _ _ h => h) (fun _ _ h => h) fun hs => hs) (fun _ h => h) fun hs => hs

/-- What is known of the two readings between the moves. -/
structure Abreast (k : Nat) (d : Divided) (r s : Reading) : Prop where
  alike : (likeness k d.ids fun _ => True).Alike r s
  sound : r.Sound
  current : r.partId? = d.current?

/-- In a part that has got divisions readings are alike that count in them. -/
theorem Abreast.divided (h : Abreast k d r s) (hd : d.current?.all (d.ids.contains ·)) :
    (likeness k d.ids (· ∈ d.ids)).Alike r s := by
  refine among_of h.alike fun p hp => ?_
  rw [← h.current, (Becomes.refl hp).partId] at hd
  simpa using hd

/-- **Every move** is made alike, if the part has got divisions that it counts in. -/
theorem perform (hk : 0 < k) (hfits : m.rescalable k) (hd : d.reckons m) :
    Partwise.Parallel (likeness k [] fun _ => True).toStandard (Abreast k d) (Abreast k (d.step m))
      Eq (m.perform settings) ((m.rescaled k).perform settings) := by
  intro r s h
  have hbegun : r.Begun := fun key hkey => (h.sound.tuplets key hkey).begun
  have P := (sings k d.ids fun _ => True).policy (lawful k d.ids _) settings
  have halike : Partwise.ParallelAt (likeness k [] fun _ => True).toStandard
      (likeness k (d.step m).ids fun _ => True).Alike Eq r s (m.perform settings)
      ((m.rescaled k).perform settings) := by
    by_cases hleaf : ∃ e, m = .leaf e
    · obtain ⟨e, rfl⟩ := hleaf
      by_cases hreckoned : e.isReckoned
      · have hname : e.name ≠ "attributes" := by
          rintro hname
          simp [Element.isReckoned, hname] at hreckoned
        have hdivided : d.current?.all (d.ids.contains ·) := by
          simpa [Divided.reckons, hreckoned] using hd
        rw [Divided.step_leaf hname]
        exact (readReckoned hk hfits hreckoned r s ⟨h.divided hdivided, hbegun⟩).mono
          (fun _ _ h => h) fun _ _ h => among_of h fun _ _ => trivial
      · by_cases hname : e.name = "attributes"
        · have hread := readAttributes hk hfits h.alike
          rw [h.current, ← Divided.ids_step_attributes hname] at hread
          show Partwise.ParallelAt _ _ _ _ _ (readLeaf settings e) (readLeaf settings (e.rescaled k))
          rw [readLeaf_attributes hname, readLeaf_attributes ((e.name_rescaled k).trans hname)]
          exact hread
        · have hcounts : e.countsDivisions = false := by
            simp [Element.countsDivisions, hreckoned, hname]
          rw [Divided.step_leaf hname]
          show Partwise.ParallelAt _ _ _ _ _ (readLeaf settings e) (readLeaf settings (e.rescaled k))
          rw [readLeaf_rescaled hcounts]
          exact (whole k d.ids).readUncounted P hcounts r s h.alike
    · have hids : (d.step m).ids = d.ids := by
        cases m with
        | leaf e => exact absurd ⟨e, rfl⟩ hleaf
        | enterPart | leavePart | enterMeasure | leaveMeasure | leavePartList => rfl
      rw [hids, Move.perform_rescaled fun e he => absurd ⟨e, he⟩ hleaf]
      exact (whole k d.ids).performBoundary P (fun e he => hleaf ⟨e, he⟩) r s h.alike
  refine (halike.keep (P := fun t => t.Sound ∧ t.partId? = (d.step m).current?)
    fun _ t hrun => ?_).mono (fun _ _ h => h) fun t u h => ⟨h.1, h.2.1, h.2.2⟩
  have hdoes := Does.perform h.sound hrun
  exact ⟨hdoes.sound, by rw [hdoes.partId, h.current, d.current_step settings r]⟩

/-- Moves are made alike one after the other. -/
theorem performAll (hk : 0 < k) {ms : List Move} (hfits : ∀ m ∈ ms, m.rescalable k) {d : Divided}
    (hd : d.reckonsAll ms) :
    Partwise.Parallel (likeness k [] fun _ => True).toStandard (Abreast k d)
      (Abreast k (ms.foldl Divided.step d)) Eq (forM ms (Move.perform settings))
      (forM (ms.map (Move.rescaled k)) (Move.perform settings)) := by
  induction ms generalizing d with
  | nil => exact .pure rfl
  | cons m ms ih =>
    rw [Divided.reckonsAll, Bool.and_eq_true] at hd
    rw [List.map_cons, List.forM_cons, List.forM_cons]
    exact (perform hk (hfits m List.mem_cons_self) hd.1).bind fun _ _ _ =>
      ih (fun m hm => hfits m (List.mem_cons_of_mem _ hm)) hd.2

end Units

/-! ## Documents -/

/-- The part in units that are `k` times as short, if it has got divisions. -/
def Part.inUnits (k : Nat) (ids : List String) (p : Part) : Part :=
  p.guise (.units k) (unitsOf k ids p.id)

/-- A transcript with the divisions of tuplets, and of the parts with the ids and their voices, in
units that are `k` times as short. -/
def Transcript.inUnits (k : Nat) (ids : List String) (t : Transcript) : Transcript :=
  { t with score := t.score.mapParts (Part.inUnits k ids) }

/-- Two documents come to the same: to the same transcript in other units, or to the same failure,
unless it is about divisions. -/
inductive Transcript.Rescaled (k : Nat) (ids : List String) :
    Except Failure Transcript → Except Failure Transcript → Prop
  | read (t : Transcript) : Rescaled k ids (.ok t) (.ok (t.inUnits k ids))
  | fails {f g : Failure} (h : Failure.Rescaled k f g) : Rescaled k ids (.error f) (.error g)

namespace Units

variable {k : Nat} {ids : List String} {settings : Settings} {r s : Reading}

/-- Scores are put together from parts in other units as from the parts themselves. -/
theorem groups (drafts : List GroupDraft) (h : (likeness k ids fun _ => True).Alike r s) :
    Likeness.Outcomes (fun gs gs' => gs' = gs.map (PartGroup.mapParts (Part.inUnits k ids)))
      (assembleGroups r.parts drafts) (assembleGroups s.parts drafts) := by
  have hparts : r.parts.map (Part.inUnits k ids) = s.parts := by
    rw [← List.map_id s.parts, ← List.forall₂_eq_eq_eq, List.forall₂_map_left_iff,
      List.forall₂_map_right_iff]
    exact h.parts.imp fun p q hpq => hpq.guise_eq.trans q.guise_one
  rw [← hparts, assembleGroups_map (f := Part.inUnits k ids) fun _ => rfl]
  cases assembleGroups r.parts drafts with
  | error => exact .error
  | ok => exact .ok rfl

/-- Of two readings that were heard alike all diagnostics are the same. -/
theorem diagnostics_eq {j j' : Journal}
    (h : (likeness k [] fun _ => True).heard j = (likeness k [] fun _ => True).heard j') :
    j.diagnostics = j'.diagnostics := by
  have hall : ∀ ds : List Diagnostic, ds.filter (fun _ => true) = ds :=
    fun ds => List.filter_eq_self.mpr fun _ _ => rfl
  have hmarks : j.diagnostics.marks = j'.diagnostics.marks := by
    rw [← hall j.diagnostics.marks, ← hall j'.diagnostics.marks]
    exact h
  exact congrArg Diagnostics.mk hmarks

end Units

/-- **The units of time** make no difference. If all parts have got divisions before they count in
them, and all counts stay in range, a document in units that are `k` times as short comes to the
same as before: to the same transcript in these units, or to the same failure. -/
theorem Document.read_inUnits (settings : Settings) {root : Element} {k : Nat} (hk : 0 < k)
    (hfits : root.rescalable k) (hdivided : root.isDivided) :
    Transcript.Rescaled k root.dividedParts (Document.read settings root).transcript
      (Document.read settings (root.rescaled k)).transcript := by
  have hagree : (Units.likeness k [] fun _ => True).Agree
      (fun p q => p.identification = q.identification ∧
        q.groups = p.groups.map (PartGroup.mapParts (Part.inUnits k root.dividedParts)))
      ((Document.read settings root).score, (Document.read settings root).journal)
      ((Document.read settings (root.rescaled k)).score,
        (Document.read settings (root.rescaled k)).journal) := by
    unfold Document.read
    rw [root.name_rescaled]
    split
    · refine .closed (.run (R := (Units.likeness k root.dividedParts fun _ => True).Alike) ?_)
      rw [visit_eq, visit_eq, movesOf_rescaled]
      have hbegins : Units.Abreast k {} ({} : Reading) {} :=
        ⟨(Units.whole k []).noReading fun _ => List.not_mem_nil, Reading.sound_empty, rfl⟩
      have hmoves := @Units.performAll k settings hk (movesOf root)
        (fun m hm => rescalable_movesOf hfits hm) {} hdivided
      refine Parallel.bind (R := Units.Abreast k {}) (A := Eq) (.lift (.tell _ _))
        (fun _ _ _ => Parallel.bind hmoves fun _ _ _ r s h => ?_) {} {} hbegins
      exact (Units.whole k root.dividedParts).complete trivial (fun _ _ => Units.groups) r s h.alike
    · exact .fails (.same _)
  unfold Outcome.transcript Outcome.diagnostics
  generalize (Document.read settings root).score = x at hagree ⊢
  generalize (Document.read settings (root.rescaled k)).score = y at hagree ⊢
  cases hagree with
  | fails h => exact .fails h
  | spared h => exact h.elim
  | @ends score score' _ _ hscore hjournals =>
    have hscore' : score' = score.mapParts (Part.inUnits k root.dividedParts) := by
      rw [Score.mapParts, ← hscore.2, hscore.1]
    rw [← Units.diagnostics_eq hjournals, hscore']
    exact .read ⟨score, _⟩

/-- Attributes that bring divisions. -/
def divisionsElement (divisions : String) : Element :=
  { name := "attributes", children := [textElement "divisions" divisions] }

/-- A tuplet that opens in other divisions than it closes in. -/
def divisionsWithinTuplet : Element :=
  singleMeasure [divisionsElement "2",
    noteElement 2 "C" "1" "1" (tupletMarks [tupletMark "start" "1"]), divisionsElement "3",
    noteElement 3 "D" "1" "2" (tupletMarks [tupletMark "stop" "1"])]

/-- Of twelve divisions in the end there are sixty in units that are five times as short. -/
theorem Document.read_inUnits_withinTuplet : ∃ t,
    (Document.read {} divisionsWithinTuplet).transcript = .ok t ∧
      (Document.read {} (divisionsWithinTuplet.rescaled 5)).transcript =
        .ok (t.inUnits 5 divisionsWithinTuplet.dividedParts) ∧
      t.score.parts.map Part.divisionsPerWhole = [12] ∧
      "P" ∈ divisionsWithinTuplet.dividedParts := by
  have hthere : hasScore divisionsWithinTuplet (fun score =>
      score.parts.map Part.divisionsPerWhole = [12]) = true := by decide +kernel
  obtain ⟨score, hread, hdivisions⟩ := exists_score hthere
  have htranscript : (Document.read {} divisionsWithinTuplet).transcript =
      .ok ⟨score, (Document.read {} divisionsWithinTuplet).diagnostics⟩ := by
    rw [Outcome.transcript, hread]
    rfl
  have hfits : divisionsWithinTuplet.rescalable 5 = true := by decide +kernel
  have hdivided : divisionsWithinTuplet.isDivided = true := by decide +kernel
  have hrescaled := Document.read_inUnits {} (by decide : 0 < 5) hfits hdivided
  rw [htranscript] at hrescaled
  refine ⟨_, htranscript, ?_, of_decide_eq_true hdivisions, by decide +kernel⟩
  generalize (Document.read {} (divisionsWithinTuplet.rescaled 5)).transcript = y at hrescaled ⊢
  cases hrescaled with
  | read => rfl

end Partwise
