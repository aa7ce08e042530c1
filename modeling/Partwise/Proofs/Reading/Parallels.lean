import Partwise.Proofs.Reading.Likeness
import Partwise.Proofs.Reading.Pending

/-!
# Reading · Parallels: music is read alike

Every procedure that reads music is followed along its text, with two readings side by side. From
readings that are alike it comes to the same and leaves them alike, for any likeness that is
`Lawful`. What depends on the settings is a `Policy`: where an element belongs, what becomes of the
marks that wait for a note, and what the lyrics and slurs of a note do to its voice.
-/

namespace Partwise

open Markup

namespace Likeness.Lawful

variable {L : Likeness} {line : Nat} {key : VoiceKey}

/-! ## Voices -/

/-- A voice that is looked for stands at the same position in readings that are alike. -/
theorem voiceAt (hL : L.Lawful) :
    L.Parallel (fun v w => v.positionInMeasure = w.positionInMeasure) (Partwise.voiceAt line key)
      (Partwise.voiceAt line key) := by
  rw [← bind_pure (Partwise.voiceAt line key)]
  exact hL.withVoice fun _ _ _ _ _ _ h _ _ hpq hv hw => .pure (hL.position hpq hv hw) h

/-- A voice begins alike if it has not begun. -/
theorem ensure (hL : L.Lawful) :
    L.Parallel Eq (Functor.discard (Partwise.voiceAt line key))
      (Functor.discard (Partwise.voiceAt line key)) :=
  hL.voiceAt.bind fun _ _ _ => .pure rfl

/-- A voice changes alike if parts stay alike by it. -/
theorem changeVoice (hL : L.Lawful) {f g : Voice → Voice}
    (hf : ∀ p q, L.here p q → L.here (p.modifyVoice key f) (q.modifyVoice key g)) :
    L.Parallel Eq (Partwise.changeVoice line key f) (Partwise.changeVoice line key g) :=
  hL.ensure.bind fun _ _ _ => hL.changePart (fun _ => rfl) hf

/-- Elements that are alike are put at the end of a voice alike. -/
theorem appendTo (hL : L.Lawful) {e e' : VoiceElement} (he : L.element e e') :
    L.Parallel Eq (Partwise.appendTo line key e) (Partwise.appendTo line key e') :=
  hL.changeVoice fun _ _ h => hL.append h he

/-! ## The cursor -/

/-- A voice is moved to the same position alike. -/
theorem moveVoice (hL : L.Lawful) {position : WholeNotes} (hposition : position.InWords) :
    L.Parallel Eq
      (Partwise.changePart line fun part =>
        part.modifyVoice key fun voice => { voice with positionInMeasure := position })
      (Partwise.changePart line fun part =>
        part.modifyVoice key fun voice => { voice with positionInMeasure := position }) :=
  hL.changePart (fun _ => rfl) fun _ _ h => hL.placeVoice hposition h

/-- The sum of a position and a duration is the same, and it can be stood at. -/
theorem later (hL : L.Lawful) {position duration : WholeNotes} :
    L.Parallel (fun p q => p = q ∧ p.InWords) (liftM (Partwise.later line position duration))
      (liftM (Partwise.later line position duration)) :=
  (hL.given (Blind.demand _ _)).mono fun _ _ h => ⟨h.1, inWords_of_later h.2⟩

/-- The difference of a position and a duration is the same, and it can be stood at. -/
theorem earlier (hL : L.Lawful) {position duration : WholeNotes} :
    L.Parallel (fun p q => p = q ∧ p.InWords) (liftM (Partwise.earlier line position duration))
      (liftM (Partwise.earlier line position duration)) :=
  (hL.given (Blind.demand _ _)).mono fun _ _ h => ⟨h.1, inWords_of_earlier h.2⟩

/-- A voice moves on alike. -/
theorem advance (hL : L.Lawful) {duration : WholeNotes} :
    L.Parallel Eq (Partwise.advance line key duration) (Partwise.advance line key duration) := by
  refine hL.voiceAt.bind fun v w hvw => ?_
  rw [hvw]
  refine hL.later.bind ?_
  rintro position _ ⟨rfl, hposition⟩
  exact (hL.moveVoice hposition).bind fun _ _ _ =>
    changePassage fun _ _ h => (h.standing hposition).reach.touch

/-- A rest is put at the end of a voice alike. -/
theorem rest (hL : L.Lawful) {duration : WholeNotes} :
    L.Parallel Eq (Partwise.rest line key duration) (Partwise.rest line key duration) := by
  refine passage fun r s h => ?_
  rw [h.measureNumber]
  exact hL.changeVoice fun _ _ h => hL.addRest h

/-- A voice is padded alike up to the position of the document. -/
theorem catchUp (hL : L.Lawful) :
    L.Parallel Eq (Partwise.catchUp line key) (Partwise.catchUp line key) := by
  refine passage fun r s h => hL.voiceAt.bind fun v w hvw => ?_
  rw [hvw, h.position]
  refine hL.earlier.bind ?_
  rintro gap _ ⟨rfl, _⟩
  split
  · exact hL.rest.bind fun _ _ _ => (tell _ _).bind fun _ _ _ => hL.advance
  · exact .pure rfl

/-- Where the document has gone back beyond the start of the measure, that is found. -/
theorem tellBefore (hL : L.Lawful) {reached duration : WholeNotes} {measure : String} :
    L.Parallel Eq
      (if Rat.blt reached 0 then do
        let before ← demand reached.neg? (.overflow line)
        Partwise.find line (.backupBeforeMeasureStart duration measure before)
      else Pure.pure () : Step Unit)
      (if Rat.blt reached 0 then do
        let before ← demand reached.neg? (.overflow line)
        Partwise.find line (.backupBeforeMeasureStart duration measure before)
      else Pure.pure () : Step Unit) := by
  split
  · refine (hL.lift (Blind.demand _ _)).bind ?_
    rintro before _ rfl
    exact hL.find _
  · exact .pure rfl

/-- The document goes back alike. -/
theorem goBack (hL : L.Lawful) {duration : WholeNotes} :
    L.Parallel Eq (Partwise.goBack line duration) (Partwise.goBack line duration) := by
  refine passage fun r s h => ?_
  dsimp only
  rw [h.position, h.current, h.measureNumber]
  refine hL.earlier.bind ?_
  rintro position _ ⟨rfl, hposition⟩
  refine (changePassage fun _ _ h => h.standing hposition).bind fun _ _ _ => ?_
  refine Parallel.get fun r' s' h' => ?_
  have hpart := h'.part
  generalize r'.part? = p? at hpart
  generalize s'.part? = q? at hpart
  cases hpart with
  | none => exact hL.tellBefore r' s' h'
  | @some p q hpq =>
    have hsome := hL.isSome_voice? hpq s.passage.current
    rw [Option.bind_some, Option.bind_some]
    rcases hv : p.voice? s.passage.current with _ | v <;>
      rcases hw : q.voice? s.passage.current with _ | w <;> rw [hv, hw] at hsome
    · exact hL.tellBefore r' s' h'
    · exact nomatch hsome
    · exact nomatch hsome
    · dsimp only
      rw [hL.position hpq hv hw]
      refine Parallel.bind hL.earlier ?_ r' s' h'
      rintro moved _ ⟨rfl, hmoved⟩
      exact (hL.moveVoice hmoved).bind fun _ _ _ => hL.tellBefore

/-- A voice goes forward alike. -/
theorem goForward (hL : L.Lawful) {duration : WholeNotes} :
    L.Parallel Eq (Partwise.goForward line key duration)
      (Partwise.goForward line key duration) :=
  hL.catchUp.bind fun _ _ _ => hL.rest.bind fun _ _ _ => hL.advance

/-! ## Tuplets -/

/-- The innermost tuplet closes alike. -/
theorem closeTuplet (hL : L.Lawful) :
    L.Parallel Eq (Partwise.closeTuplet line) (Partwise.closeTuplet line) := by
  refine passage fun r s h => ?_
  match r.passage.tuplets, s.passage.tuplets, h.tuplets with
  | [], [], .nil => exact hL.throw _
  | t :: ts, u :: us, .cons htu htail =>
    refine (changePassage fun _ _ h => h.opening htail).bind fun _ _ _ => ?_
    rw [hL.tupletEmpty htu]
    split
    · rw [hL.tupletNumber htu]
      exact hL.find _
    · refine (tell _ _).bind fun _ _ _ => ?_
      match ts, us, htail with
      | [], [], .nil =>
        have hkey : (⟨t.staffNumber, t.voiceNumber⟩ : VoiceKey) = ⟨u.staffNumber, u.voiceNumber⟩ :=
          hL.tupletKey htu
        rw [hkey]
        exact hL.appendTo (hL.elementTuplet htu)
      | _ :: _, _ :: _, .cons hnext hrest =>
        exact changePassage fun _ _ h => h.opening (.cons (hL.tupletInner hnext htu) hrest)

/-- Some tuplets close alike one after the other. -/
theorem closeTuplets (hL : L.Lawful) {count : Nat} :
    L.Parallel Eq (Partwise.closeTuplets line count) (Partwise.closeTuplets line count) :=
  .forM fun _ _ => hL.closeTuplet

/-- All open tuplets close alike. -/
theorem drainTuplets (hL : L.Lawful) :
    L.Parallel Eq (Partwise.drainTuplets line) (Partwise.drainTuplets line) := by
  refine passage fun r s h => ?_
  dsimp only
  rw [h.tuplets.length_eq]
  split
  · exact (hL.find _).bind fun _ _ _ => hL.closeTuplets
  · exact .pure rfl

/-- Music breaks off alike. -/
theorem breakOff (hL : L.Lawful) :
    L.Parallel Eq (Partwise.breakOff line) (Partwise.breakOff line) :=
  hL.drainTuplets.bind fun _ _ _ => changePassage fun _ _ h => h.chordOf

end Likeness.Lawful

/-- A tuplet that has just opened. -/
def TupletStart.tuplet (start : TupletStart) (divisions : Nat) (key : VoiceKey) (measure : String)
    (position : WholeNotes) (line : Nat) : Tuplet where
  number := start.number
  actualNotes := start.actualNotes
  normalNotes := start.normalNotes
  divisionsPerWhole := divisions
  staffNumber := key.staff
  voiceNumber := key.voice
  measureNumber := measure
  positionInMeasure := position
  members := []
  line := line

/-- Tuplets are alike that open in parts that are alike. -/
def Likeness.Opens (L : Likeness) : Prop :=
  ∀ {p q}, L.here p q → ∀ start key measure position line,
    L.tuplet (TupletStart.tuplet start p.divisionsPerWhole key measure position line)
      (TupletStart.tuplet start q.divisionsPerWhole key measure position line)

/-! ## Notes -/

namespace Likeness.Lawful

variable {L : Likeness} {line : Nat} {key : VoiceKey} {settings settings' : Settings}

/-- A tuplet opens alike, if tuplets that open are alike. -/
theorem openTuplet (hL : L.Lawful) (hopens : L.Opens) {position : WholeNotes}
    {start : TupletStart} :
    L.Parallel Eq (Partwise.openTuplet line key position start)
      (Partwise.openTuplet line key position start) := by
  refine hL.currentPart.bind fun p q hpq => passage fun r s h => ?_
  refine (tell _ _).bind fun _ _ _ => changePassage fun _ _ h' => h'.opening ?_
  rw [h.measureNumber]
  exact .cons (hopens hpq start key s.passage.measureNumber position line) h'.tuplets

/-- A note comes to its place, and the voice moves on. -/
theorem seat (hL : L.Lawful) {n n' : Note} (hn : L.note n n') {isGrace : Bool} {stops : Nat} :
    L.Parallel Eq
      (do
        match (← get).passage.tuplets with
        | [] => Partwise.appendTo line key (.note n)
        | tuplet :: outer =>
          Partwise.changePassage fun p => { p with tuplets := tuplet.append (.note n) :: outer }
        if isGrace then Partwise.changePassage fun p => p.touch key
        else Partwise.advance line key n.soundingWholeNotes
        Partwise.closeTuplets line stops)
      (do
        match (← get).passage.tuplets with
        | [] => Partwise.appendTo line key (.note n')
        | tuplet :: outer =>
          Partwise.changePassage fun p => { p with tuplets := tuplet.append (.note n') :: outer }
        if isGrace then Partwise.changePassage fun p => p.touch key
        else Partwise.advance line key n'.soundingWholeNotes
        Partwise.closeTuplets line stops) := by
  refine passage fun r s h => ?_
  extract_lets stop move stop' move'
  have hmove : ∀ u, L.Parallel Eq (move u) (move' u) := by
    intro u
    unfold move move'
    rw [hL.noteLength hn]
    split
    · exact (changePassage fun _ _ h => h.touch).bind fun _ _ _ => hL.closeTuplets
    · exact hL.advance.bind fun _ _ _ => hL.closeTuplets
  match r.passage.tuplets, s.passage.tuplets, h.tuplets with
  | [], [], .nil => exact (hL.appendTo (hL.elementNote hn)).bind fun u _ _ => hmove u
  | _ :: _, _ :: _, .cons ht hrest =>
    exact (changePassage fun _ _ h => h.opening (.cons (hL.tupletNote ht hn) hrest)).bind
      fun u _ _ => hmove u

/-! ## Movements in time -/

/-- How far a movement in time goes is read alike, if its duration is. -/
theorem movement (hL : L.Lawful) {e e' : Element} (hline : e'.line = e.line)
    (hduration : ∀ r s, L.Alike r s → Concur L.toStandard Eq
      ((r.surroundings settings).duration e) ((s.surroundings settings').duration e')) :
    L.Parallel Eq (Partwise.movement settings e) (Partwise.movement settings' e') := by
  unfold Partwise.movement
  rw [hline]
  exact hL.breakOff.bind fun _ _ _ => Parallel.get fun r s h => .lift (hduration r s h) h

/-- Backup elements are read alike, if their durations are. -/
theorem readBackup (hL : L.Lawful) {e e' : Element} (hline : e'.line = e.line)
    (hduration : ∀ r s, L.Alike r s → Concur L.toStandard Eq
      ((r.surroundings settings).duration e) ((s.surroundings settings').duration e')) :
    L.Parallel Eq (Partwise.readBackup settings e) (Partwise.readBackup settings' e') := by
  unfold Partwise.readBackup
  rw [hline]
  refine (hL.movement hline hduration).bind ?_
  rintro duration _ rfl
  exact hL.goBack

/-- Forward elements are read alike, if their durations and places are. -/
theorem readForward (hL : L.Lawful) {e e' : Element} (hline : e'.line = e.line)
    (hduration : ∀ r s, L.Alike r s → Concur L.toStandard Eq
      ((r.surroundings settings).duration e) ((s.surroundings settings').duration e'))
    (hplace : ∀ r s current, L.Alike r s → Concur L.toStandard Eq
      ((r.surroundings settings).place e current) ((s.surroundings settings').place e' current)) :
    L.Parallel Eq (Partwise.readForward settings e) (Partwise.readForward settings' e') := by
  unfold Partwise.readForward
  rw [hline]
  refine (hL.movement hline hduration).bind ?_
  rintro duration _ rfl
  refine Parallel.get fun r s h => passage (fun r' s' h' => ?_) r s h
  rw [h'.current]
  refine Parallel.bind (.lift (hplace r s _ h)) ?_
  rintro key _ rfl
  exact hL.goForward

/-! ## Signs -/

/-- A sign is read alike from children, if what is read of them corresponds and parts stay alike by
it. -/
theorem changeByChild (hL : L.Lawful) {e e' : Element} {name : String} {A : α → α → Prop}
    {read : Element → Journaled α} {f : Part → α → Part} (hline : e'.line = e.line)
    (hread : Option.Rel (fun c c' => Concur L.toStandard A (read c) (read c')) (e.child? name)
      (e'.child? name))
    (hid : ∀ p a, (f p a).id = p.id)
    (hf : ∀ p q a b, L.here p q → A a b → L.here (f p a) (f q b)) :
    L.Parallel Eq (Partwise.changeByChild e name read f)
      (Partwise.changeByChild e' name read f) := by
  unfold Partwise.changeByChild
  rw [hline]
  generalize e.child? name = c? at hread
  generalize e'.child? name = c'? at hread
  cases hread with
  | none => exact .pure rfl
  | some hconcur =>
    exact Parallel.bind (.lift hconcur) fun a b hab =>
      hL.changePart (fun p => hid p a) fun p q h => hf p q a b h hab

end Likeness.Lawful

/-- Two attributes bring signs alike. -/
structure Likeness.Signs (L : Likeness) (e e' : Element) : Prop where
  line : e'.line = e.line
  key : Option.Rel (fun c c' => Concur L.toStandard (fun key key' => L.strict → key = key')
    (Key.ofElement c) (Key.ofElement c')) (e.child? "key") (e'.child? "key")
  time : Option.Rel (fun c c' => Concur L.toStandard (fun time time' => L.strict → time = time')
    (Time.ofElement c) (Time.ofElement c')) (e.child? "time") (e'.child? "time")
  staves : Option.Rel (fun c c' => Concur L.toStandard Eq (staffCountOfElement c)
    (staffCountOfElement c')) (e.child? "staves") (e'.child? "staves")
  clefs : List.Forall₂ (fun c c' => Concur L.toStandard
    (fun clef clef' => (L.strict → clef = clef') ∧ clef.staffNumber = clef'.staffNumber)
    (Clef.ofElement c) (Clef.ofElement c')) (e.childrenNamed "clef") (e'.childrenNamed "clef")
  layout : e'.children.filter (fun c => isLayoutOfStaves c.name) =
    e.children.filter fun c => isLayoutOfStaves c.name

/-- What is alike to itself is so wherever it is found, or not found. -/
theorem Option.rel_refl {α : Type} {A : α → α → Prop} (h : ∀ a, A a a) :
    ∀ a? : Option α, Option.Rel A a? a?
  | none => .none
  | some a => .some (h a)

/-- Attributes bring signs as they bring them. -/
theorem Likeness.Signs.refl {L : Likeness} (hL : L.Lawful) (e : Element) : L.Signs e e where
  line := rfl
  key := Option.rel_refl (fun c : Element => hL.decode (Key.steady c).blind) _
  time := Option.rel_refl (fun c : Element => hL.decode (Time.steady c).blind) _
  staves := Option.rel_refl (fun c => .refl (steady_staffCountOfElement c).blind hL.failure) _
  clefs := List.forall₂_same.mpr fun c _ => (Concur.refl (Clef.steady c).blind hL.failure).mono
    fun _ _ h => ⟨fun _ => h, congrArg Clef.staffNumber h⟩
  layout := rfl

/-- What attributes hold besides divisions is read. -/
def readSigns (e : Element) : Step Unit := do
  changeByChild e "key" Key.ofElement Part.withKey
  changeByChild e "time" Time.ofElement Part.withTime
  changeByChild e "staves" staffCountOfElement Part.ensureStaves
  (e.childrenNamed "clef").forM fun child => do
    let clef ← Clef.ofElement child
    changePart e.line fun part => part.withClef clef
  (e.children.filter fun child => isLayoutOfStaves child.name).forM fun child =>
    find child.line (.skipped child.name .structureless)

/-- Divisions are read first of all attributes. -/
theorem readAttributes_eq (e : Element) :
    readAttributes e = (do
      if let some divisions := e.child? "divisions" then readDivisions divisions
      readSigns e) :=
  rfl

namespace Likeness.Lawful

variable {L : Likeness} {line : Nat} {key : VoiceKey} {settings settings' : Settings}
  {e e' : Element}

/-- Signs are read alike. -/
theorem readSigns (hL : L.Lawful) (h : L.Signs e e') :
    L.Parallel Eq (Partwise.readSigns e) (Partwise.readSigns e') := by
  unfold Partwise.readSigns
  refine Parallel.bind (hL.changeByChild h.line h.key (fun _ _ => rfl)
    fun _ _ _ _ h heq => hL.withKey h heq) fun _ _ _ => ?_
  refine Parallel.bind (hL.changeByChild h.line h.time (fun _ _ => rfl)
    fun _ _ _ _ h heq => hL.withTime h heq) fun _ _ _ => ?_
  refine Parallel.bind (hL.changeByChild h.line h.staves (fun _ _ => rfl)
    fun _ _ _ _ h heq => heq ▸ hL.ensureStaves h) fun _ _ _ => ?_
  rw [h.layout, h.line]
  refine Parallel.bind (.forM₂ (h.clefs.imp fun c c' hconcur => ?_)) fun _ _ _ =>
    .forM fun child _ => hL.find _
  exact Parallel.bind (.lift hconcur) fun _ _ heq =>
    hL.changePart (fun _ => rfl) fun _ _ h => hL.withClef h heq.1 heq.2

/-- Sounds are read alike. -/
theorem readSound (hL : L.Lawful) :
    L.Parallel Eq (Partwise.readSound e) (Partwise.readSound e) := by
  unfold Partwise.readSound
  split
  · exact hL.find _
  · refine passage fun r s h => ?_
    rw [h.current]
    exact hL.appendTo (hL.elementDirection _)

/-! ## Barlines -/

/-- The closings of repeats are told. They differ as the voices do, but none of them counts. -/
theorem tellClosings {vs ws : List Voice} {f g : Voice → Option Closing} :
    L.Parallel Eq
      (vs.forM fun voice =>
        match f voice with
        | some closing => Partwise.tell
          (.repeatClosed voice.key closing.endings closing.explicitStart)
        | none => pure () : Step Unit)
      (ws.forM fun voice =>
        match g voice with
        | some closing => Partwise.tell
          (.repeatClosed voice.key closing.endings closing.explicitStart)
        | none => pure () : Step Unit) := by
  intro r s h
  refine .aside (.forM (fun v => ?_) vs) (.forM (fun w => ?_) ws) ?_
  · split
    · exact .tell rfl
    · exact .pure rfl
  · split
    · exact .tell rfl
    · exact .pure rfl
  · rintro _ _ _ _ rfl rfl
    exact ⟨rfl, h⟩

/-- All voices change alike if parts stay alike by it. -/
theorem changeVoices (hL : L.Lawful) {f g : Voice → Voice × Option Closing}
    (hfg : ∀ p q, L.here p q →
      L.here (p.mapVoices fun v => (f v).1) (q.mapVoices fun v => (g v).1)) :
    L.Parallel Eq (Partwise.changeVoices line f) (Partwise.changeVoices line g) :=
  hL.currentPart.bind fun _ _ _ => tellClosings.bind fun _ _ _ =>
    hL.changePart (fun _ => rfl) hfg

/-- Barlines are read alike that are decoded to barlines that are. -/
theorem readBarline (hL : L.Lawful) (hline : e'.line = e.line)
    (hdecode : ∀ measure, Concur L.toStandard (fun b b' => L.strict → b = b')
      (Barline.ofElement e measure) (Barline.ofElement e' measure)) :
    L.Parallel Eq (Partwise.readBarline e) (Partwise.readBarline e') := by
  unfold Partwise.readBarline
  rw [hline]
  refine hL.breakOff.bind fun _ _ _ => passage fun r s h => ?_
  dsimp only
  rw [h.measureNumber, h.current]
  refine Parallel.bind (.lift (hdecode _)) fun b b' hb => ?_
  have hpass : L.strict → passMarkers b r.passage.markers = passMarkers b' s.passage.markers :=
    fun hs => by rw [hb hs, h.markers hs]
  refine (tell _ _).bind fun _ _ _ => hL.ensure.bind fun _ _ _ => ?_
  exact Parallel.bind
    (changePassage fun _ _ h => { h with markers := fun hs => congrArg Prod.fst (hpass hs) })
    fun _ _ _ => hL.changeVoices fun _ _ h =>
      hL.takeBarline h fun hs => ⟨hb hs, congrArg Prod.snd (hpass hs)⟩

/-- Where the condition is the same, or no finding counts, the same is found. -/
theorem findIf (hL : L.Lawful) {R : Reading → Reading → Prop} {n n' : Nat} (hn : L.strict → n = n')
    (finding : Nat → Finding) :
    Partwise.Parallel L.toStandard R R Eq
      (if n ≠ 0 then Partwise.find line (finding n) else Pure.pure () : Step Unit)
      (if n' ≠ 0 then Partwise.find line (finding n') else Pure.pure () : Step Unit) := by
  by_cases hs : L.strict
  · rw [hn hs]
    split
    · exact .lift (.refl (.find _ _) hL.failure)
    · exact .pure rfl
  · have hfinds : ∀ (r : Reading) (n : Nat), L.Aside
        (if n ≠ 0 then Partwise.find line (finding n) else Pure.pure () : Step Unit) r
          fun _ t => t = r := by
      intro r n
      split
      · exact .find (hL.deaf hs _) rfl
      · exact .pure rfl
    intro r s h
    refine .aside (hfinds r n) (hfinds s n') ?_
    rintro _ _ _ _ rfl rfl
    exact ⟨rfl, h⟩

/-- Two readings come of readings that are alike. The parts that are being read are alike again once
their open chunks are closed. -/
inductive Ended (L : Likeness) : Reading → Reading → Prop
  | intro {r s : Reading} {p q p' q' : Part} (alike : L.Alike r s) (first : r.part? = some p)
      (second : s.part? = some q) (here : L.here p q) (id : p'.id = p.id) (id' : q'.id = q.id)
      (closed : L.here (p'.mapVoices Voice.flush) (q'.mapVoices Voice.flush)) :
      Ended L (r.setPart p') (s.setPart q')

/-- All repeats of a part end, and then its open chunks are closed. -/
theorem closeVoices (hL : L.Lawful) :
    L.Parallel Eq
      (do
        Partwise.endRepeats line
        Partwise.changePart line fun part => part.mapVoices Voice.flush)
      (do
        Partwise.endRepeats line
        Partwise.changePart line fun part => part.mapVoices Voice.flush) := by
  refine Parallel.bind (R := Ended L) (A := Eq) ?_ fun _ _ _ r s hended => ?_
  · refine passage fun r s h => ?_
    dsimp only
    rw [h.measureNumber]
    have hexplicit : L.strict → r.passage.markers.contains .repeatStart =
        s.passage.markers.contains .repeatStart := fun hs => by rw [h.markers hs]
    refine Parallel.bind (changePassage fun _ _ h => { h with markers := fun _ => rfl })
      fun _ _ _ => hL.currentPart.bind fun p q hpq => ?_
    refine Parallel.bind (R := Ended L) (A := Eq) ?_ fun _ _ _ =>
      hL.findIf (fun hs => hL.pending hs hpq) Finding.unterminatedRepeats
    refine hL.currentPart.bind fun p q _ => tellClosings.bind fun _ _ _ => fun r₀ s₀ h₀ => ?_
    refine hL.withPartAt h₀ fun p q hp hq hpq j k hjk => .ends ⟨rfl, ?_⟩ hjk
    exact .intro h₀ hp hq hpq rfl rfl (hL.close hpq hexplicit)
  · cases hended with
    | @intro r s p q p' q' h hp hq hpq hid hid' hclosed =>
      have hp' := ((Becomes.refl hp).setPart hid).part?
      have hq' := ((Becomes.refl hq).setPart hid').part?
      refine .aside (.changePart hp' (P := fun _ t => t = _) rfl)
        (.changePart hq' (P := fun _ t => t = _) rfl) ?_
      rintro _ _ _ _ rfl rfl
      have hflush : ∀ p : Part, (p.mapVoices Voice.flush).id = p.id := fun _ => rfl
      rw [Reading.setPart_setPart (hflush p'), Reading.setPart_setPart (hflush q')]
      exact ⟨rfl, h.setPart hL hp hq hid hpq hclosed⟩

/-! ## Measures and parts -/

/-- The checks that are owed are made alike. -/
theorem checkBars (hL : L.Lawful) {next? : Option String}
    (he : L.element (.barCheck next?) (.barCheck next?)) :
    L.Parallel Eq (Partwise.checkBars line next?) (Partwise.checkBars line next?) := by
  refine passage fun r s h => ?_
  dsimp only
  rw [h.unchecked]
  exact Parallel.bind (changePassage fun _ _ h => { h with unchecked := rfl }) fun _ _ _ =>
    .forM fun key _ => hL.appendTo he

/-- A measure begins alike. -/
theorem enterMeasure (hL : L.Lawful)
    (he : ∀ next?, L.element (.barCheck next?) (.barCheck next?)) :
    L.Parallel Eq (Partwise.enterMeasure e) (Partwise.enterMeasure e) := by
  refine Parallel.bind (hL.checkBars (he _)) fun _ _ _ => (tell _ _).bind fun _ _ _ => ?_
  refine Parallel.bind (hL.changePart (fun _ => rfl) fun _ _ h => hL.restart h) fun _ _ _ => ?_
  exact changePassage fun _ _ h =>
    { h with
      measureNumber := rfl
      position := rfl
      inWords := WholeNotes.inWords_zero
      extents := rfl }

/-- A part begins, in whatever relation the readings come to be. -/
theorem enterPart (hL : L.Lawful) {R : Reading → Reading → Prop}
    (hbegin : ∀ r s id, L.Alike r s → (r.parts.any fun part => part.id = id) →
      R { r with partId? := some id, passage := {} } { s with partId? := some id, passage := {} }) :
    Partwise.Parallel L.toStandard L.Alike R Eq (Partwise.enterPart e) (Partwise.enterPart e) := by
  refine Parallel.get fun r s h => ?_
  rw [← h.any_id hL]
  split
  · next hdeclared =>
    intro j k hjk
    exact .ends ⟨rfl, hbegin r s _ h hdeclared⟩ (by rw [L.heard_event, L.heard_event, hjk])
  · exact .throw (hL.failure _)

/-! ## Header and part list -/

/-- What the header says of a work is noted alike. -/
theorem identify {f : Identification → Identification} :
    L.Parallel Eq (Partwise.identify f) (Partwise.identify f) :=
  .modify fun _ _ h => { h with identification := congrArg f h.identification }

/-- The part list changes alike, if it is compared at all. -/
theorem changePartList {f g : PartList → PartList} (hfg : L.strict → f = g) :
    L.Parallel Eq (Partwise.changePartList f) (Partwise.changePartList g) :=
  .modify fun _ _ h => { h with partList := fun hs => by rw [hfg hs, h.partList hs] }

/-- Steps that look at the part list go together, if they do for part lists that are the same where
these count. -/
theorem partList {f g : Reading → Step α} {A : α → α → Prop}
    (hf : ∀ r s, (L.strict → r.partList = s.partList) → L.Parallel A (f r) (g s)) :
    L.Parallel A (MonadState.get >>= f) (MonadState.get >>= g) :=
  .get fun r s h => hf r s h.partList r s h

/-- A group closes alike. -/
theorem closeGroup {draft : GroupDraft} :
    L.Parallel Eq (Partwise.closeGroup draft) (Partwise.closeGroup draft) :=
  (tell _ _).bind fun _ _ _ => changePartList fun _ => rfl

/-- The innermost group closes alike, where part lists are compared. -/
theorem closeInnermost (hL : L.Lawful) (hs : L.strict) :
    L.Parallel Eq (Partwise.closeInnermost line) (Partwise.closeInnermost line) := by
  refine partList fun r s h => ?_
  dsimp only
  rw [h hs]
  split
  · refine (changePartList fun _ => rfl).bind fun _ _ _ => ?_
    split
    · exact (hL.find _).bind fun _ _ _ => closeGroup
    · exact closeGroup
  · exact .pure rfl

end Likeness.Lawful

/-- The reading has another part list. -/
def Reading.Relisted (r t : Reading) : Prop := ∃ partList, t = { r with partList }

namespace Standard.Aside

variable {S : Standard} {r : Reading} {line : Nat}

/-- A change of the part list goes without saying. -/
theorem changePartList {f : PartList → PartList} {K : Reading → Prop}
    (h : ∀ partList, K { r with partList }) :
    S.Aside (Partwise.changePartList f) r fun _ t => K t :=
  .modify (h _)

/-- That a group closes changes the part list alone, and nothing counts of what is said. -/
theorem closeGroup {draft : GroupDraft} : S.Aside (Partwise.closeGroup draft) r fun _ t =>
    r.Relisted t :=
  .bind (P := fun _ t => t = r) (.tell rfl) fun _ _ ht => ht ▸ changePartList fun l => ⟨l, rfl⟩

/-- To close a group is to change the part list, if no finding counts. -/
theorem closeInnermost (hdeaf : ∀ d, S.heeds d = false) :
    S.Aside (Partwise.closeInnermost line) r fun _ t => r.Relisted t := by
  refine .get ?_
  dsimp only
  split
  · refine .bind (changePartList (K := r.Relisted) fun l => ⟨l, rfl⟩) ?_
    rintro _ _ ⟨l, rfl⟩
    split
    · exact .bind (P := fun _ t => t = _) (.find (hdeaf _) rfl) fun _ _ ht => ht ▸ closeGroup
    · exact closeGroup
  · exact .pure ⟨_, rfl⟩

/-- To close all groups is to change the part list, too. -/
theorem closeGroups (hdeaf : ∀ d, S.heeds d = false) :
    S.Aside (Partwise.closeGroups line) r fun _ t => r.Relisted t := by
  refine .get (forM_keeps ⟨_, rfl⟩ (fun _ t ht => ?_) _)
  obtain ⟨l, rfl⟩ := ht
  exact closeInnermost hdeaf

/-- To stop a group is to change the part list, or to find that there is none. -/
theorem stopGroup (hdeaf : ∀ d, S.heeds d = false) {number : String} :
    S.Aside
      (do
        match (← MonadState.get).partList.takeGroup? number with
        | some (draft, rest) =>
          Partwise.changePartList fun _ => rest
          Partwise.closeGroup draft
        | none => Partwise.find line (.groupNotOpen number) : Step Unit) r
      fun _ t => r.Relisted t := by
  refine .get ?_
  split
  · refine .bind (changePartList (K := r.Relisted) fun l => ⟨l, rfl⟩) ?_
    rintro _ _ ⟨l, rfl⟩
    exact closeGroup
  · exact .find (hdeaf _) ⟨_, rfl⟩

end Standard.Aside

namespace Likeness.Lawful

variable {L : Likeness} {line : Nat} {key : VoiceKey} {settings settings' : Settings}
  {e e' : Element}

/-- Where part lists may differ, one may change and the other need not. -/
theorem relist (hs : ¬ L.strict) {r s : Reading} {x y : Step Unit}
    (hx : L.Aside x r fun _ t => r.Relisted t) (hy : L.Aside y s fun _ t => s.Relisted t)
    (h : L.Alike r s) : L.ParallelAt Eq r s x y := by
  refine .aside hx hy ?_
  rintro _ _ _ _ ⟨l, rfl⟩ ⟨l', rfl⟩
  exact ⟨rfl, { h with partList := fun hstrict => absurd hstrict hs }⟩

/-- All groups close alike at the end of the list. -/
theorem closeGroups (hL : L.Lawful) :
    L.Parallel Eq (Partwise.closeGroups line) (Partwise.closeGroups line) := by
  by_cases hs : L.strict
  · refine partList fun r s h => ?_
    dsimp only
    rw [h hs]
    exact .forM fun _ _ => hL.closeInnermost hs
  · exact fun r s => relist hs (.closeGroups (hL.deaf hs)) (.closeGroups (hL.deaf hs))

/-- That an open group is stopped goes together on both sides. -/
theorem stopGroup (hL : L.Lawful) {number : String} :
    L.Parallel Eq
      (do
        match (← get).partList.takeGroup? number with
        | some (draft, rest) =>
          Partwise.changePartList fun _ => rest
          Partwise.closeGroup draft
        | none => Partwise.find line (.groupNotOpen number))
      (do
        match (← get).partList.takeGroup? number with
        | some (draft, rest) =>
          Partwise.changePartList fun _ => rest
          Partwise.closeGroup draft
        | none => Partwise.find line (.groupNotOpen number)) := by
  by_cases hs : L.strict
  · refine partList fun r s h => ?_
    rw [h hs]
    split
    · exact (changePartList fun _ => rfl).bind fun _ _ _ => closeGroup
    · exact hL.find _
  · exact fun r s => relist hs (.stopGroup (hL.deaf hs)) (.stopGroup (hL.deaf hs))

/-- Groups start or stop alike that are decoded alike. -/
theorem readPartGroup (hL : L.Lawful) (hline : e'.line = e.line)
    (htype : e'.attr? "type" = e.attr? "type") (hnumber : e'.attr? "number" = e.attr? "number")
    (hdecode : ∀ number, Concur L.toStandard (fun group group' => L.strict → group = group')
      (PartGroup.ofElement e number) (PartGroup.ofElement e' number)) :
    L.Parallel Eq (Partwise.readPartGroup e) (Partwise.readPartGroup e') := by
  unfold Partwise.readPartGroup
  rw [hline, htype, hnumber]
  dsimp only
  split
  · exact Parallel.bind (.lift (hdecode _)) fun group group' hgroup =>
      (tell _ _).bind fun _ _ _ => changePartList fun hs => by rw [hgroup hs]
  · exact hL.stopGroup
  · exact hL.find _

/-- The part that is being read is not another one because more parts are declared. -/
theorem part?_declare {r : Reading} {new : Part}
    (h : ∀ id, r.partId? = some id → r.part?.isSome) :
    Reading.part? { r with parts := r.parts ++ [new] } = r.part? := by
  rcases hid : r.partId? with _ | id
  · rw [Reading.part?, Reading.part?, hid]
    rfl
  · have hsome := h id hid
    rw [Reading.part?, hid, Option.bind_some] at hsome
    simp only [Reading.part?, hid, Option.bind_some, List.find?_append,
      Option.or_of_isSome hsome]

/-- No part of the id is declared yet. -/
def Unused (id : String) (r : Reading) : Prop := (r.parts.any fun part => part.id = id) = false

/-- A part that is declared is alike on both sides. -/
theorem declare {id : String}
    (hnew : ¬ L.known id → L.there (Part.ofElement e id) (Part.ofElement e id)) :
    Partwise.Parallel L.toStandard (L.With (Unused id)) L.Alike Eq
      (modify fun r => { r with parts := r.parts ++ [Part.ofElement e id] } : Step Unit)
      (modify fun r => { r with parts := r.parts ++ [Part.ofElement e id] } : Step Unit) := by
  refine .modify fun r s ⟨h, hunused⟩ =>
    { h with parts := ?_, part := ?_, declared := ?_, distinct := ?_, known := ?_ }
  · refine List.rel_append h.parts (.cons (hnew fun hknown => ?_) .nil)
    obtain ⟨part, hpart, hid⟩ := List.mem_map.mp (h.known id hknown)
    rw [Unused, List.any_eq_false] at hunused
    exact hunused part hpart (decide_eq_true hid)
  · rw [part?_declare h.declared, part?_declare h.declared']
    exact h.part
  · intro id hid
    rw [part?_declare h.declared]
    exact h.declared id hid
  · rw [Unused, List.any_eq_false] at hunused
    rw [List.map_append, List.map_singleton]
    refine List.nodup_append.mpr ⟨h.distinct, List.pairwise_singleton _ _, ?_⟩
    rintro _ hmem _ hlast rfl
    rw [List.mem_singleton.mp hlast] at hmem
    obtain ⟨part, hpart, hid⟩ := List.mem_map.mp hmem
    exact hunused part hpart (decide_eq_true hid)
  · intro id hknown
    rw [List.map_append]
    exact List.mem_append_left _ (h.known id hknown)

/-- A part is declared alike, if declared parts are alike. -/
theorem readScorePart (hL : L.Lawful)
    (hnew : ∀ e id, ¬ L.known id → L.there (Part.ofElement e id) (Part.ofElement e id)) :
    L.Parallel Eq (Partwise.readScorePart e) (Partwise.readScorePart e) := by
  unfold Partwise.readScorePart
  split
  · next id _ =>
    refine Parallel.get fun r s h => ?_
    rw [← h.any_id hL]
    split
    · exact hL.find _ r s h
    · next hunused =>
      have hlist : ∀ {x y : Step Unit}, L.Parallel Eq x y →
          (∀ r u t, Ends x r u t → SameMusic r t) → Partwise.Parallel L.toStandard
            (L.With (Unused id)) (L.With (Unused id)) Eq x y := by
        refine fun hxy hsame => .of_keeps hxy fun r _ t hr hrun => ?_
        rw [Unused, (hsame _ _ _ hrun).parts]
        exact hr
      have hchange : ∀ (f : PartList → PartList) r u t, Ends (Partwise.changePartList f) r u t →
          SameMusic r t := fun _ _ _ _ hrun => SameMusic.changePartList hrun
      have hdeclare : ∀ e' : Event, Partwise.Parallel L.toStandard (L.With (Unused id)) L.Alike Eq
          (do
            Partwise.changePartList fun l => l.declarePart id
            Partwise.tell e'
            modify fun r => { r with parts := r.parts ++ [Part.ofElement e id] } : Step Unit)
          (do
            Partwise.changePartList fun l => l.declarePart id
            Partwise.tell e'
            modify fun r => { r with parts := r.parts ++ [Part.ofElement e id] } : Step Unit) :=
        fun e' => Parallel.bind (hlist (changePartList fun _ => rfl) (hchange _)) fun _ _ _ =>
          Parallel.bind (.lift (.tell _ _)) fun _ _ _ => declare (hnew e id)
      have hwith : L.With (Unused id) r s := ⟨h, Bool.eq_false_iff.mpr hunused⟩
      refine Parallel.get (fun r s h => ?_) r s hwith
      extract_lets declares
      -- an implicit group is opened on both sides or on neither, unless the part lists differ
      by_cases hr : r.partList.openGroups.isEmpty <;> by_cases hs : s.partList.openGroups.isEmpty
      · rw [if_pos hr, if_pos hs]
        exact Parallel.bind (hlist (changePartList fun _ => rfl) (hchange _))
          (fun _ _ _ => hdeclare _) r s h
      · have hlax : ¬ L.strict := fun hstrict => hs (h.1.partList hstrict ▸ hr)
        rw [if_pos hr, if_neg hs]
        exact Parallel.bind (y := Pure.pure ()) (hlist (fun r s => relist hlax
          (.changePartList fun l => ⟨l, rfl⟩) (.pure ⟨_, rfl⟩)) (hchange _))
          (fun _ _ _ => hdeclare _) r s h
      · have hlax : ¬ L.strict := fun hstrict => hr (h.1.partList hstrict ▸ hs)
        rw [if_neg hr, if_pos hs]
        exact Parallel.bind (x := Pure.pure ()) (hlist (fun r s => relist hlax (.pure ⟨_, rfl⟩)
          (.changePartList fun l => ⟨l, rfl⟩)) fun r _ t hrun => hrun.pure.2 ▸ .refl r)
          (fun _ _ _ => hdeclare _) r s h
      · rw [if_neg hr, if_neg hs]
        exact hdeclare _ r s h
  · exact hL.throw _

end Likeness.Lawful

end Partwise
