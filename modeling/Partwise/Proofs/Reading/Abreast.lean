import Partwise.Proofs.Reading.Policies

/-!
# Reading · Abreast: whole documents side by side

Two documents are read move by move. What the moves need besides a likeness that is `Lawful` is that
of a `Whole` likeness, which also says when parts are alike that are declared or begin, and of a
`Uniform` one, under which divisions are the same on both sides.

* `Likeness.Uniform.read`: documents come to scores that are alike, or fail alike.
* `Likeness.Uniform.trail`: every reading of a document is alike to itself. An invariant of readings
  is proved in this way.
-/

namespace Partwise

open Markup

variable {α β : Type}

/-! ## Trails and outcomes of documents -/

/-- What every move keeps holds before and after every moment of a trail. -/
theorem trailFrom_keeps {P : Reading → Prop} {settings : Settings}
    (step : ∀ (m : Move) (r s : Reading), P r → Ends (m.perform settings) r () s → P s)
    {ms : List Move} {r : Reading} {j : Journal} (hr : P r) {m : Moment}
    (hm : m ∈ trailFrom settings ms r j) : P m.before ∧ P m.after := by
  induction ms generalizing r j with
  | nil => exact absurd hm List.not_mem_nil
  | cons move ms ih =>
    unfold trailFrom at hm
    split at hm
    · next s j' hrun =>
      have hs : P s := step move r s hr ⟨j, j', hrun⟩
      rcases List.mem_cons.mp hm with rfl | hlater
      · exact ⟨hr, hs⟩
      · exact ih hs hlater
    · exact absurd hm List.not_mem_nil

/-- What is read from the root to the completion of the score. -/
theorem Standard.Agree.run {S : Standard} {R : Reading → Reading → Prop} {A : Score → Score → Prop}
    {settings settings' : Settings} {root root' : Element}
    (h : ParallelAt S R A {} {}
      (do
        tell (.begun root.name root.size)
        visit settings root
        complete)
      (do
        tell (.begun root'.name root'.size)
        visit settings' root'
        complete)) :
    S.Agree A ((Document.run settings root).score, (Document.run settings root).journal)
      ((Document.run settings' root').score, (Document.run settings' root').journal) := by
  have hagree := h [] [] rfl
  unfold Document.run
  dsimp only
  generalize StateT.run (ExceptT.run (StateT.run _ _)) _ = x at hagree ⊢
  generalize StateT.run (ExceptT.run (StateT.run _ _)) _ = y at hagree ⊢
  cases hagree with
  | ends hA hjournals => exact .ends hA.1 hjournals
  | fails hf => exact .fails hf
  | spared hspared => exact .spared hspared

/-- What is said at the end of a reading makes no difference. -/
theorem Standard.Agree.closed {S : Standard} {A : Score → Score → Prop} {o o' : Outcome}
    (h : S.Agree A (o.score, o.journal) (o'.score, o'.journal)) :
    S.Agree A (o.closed.score, o.closed.journal) (o'.closed.score, o'.closed.journal) := by
  have hjournal : ∀ o : Outcome, ∃ e, o.closed.journal = .event e :: o.journal := by
    intro o
    unfold Outcome.closed
    split
    · exact ⟨_, rfl⟩
    · exact ⟨_, rfl⟩
  obtain ⟨e, he⟩ := hjournal o
  obtain ⟨e', he'⟩ := hjournal o'
  rw [Outcome.score_closed, Outcome.score_closed, he, he']
  generalize o.score = x at h
  generalize o'.score = y at h
  cases h with
  | ends hA hjournals => exact .ends hA (by rw [S.heard_event, S.heard_event, hjournals])
  | fails hf => exact .fails hf
  | spared hspared => exact .spared hspared

/-- Where the first document is read, the second one is, too, with a score in relation, and the same
is found that counts. -/
theorem Standard.Agree.transcript {S : Standard} {A : Score → Score → Prop} {o o' : Outcome}
    {t : Transcript} (h : S.Agree A (o.score, o.journal) (o'.score, o'.journal))
    (ht : o.transcript = .ok t) :
    ∃ t', o'.transcript = .ok t' ∧ A t.score t'.score ∧
      t.diagnostics.marks.filter S.heeds = t'.diagnostics.marks.filter S.heeds := by
  unfold Outcome.transcript Outcome.diagnostics at ht ⊢
  generalize o.score = x at h ht
  generalize o'.score = y at h
  cases h with
  | fails => exact nomatch ht
  | spared => exact nomatch ht
  | ends hA hjournals =>
    cases ht
    exact ⟨_, rfl, hA, hjournals⟩

/-! ## Note elements -/

/-- What two note elements say is the same, apart from their places, lengths and lyrics. -/
structure Markup.Element.SameNote (e e' : Element) : Prop where
  line : e'.line = e.line
  content : NoteContent.ofElement e' = NoteContent.ofElement e
  display : Display.ofElement e' = Display.ofElement e
  ratio : ratioOfElement e' = ratioOfElement e
  notations : Notations.ofElement e' = Notations.ofElement e
  ties : (e'.childrenNamed "tie").filterMap (·.attr? "type") =
    (e.childrenNamed "tie").filterMap (·.attr? "type")
  slash : (e'.child? "grace").bind (·.attr? "slash") = (e.child? "grace").bind (·.attr? "slash")
  cue : e'.has "cue" = e.has "cue"
  chord : e'.has "chord" = e.has "chord"
  grace : e'.has "grace" = e.has "grace"

/-- Two note elements are decoded to the same note, if they are so to the same place and length. -/
theorem NoteInput.concur {S : Standard} (hfailure : ∀ f, S.fails f f) {s t : Surroundings}
    {e e' : Element} (hsame : e.SameNote e')
    (hplace : Concur S Eq (s.place e ⟨1, 1⟩) (t.place e' ⟨1, 1⟩))
    (hlength : ∀ display? ratio?,
      Concur S Eq (s.noteLength e display? ratio?) (t.noteLength e' display? ratio?)) :
    Concur S
      (fun i i' => i.note.lyrics = [] ∧ i.lyrics = e.childrenNamed "lyric" ∧
        i' = { i with lyrics := e'.childrenNamed "lyric" })
      (NoteInput.ofElement s e) (NoteInput.ofElement t e') := by
  unfold NoteInput.ofElement
  rw [hsame.line, hsame.content, hsame.display, hsame.ratio, hsame.notations, hsame.ties,
    hsame.slash, hsame.cue, hsame.chord, hsame.grace]
  refine hplace.bind ?_
  rintro key _ rfl
  refine (Concur.refl (NoteContent.steady e).blind hfailure).bind ?_
  rintro content _ rfl
  refine (Concur.refl (Display.steady e).blind hfailure).bind ?_
  rintro display? _ rfl
  refine (Concur.refl (steady_ratioOfElement e).blind hfailure).bind ?_
  rintro ratio? _ rfl
  refine (hlength display? ratio?).bind ?_
  rintro length _ rfl
  refine (Concur.refl (Notations.steady e _).blind hfailure).bind ?_
  rintro notations _ rfl
  refine (Concur.refl (steady_tieOfWords ..).blind hfailure).bind ?_
  rintro tie? _ rfl
  exact .pure ⟨rfl, rfl, rfl⟩

/-! ## Likenesses for whole documents -/

/-- A likeness that also says when parts are alike that are declared, or begin. -/
structure Likeness.Whole (L : Likeness) : Prop extends L.Lawful where
  enter : ∀ {p q}, L.there p q → L.here p q
  declare : ∀ e id, ¬ L.known id → L.there (Part.ofElement e id) (Part.ofElement e id)
  elementCheck : ∀ next?, L.element (.barCheck next?) (.barCheck next?)
  noMarks : L.marks ∅ ∅

namespace Likeness.Whole

variable {L : Likeness} {settings settings' : Settings} {e : Element} {r s : Reading}

/-- Passages are alike in which nothing was read. -/
theorem noPassage (hL : L.Whole) : L.Passages {} {} :=
  ⟨rfl, fun _ => rfl, rfl, rfl, WholeNotes.inWords_zero, rfl, rfl, rfl, .nil, hL.noMarks⟩

/-- Readings are alike in which nothing was read. -/
theorem noReading (hL : L.Whole) (hunknown : ∀ id, ¬ L.known id) : L.Alike {} {} :=
  ⟨rfl, fun _ => rfl, rfl, .nil, .none, fun _ hid => (nomatch hid), .nil,
    fun id hknown => absurd hknown (hunknown id), hL.noPassage⟩

/-- Parts and measures begin and end alike, and so do part lists. -/
theorem performBoundary (hL : L.Whole) (P : Policy L settings settings') {m : Move}
    (hm : ∀ e, m ≠ .leaf e) : L.Parallel Eq (m.perform settings) (m.perform settings') := by
  cases m with
  | enterPart e =>
    refine hL.enterPart fun r s id h hdeclared => ?_
    refine { h with partId := rfl, part := ?_, declared := ?_, passage := hL.noPassage }
    · have hpart := h.partOf hL.toLawful id
      show Option.Rel L.here (r.partOf id) (s.partOf id)
      generalize r.partOf id = p? at hpart
      generalize s.partOf id = q? at hpart
      cases hpart with
      | none => exact .none
      | some hpq => exact .some (hL.enter hpq)
    · intro _ _
      show (r.partOf id).isSome
      rwa [Reading.partOf, List.isSome_find?]
  | leavePart e =>
    refine hL.leavePart P (hL.elementCheck none) fun r s h => ?_
    exact { h with
      partId := rfl
      part := .none
      declared := fun id hid => absurd hid.symm (Option.some_ne_none id) }
  | enterMeasure e => exact hL.enterMeasure hL.elementCheck
  | leaveMeasure e => exact hL.leaveMeasure P
  | leavePartList line => exact hL.closeGroups
  | leaf e => exact absurd rfl (hm e)

end Likeness.Whole

/-- Elements that are decoded with the divisions of their part. -/
def Markup.Element.isReckoned (e : Element) : Bool :=
  e.name == "note" || e.name == "backup" || e.name == "forward"

/-- The element is decoded with the divisions of its part, or may change them. -/
def Markup.Element.countsDivisions (e : Element) : Bool :=
  e.isReckoned || e.name == "attributes"

namespace Likeness.Whole

variable {L : Likeness} {settings settings' : Settings} {e : Element} {r s : Reading}

/-- An element is read for which divisions do not count. -/
theorem readUncounted (hL : L.Whole) (P : Policy L settings settings')
    (he : e.countsDivisions = false) :
    L.Parallel Eq (Partwise.readLeaf settings e) (Partwise.readLeaf settings' e) := by
  unfold Element.countsDivisions Element.isReckoned at he
  unfold Partwise.readLeaf
  split
  · exact Lawful.identify
  · exact Lawful.identify
  · exact Lawful.identify
  · exact Lawful.identify
  · exact hL.readPartGroup rfl rfl rfl fun number => hL.decode (PartGroup.steady e number).blind
  · exact hL.readScorePart hL.declare
  · next hname => simp [hname] at he
  · next hname => simp [hname] at he
  · next hname => simp [hname] at he
  · next hname => simp [hname] at he
  · exact hL.readBarline rfl fun measure => hL.decode (Barline.steady e measure).blind
  · exact hL.readDirection P rfl (fun _ _ => rfl)
      ((Concur.refl (DirectionContent.steady e).blind hL.failure).mono
        fun content _ heq => heq ▸ .refl hL.toLawful content)
  · exact hL.readSound
  · exact hL.find _
  · exact hL.find _
  · exact hL.find _
  · exact Lawful.tell _ _

/-- A score is put together alike whose groups are. -/
theorem complete (hL : L.Whole) (hs : L.strict) {A : List PartGroup → List PartGroup → Prop}
    (hgroups : ∀ r s drafts, L.Alike r s →
      Outcomes A (assembleGroups r.parts drafts) (assembleGroups s.parts drafts)) :
    L.Parallel (fun p q => p.identification = q.identification ∧ A p.groups q.groups)
      Partwise.complete Partwise.complete := by
  refine Parallel.bind hL.closeGroups fun _ _ _ => Parallel.get fun r s h => ?_
  rw [← h.partList hs]
  have houtcomes := hgroups r s r.partList.rootGroups h
  generalize assembleGroups r.parts r.partList.rootGroups = x at houtcomes
  generalize assembleGroups s.parts r.partList.rootGroups = y at houtcomes
  cases houtcomes with
  | ok hA => exact .pure ⟨h.identification, hA⟩ h
  | error => exact .throw (hL.failure _)

end Likeness.Whole

/-! ## Likenesses under which divisions are the same -/

/-- A likeness for whole documents under which divisions are the same on both sides. -/
structure Likeness.Even (L : Likeness) : Prop extends L.Whole where
  opens : L.Opens
  divisions : ∀ {p q}, L.here p q → p.divisionsPerWhole = q.divisionsPerWhole
  withDivisions : ∀ {p q perWhole}, DivisionsFit perWhole → L.here p q →
    L.here (p.withDivisions perWhole) (q.withDivisions perWhole)

/-- Such a likeness of readings of which the first ones know nothing yet. -/
structure Likeness.Uniform (L : Likeness) : Prop extends L.Even where
  unknown : ∀ id, ¬ L.known id

namespace Likeness.Even

variable {L : Likeness} {settings settings' : Settings} {e : Element} {r s : Reading}

/-- Lengths are the same in parts that are alike. -/
theorem wholeNotes (hL : L.Even) (h : L.Alike r s) :
    (r.surroundings settings).wholeNotes = (s.surroundings settings').wholeNotes := by
  refine Surroundings.wholeNotes_congr ?_
  have hpart := h.part
  show r.part?.map _ = s.part?.map _
  generalize r.part? = p? at hpart
  generalize s.part? = q? at hpart
  cases hpart with
  | none => rfl
  | some hpq => exact congrArg some (hL.divisions hpq)

/-- A duration is decoded to the same whole notes from readings that are alike. -/
theorem duration (hL : L.Even) (h : L.Alike r s) :
    Concur L.toStandard Eq ((r.surroundings settings).duration e)
      ((s.surroundings settings').duration e) := by
  rw [show (s.surroundings settings').duration e = (r.surroundings settings).duration e by
    unfold Surroundings.duration; rw [hL.wholeNotes h]]
  exact .refl (Surroundings.steady_duration _ e).blind hL.failure

/-- One note element is decoded to the same note. -/
theorem noteInput (hL : L.Even) (P : Policy L settings settings') (h : L.Alike r s) :
    Concur L.toStandard (fun i i' => i.note.lyrics = [] ∧ i' = i)
      (NoteInput.ofElement (r.surroundings settings) e)
      (NoteInput.ofElement (s.surroundings settings') e) := by
  have hlength :
      (s.surroundings settings').noteLength e = (r.surroundings settings).noteLength e := by
    funext display? ratio?
    unfold Surroundings.noteLength
    rw [hL.wholeNotes h]
  have hsame : e.SameNote e := ⟨rfl, rfl, rfl, rfl, rfl, rfl, rfl, rfl, rfl, rfl⟩
  refine (NoteInput.concur hL.failure hsame (P.place h e _) fun display? ratio? => ?_).mono ?_
  · rw [hlength]
    exact .refl (Surroundings.steady_noteLength _ e display? ratio?).blind hL.failure
  · rintro i i' ⟨hsilent, hlyrics, rfl⟩
    rw [← hlyrics]
    exact ⟨hsilent, rfl⟩

/-- One note element is read alike. -/
theorem readNote (hL : L.Even) (P : Policy L settings settings') :
    Partwise.Parallel L.toStandard (L.With Reading.Begun) L.Alike Eq
      (Partwise.readNote settings e) (Partwise.readNote settings' e) := by
  refine hL.toLawful.readNote hL.opens P rfl fun r s h => (hL.noteInput P h).mono ?_
  rintro _ i ⟨hsilent, rfl⟩
  exact ⟨i, .refl hL.toLawful hsilent, rfl⟩

/-- Divisions are read alike. -/
theorem readDivisions (hL : L.Even) :
    L.Parallel Eq (Partwise.readDivisions e) (Partwise.readDivisions e) := by
  refine (hL.given (steady_divisionsOfElement _).blind).bind ?_
  rintro perWhole _ ⟨rfl, hgives⟩
  have hfit := fit_of_gives_divisions hgives
  exact Parallel.bind (hL.changePart (fun _ => rfl) fun _ _ h => hL.withDivisions hfit h)
    fun _ _ _ => Lawful.tell _ _

/-- Attributes are read alike. -/
theorem readAttributes (hL : L.Even) :
    L.Parallel Eq (Partwise.readAttributes e) (Partwise.readAttributes e) := by
  rw [readAttributes_eq]
  split
  · exact hL.readDivisions.bind fun _ _ _ => hL.readSigns (.refl hL.toLawful e)
  · exact hL.readSigns (.refl hL.toLawful e)

/-- **Every move** is made alike. -/
theorem perform (hL : L.Even) (P : Policy L settings settings') (m : Move) :
    Partwise.Parallel L.toStandard (L.With Reading.Begun) L.Alike Eq (m.perform settings)
      (m.perform settings') := by
  by_cases hleaf : ∃ e, m = .leaf e
  · obtain ⟨e, rfl⟩ := hleaf
    show Partwise.Parallel _ _ _ _ (Partwise.readLeaf settings e) (Partwise.readLeaf settings' e)
    by_cases hcounts : e.countsDivisions
    · simp only [Element.countsDivisions, Element.isReckoned, Bool.or_eq_true, beq_iff_eq, or_assoc]
        at hcounts
      rcases hcounts with hname | hname | hname | hname
      · rw [readLeaf_note hname, readLeaf_note hname]
        exact hL.readNote P
      · rw [readLeaf_backup hname, readLeaf_backup hname]
        exact fun r s h => hL.readBackup rfl (fun r s h => hL.duration h) r s h.1
      · rw [readLeaf_forward hname, readLeaf_forward hname]
        exact fun r s h => hL.readForward rfl (fun r s h => hL.duration h)
          (fun r s key h => P.place h e key) r s h.1
      · rw [readLeaf_attributes hname, readLeaf_attributes hname]
        exact fun r s h => hL.readAttributes r s h.1
    · exact fun r s h => hL.readUncounted P (Bool.eq_false_iff.mpr hcounts) r s h.1
  · exact fun r s h => hL.performBoundary P (fun e he => hleaf ⟨e, he⟩) r s h.1

/-- Moves are made alike one after the other. -/
theorem performAll (hL : L.Even) (P : Policy L settings settings') (ms : List Move) :
    Partwise.Parallel L.toStandard (L.With Reading.Sound) (L.With Reading.Sound) Eq
      (forM ms (Move.perform settings)) (forM ms (Move.perform settings')) := by
  refine Parallel.forM fun m _ r s h => ?_
  have hbegun : r.Begun := fun key hkey => (h.2.tuplets key hkey).begun
  exact (hL.perform P m r s ⟨h.1, hbegun⟩).keep fun _ _ hrun => (Does.perform h.2 hrun).sound

/-- **A move** means the same after readings that are alike. -/
theorem deed (hL : L.Even) (hexacting : ¬ L.lenient) (P : Policy L settings settings') (m : Move)
    (h : L.Alike r s) : m.deed settings' s = m.deed settings r := by
  cases m with
  | leaf e =>
    have hnote : Concur L.toStandard Eq _ _ :=
      (hL.noteInput P (e := e) h).mono fun _ _ hii' => hii'.2.symm
    have hplace := (P.place h e r.passage.current).result_eq hexacting
    have hduration : Concur L.toStandard Eq ((r.surroundings settings).duration e)
        ((s.surroundings settings').duration e) := hL.duration h
    show Deed.ofLeaf settings' s e = Deed.ofLeaf settings r e
    rw [Deed.ofLeaf, Deed.ofLeaf, Deed.ofNote, Deed.ofNote, Deed.ofBackup, Deed.ofBackup,
      Deed.ofForward, Deed.ofForward, hnote.result_eq hexacting, hduration.result_eq hexacting,
      ← h.passage.current, hplace]
  | enterPart | leavePart | enterMeasure | leaveMeasure | leavePartList => rfl

/-- Along the trails of the same moves, as far as they are made, all readings are alike. -/
theorem trailFrom (hL : L.Even) (hexacting : ¬ L.lenient) (P : Policy L settings settings')
    (ms : List Move) {j k : Journal} (h : L.Alike r s ∧ r.Sound) (hjk : L.heard j = L.heard k) :
    List.Forall₂ (fun m m' => L.Alike m.before m'.before ∧ m'.move = m.move)
      (Partwise.trailFrom settings ms r j) (Partwise.trailFrom settings' ms s k) := by
  induction ms generalizing r s j k with
  | nil => exact .nil
  | cons m ms ih =>
    have hbegun : r.Begun := fun key hkey => (h.2.tuplets key hkey).begun
    have hboth := (hL.perform P m r s ⟨h.1, hbegun⟩).keep
      (fun _ _ hrun => (Does.perform h.2 hrun).sound) j k hjk
    unfold Partwise.trailFrom
    generalize ((m.perform settings).run r).run.run j = x at hboth
    generalize ((m.perform settings').run s).run.run k = y at hboth
    cases hboth with
    | ends hr hheard => exact .cons ⟨h.1, rfl⟩ (ih hr.2 hheard)
    | fails => exact .nil
    | spared hspared => exact absurd hspared hexacting

/-- A move keeps that a reading is alike to itself. -/
theorem step (hL : L.Even) (P : Policy L settings settings) {m : Move}
    (h : r.Sound ∧ L.Alike r r) (hrun : Ends (m.perform settings) r () s) :
    s.Sound ∧ L.Alike s s := by
  have hbegun : r.Begun := fun key hkey => (h.1.tuplets key hkey).begun
  exact ⟨(Does.perform h.1 hrun).sound, (hL.perform P m r r ⟨h.2, hbegun⟩).ends hrun⟩

end Likeness.Even

namespace Likeness.Uniform

variable {L : Likeness} {settings settings' : Settings} {r : Reading}

/-- **Documents** are read alike whose groups are put together alike. -/
theorem read (hL : L.Uniform) (hs : L.strict) (P : Policy L settings settings')
    {A : List PartGroup → List PartGroup → Prop}
    (hgroups : ∀ r s drafts, L.Alike r s →
      Outcomes A (assembleGroups r.parts drafts) (assembleGroups s.parts drafts))
    (root : Element) :
    L.Agree (fun p q => p.identification = q.identification ∧ A p.groups q.groups)
      ((Document.read settings root).score, (Document.read settings root).journal)
      ((Document.read settings' root).score, (Document.read settings' root).journal) := by
  unfold Document.read
  split
  · refine .closed ?_
    have hall : Partwise.Parallel L.toStandard (L.With Reading.Sound) L.Alike
        (fun p q => p.identification = q.identification ∧ A p.groups q.groups)
        (do
          Partwise.tell (.begun root.name root.size)
          visit settings root
          Partwise.complete : Step Score)
        (do
          Partwise.tell (.begun root.name root.size)
          visit settings' root
          Partwise.complete : Step Score) := by
      rw [visit_eq, visit_eq]
      refine Parallel.bind (.lift (.tell _ _)) fun _ _ _ =>
        Parallel.bind (hL.performAll P _) fun _ _ _ r s h => ?_
      exact hL.complete hs hgroups r s h.1
    exact .run (hall {} {} ⟨hL.noReading hL.unknown, Reading.sound_empty⟩)
  · exact .fails (hL.failure _)

/-- Along the trails of a document under two settings all readings are alike. -/
theorem trails (hL : L.Uniform) (hexacting : ¬ L.lenient) (P : Policy L settings settings')
    (root : Element) :
    List.Forall₂ (fun m m' => L.Alike m.before m'.before ∧ m'.move = m.move)
      (Partwise.trail settings root) (Partwise.trail settings' root) :=
  hL.trailFrom hexacting P _ ⟨hL.noReading hL.unknown, Reading.sound_empty⟩ rfl

/-- Along the trail of a document, read to its end or not, all readings are alike to themselves. -/
theorem trail (hL : L.Uniform) (P : Policy L settings settings) {root : Element} {m : Moment}
    (hm : m ∈ Partwise.trail settings root) :
    L.Alike m.before m.before ∧ L.Alike m.after m.after := by
  have hboth := trailFrom_keeps (fun _ _ _ => hL.step P)
    ⟨Reading.sound_empty, hL.noReading hL.unknown⟩ hm
  exact ⟨hboth.1.2, hboth.2.2⟩

/-- The last reading of a document that is read is alike to itself. -/
theorem last (hL : L.Uniform) (P : Policy L settings settings) {ms : List Moment}
    (h : Follows settings {} ms r) : L.Alike r r :=
  (h.keeps (P := fun r => r.Sound ∧ L.Alike r r)
    ⟨Reading.sound_empty, hL.noReading hL.unknown⟩
    fun _ _ => hL.step P).2

end Likeness.Uniform

end Partwise
