import Partwise.Proofs.Reading.Assembling
import Partwise.Proofs.Reading.Defaults
import Partwise.Proofs.Repeats.Accounts

/-!
# Reading · Unknown: documents with a word that no list has

A document that is read is also read with one of its words replaced by a word that is not in its
list (`Document.read_unknown`), but for three things that a default may spoil: a barline that plays
no part with it, a note that has its length from its type alone, and the mark of a tuplet. The two
readings are followed side by side, with the same sketches (`Sketches.likeness`): what is decoded in
the place of the word is nothing that the rest of the document can fail by. Of a barline the
converse holds as well, since every barline of a document that is read plays a
part. -/

namespace Partwise

open Markup

/-! ## Sites -/

/-- What is read in the place of the word is nothing to fail by: the barline plays a part, the note
has a length without its type, and no tuplet is left out. -/
structure WordSite.Harmless (site : WordSite) (e e' : Element) : Prop where
  barline : site ∈ barlineSites → e'.barlineRole?.isSome
  note : site = noteTypeSite → e.has "grace" ∨ (e.childText? "duration").isSome
  tuplet : site ≠ tupletTypeSite

namespace Sketches

variable {site : WordSite} {word : String} {e e' : Element} {settings : Settings}

/-- A barline with another word at one of its sites is read side by side with it, if it still has a
role. -/
theorem readBarline_unknown (hsite : site ∈ barlineSites) (h : site.Respells word e e')
    (hrole : e'.barlineRole?.isSome) :
    likeness.Parallel Eq (Partwise.readBarline e) (Partwise.readBarline e') := by
  have hline : e'.line = e.line := by
    have along := h.along
    simp only [barlineSites, List.mem_cons, List.not_mem_nil, or_false] at hsite
    rcases hsite with rfl | rfl | rfl | rfl | rfl
    · exact along.line
    all_goals exact Element.Amended.line along
  refine lawful.readBarline hline fun measure => ?_
  exact (Barline.concur lax (Element.repeatTimes?_respelled hsite h) hrole measure).mono
    fun _ _ _ => False.elim

/-- Where the type of a group of parts is left out, the group neither starts nor stops. -/
theorem readPartGroup_untyped (hline : e'.line = e.line)
    (hunknown : isStartOrStop ((e'.attr? "type").getD "") = false) :
    likeness.Parallel Eq (Partwise.readPartGroup e) (Partwise.readPartGroup e') := by
  have hfinds : ∀ (s : Reading) word, likeness.Aside
      (liftM (find e.line (.unknownWord .partGroupType word)) : Step Unit) s
      fun _ t => s.Relisted t :=
    fun s _ => .find rfl ⟨_, rfl⟩
  have hsecond : Partwise.readPartGroup e' =
      liftM (find e.line (.unknownWord .partGroupType ((e'.attr? "type").getD ""))) := by
    unfold Partwise.readPartGroup
    rw [hline]
    dsimp only
    split
    · next hstart => simp [hstart, isStartOrStop] at hunknown
    · next hstop => simp [hstop, isStartOrStop] at hunknown
    · rfl
  rw [hsecond]
  unfold Partwise.readPartGroup
  dsimp only
  split
  · rw [← pure_bind (m := Step) () fun _ =>
      liftM (find e.line (.unknownWord .partGroupType ((e'.attr? "type").getD "")))]
    have hstart : likeness.Parallel (fun _ _ => True)
        (liftM (PartGroup.ofElement e ((e.attr? "number").getD "1"))) (pure ()) :=
      .lift (lax.default (y := pure ()) ⟨(), .pure ()⟩)
    refine hstart.bind fun group _ _ r s => ?_
    refine Likeness.Lawful.relist id (.bind (P := fun _ t => t = r) (.tell rfl) ?_) (hfinds s _)
    rintro _ _ rfl
    exact .changePartList fun l => ⟨l, rfl⟩
  · exact fun r s => Likeness.Lawful.relist id (.stopGroup fun _ => rfl) (hfinds s _)
  · exact fun r s => Likeness.Lawful.relist id (hfinds r _) (hfinds s _)

/-- A group with an unknown word at one of its sites is read side by side with it. -/
theorem readPartGroup_unknown (hsite : site ∈ groupSites) (h : site.Respells word e e')
    (hunknown : site.knows word = false) :
    likeness.Parallel Eq (Partwise.readPartGroup e) (Partwise.readPartGroup e') := by
  have along := h.along
  simp only [groupSites, List.mem_cons, List.not_mem_nil, or_false] at hsite
  rcases hsite with rfl | rfl
  · refine readPartGroup_untyped along.line ?_
    rw [along.attr?_self]
    exact hunknown
  · have hsymbol : Element.Amended "group-symbol" (Element.Respelled word .text) e e' := along
    refine lawful.readPartGroup hsymbol.line (hsymbol.attr? _) (hsymbol.attr? _) fun number => ?_
    exact (PartGroup.concur lax hsymbol number).mono fun _ _ _ => False.elim

/-! ## Signs -/

/-- Signs of which one has another word go together, where the word is at one of the sites of signs.
-/
theorem signs {name : String} {R : Element → Element → Prop} (h : Element.Amended name R e e')
    (hname : name ∈ ["clef", "key", "time"])
    (hclef : "clef" = name → ∀ c c', R c c' →
      Element.Amended "sign" (Element.Respelled word .text) c c')
    (hkey : "key" = name → ∀ c c', R c c' →
      Element.Amended "mode" (Element.Respelled word .text) c c')
    (htime : "time" = name → ∀ c c', R c c' → Element.Respelled word (.attr "symbol") c c') :
    likeness.Signs e e' := by
  have hfailure := lax.failure
  refine ⟨h.line,
    h.rel_child? _ (fun c => lawful.decode (Key.steady c).blind) fun heq c c' hc => ?_,
    h.rel_child? _ (fun c => lawful.decode (Time.steady c).blind) fun heq c c' hc => ?_,
    h.rel_child? _ (fun c => .refl (steady_staffCountOfElement c).blind hfailure)
      fun heq c c' hc => ?_,
    h.rel_childrenNamed _ (fun c => (Concur.refl (Clef.steady c).blind hfailure).mono
      fun _ _ heq => ⟨fun _ => heq, congrArg Clef.staffNumber heq⟩) fun heq c c' hc => ?_,
    h.filter_children ?_⟩
  · exact (Key.concur lax (hkey heq c c' hc)).mono fun _ _ _ => False.elim
  · exact (Time.concur lax (htime heq c c' hc)).mono fun _ _ _ => False.elim
  · rw [← heq] at hname
    exact absurd hname (by decide)
  · exact (Clef.concur lax (hclef heq c c' hc)).mono fun _ _ heq => ⟨False.elim, heq⟩
  · simp only [List.mem_cons, List.not_mem_nil, or_false] at hname
    rcases hname with rfl | rfl | rfl <;> rfl

/-- Attributes with another word at one of their sites are read side by side with them. -/
theorem readAttributes_unknown (hsite : site ∈ signSites) (h : site.Respells word e e') :
    likeness.Parallel Eq (Partwise.readAttributes e) (Partwise.readAttributes e') := by
  have hsigns : likeness.Signs e e' ∧ e'.child? "divisions" = e.child? "divisions" := by
    have along := h.along
    simp only [signSites, List.mem_cons, List.not_mem_nil, or_false] at hsite
    rcases hsite with rfl | rfl | rfl
    · exact ⟨signs along (by decide) (fun _ _ _ hc => hc) (absurd · (by decide))
        (absurd · (by decide)), Element.Amended.child?_ne along (by decide)⟩
    · exact ⟨signs along (by decide) (absurd · (by decide)) (fun _ _ _ hc => hc)
        (absurd · (by decide)), Element.Amended.child?_ne along (by decide)⟩
    · exact ⟨signs along (by decide) (absurd · (by decide)) (absurd · (by decide))
        fun _ _ _ hc => hc, Element.Amended.child?_ne along (by decide)⟩
  rw [readAttributes_eq, readAttributes_eq, hsigns.2]
  split
  · exact uniform.readDivisions.bind fun _ _ _ => lawful.readSigns hsigns.1
  · exact lawful.readSigns hsigns.1

/-! ## Notes -/

/-- A note is read with another word in one of its children. -/
theorem readNote_amended (word : String) {name : String} {R : Element → Element → Prop}
    (h : Element.Amended name R e e')
    (hname : name ∈ ["type", "pitch", "tie", "notations", "lyric"])
    (hpitch : "pitch" = name → ∀ c c', R c c' →
      Element.Amended "step" (Element.Respelled word .text) c c')
    (hmarks : List.Forall₂ (fun c c' => c = c' ∨ c.name = c'.name ∧ c'.IsIdleMark)
      ((e.childrenNamed "notations").flatMap Element.children)
      ((e'.childrenNamed "notations").flatMap Element.children))
    (htimed : name = "type" → e.has "grace" ∨ (e.childText? "duration").isSome) :
    Partwise.Parallel likeness.toStandard (likeness.With Reading.Begun) likeness.Alike Eq
      (Partwise.readNote settings e) (Partwise.readNote settings e') := by
  refine lawful.readNote uniform.opens (policy settings) h.line fun r s hrs => ?_
  have hlength : (s.surroundings settings).noteLength e' =
      (r.surroundings settings).noteLength e' := by
    funext display? ratio?
    unfold Surroundings.noteLength
    rw [uniform.wholeNotes hrs]
  have hpitches := h.rel_child?
    (A := fun c c' => c = c' ∨ Element.Amended "step" (Element.Respelled word .text) c c') "pitch"
    (fun _ => .inl rfl) fun heq c c' hc => .inr (hpitch heq c c' hc)
  refine (inputs h hname ((policy settings).place hrs e _) hlength hpitches hmarks htimed).mono ?_
  exact fun i i' hi => ⟨i', hi, rfl⟩

/-- The marks are the same if the notations are. -/
theorem marks_same {name : String} {R : Element → Element → Prop} (h : Element.Amended name R e e')
    (hname : "notations" ≠ name) :
    List.Forall₂ (fun c c' => c = c' ∨ c.name = c'.name ∧ c'.IsIdleMark)
      ((e.childrenNamed "notations").flatMap Element.children)
      ((e'.childrenNamed "notations").flatMap Element.children) := by
  rw [h.childrenNamed_ne hname]
  exact List.forall₂_same.mpr fun _ _ => .inl rfl

/-- The marks are the same, but for one that is read by its name alone. -/
theorem marks_idle {name : String} {R : Element → Element → Prop}
    (h : Element.Amended "notations" (Element.Amended name R) e e')
    (hidle : ∀ c c', c'.name = name → R c c' → c'.IsIdleMark) :
    List.Forall₂ (fun c c' => c = c' ∨ c.name = c'.name ∧ c'.IsIdleMark)
      ((e.childrenNamed "notations").flatMap Element.children)
      ((e'.childrenNamed "notations").flatMap Element.children) := by
  refine h.grandchildren.imp fun c c' hc => ?_
  rcases hc with rfl | ⟨hwas, his, hR⟩
  · exact .inl rfl
  · exact .inr ⟨hwas.trans his.symm, hidle c c' his hR⟩

/-- A note with an unknown word at one of its sites is read side by side with it, if its length does
not hang on the word. -/
theorem readNote_unknown (hsite : site ∈ noteTypeSite :: noteSites) (h : site.Respells word e e')
    (hunknown : site.knows word = false)
    (htimed : site = noteTypeSite → e.has "grace" ∨ (e.childText? "duration").isSome) :
    Partwise.Parallel likeness.toStandard (likeness.With Reading.Begun) likeness.Alike Eq
      (Partwise.readNote settings e) (Partwise.readNote settings e') := by
  have along := h.along
  simp only [noteSites, List.mem_cons, List.not_mem_nil, or_false] at hsite
  rcases hsite with rfl | rfl | rfl | rfl | rfl | rfl | rfl
  · exact readNote_amended word along (by decide) (absurd · (by decide))
      (marks_same along (by decide)) fun _ => htimed rfl
  · exact readNote_amended word along (by decide) (fun _ _ _ hc => hc)
      (marks_same along (by decide)) (absurd · (by decide))
  · exact readNote_amended word along (by decide) (absurd · (by decide))
      (marks_same along (by decide)) (absurd · (by decide))
  · exact readNote_amended word along (by decide) (absurd · (by decide))
      (marks_idle along fun _ _ his _ => .inl his) (absurd · (by decide))
  · refine readNote_amended word along (by decide) (absurd · (by decide))
      (marks_idle along fun c c' his hc => .inr (.inr ⟨his, ?_⟩)) (absurd · (by decide))
    rw [Element.Respelled.attr?_self hc]
    exact hunknown
  · exact readNote_amended word along (by decide) (absurd · (by decide))
      (marks_idle along fun _ _ his _ => .inr (.inl his)) (absurd · (by decide))
  · exact readNote_amended word along (by decide) (absurd · (by decide))
      (marks_same along (by decide)) (absurd · (by decide))

/-! ## Directions -/

/-- A direction is read with another word in one of its types. -/
theorem readDirection_amended {name : String} {R : Element → Element → Prop}
    (h : Element.Amended "direction-type" (Element.Amended name R) e e')
    (hidle : ∀ c c', c'.name = name → R c c' → c'.IsIdleDirection) :
    likeness.Parallel Eq (Partwise.readDirection settings e)
      (Partwise.readDirection settings e') := by
  refine lawful.readDirection (policy settings) h.line (fun s current => ?_) ?_
  · unfold Surroundings.place
    rw [h.childValue?_ne _ (by decide), h.childValue?_ne _ (by decide), h.line]
  · refine (DirectionContent.concur lax (h.grandchildren.imp fun c c' hc => ?_) (h.attr? _)
      (h.child?_ne (by decide))).mono fun _ _ hkinds => hkinds.contents
    rcases hc with rfl | ⟨hwas, his, hR⟩
    · exact .inl rfl
    · exact .inr ⟨hwas.trans his.symm, hidle c c' his hR⟩

/-- A direction with an unknown word at one of its sites is read side by side with it. -/
theorem readDirection_unknown (hsite : site ∈ directionSites) (h : site.Respells word e e')
    (hunknown : site.knows word = false) :
    likeness.Parallel Eq (Partwise.readDirection settings e)
      (Partwise.readDirection settings e') := by
  have along := h.along
  simp only [directionSites, List.mem_cons, List.not_mem_nil, or_false] at hsite
  rcases hsite with rfl | rfl | rfl
  · exact readDirection_amended along fun _ _ his _ => .inl his
  · refine readDirection_amended along fun c c' his hc => .inr (.inr ⟨his, ?_⟩)
    rw [Element.Respelled.attr?_self hc]
    exact hunknown
  · exact readDirection_amended along fun _ _ his _ => .inr (.inl his)

/-! ## Whole documents -/

/-- **An element** with a word that no list has is read like the one with another word in its
place. -/
theorem readLeaf_unknown (hsite : site ∈ wordSites) (h : site.Respells word e e')
    (hunknown : site.knows word = false) (hharmless : site.Harmless e e') :
    Partwise.Parallel likeness.toStandard (likeness.With Reading.Begun) likeness.Alike Eq
      (Partwise.readLeaf settings e) (Partwise.readLeaf settings e') := by
  have hleaf : ∀ {name}, site.leaf = name → e.name = name ∧ e'.name = name :=
    fun hname => ⟨h.name.trans hname, h.sameName.trans (h.name.trans hname)⟩
  simp only [wordSites, List.mem_append, List.mem_cons] at hsite
  rcases hsite with (((hbarline | hgroup) | hsign) | hnote | htuplet | hnote) | hdirection
  · have hname : ∀ site ∈ barlineSites, site.leaf = "barline" := by decide
    obtain ⟨hwas, his⟩ := hleaf (hname site hbarline)
    rw [readLeaf_barline hwas, readLeaf_barline his]
    exact fun r s hrs => readBarline_unknown hbarline h (hharmless.barline hbarline) r s hrs.1
  · have hname : ∀ site ∈ groupSites, site.leaf = "part-group" := by decide
    obtain ⟨hwas, his⟩ := hleaf (hname site hgroup)
    rw [readLeaf_partGroup hwas, readLeaf_partGroup his]
    exact fun r s hrs => readPartGroup_unknown hgroup h hunknown r s hrs.1
  · have hname : ∀ site ∈ signSites, site.leaf = "attributes" := by decide
    obtain ⟨hwas, his⟩ := hleaf (hname site hsign)
    rw [readLeaf_attributes hwas, readLeaf_attributes his]
    exact fun r s hrs => readAttributes_unknown hsign h r s hrs.1
  · obtain ⟨hwas, his⟩ := hleaf (congrArg WordSite.leaf hnote)
    rw [readLeaf_note hwas, readLeaf_note his]
    exact readNote_unknown (hnote ▸ List.mem_cons_self) h hunknown hharmless.note
  · exact absurd htuplet hharmless.tuplet
  · have hname : ∀ site ∈ noteSites, site.leaf = "note" := by decide
    obtain ⟨hwas, his⟩ := hleaf (hname site hnote)
    rw [readLeaf_note hwas, readLeaf_note his]
    exact readNote_unknown (List.mem_cons_of_mem _ hnote) h hunknown hharmless.note
  · have hname : ∀ site ∈ directionSites, site.leaf = "direction" := by decide
    obtain ⟨hwas, his⟩ := hleaf (hname site hdirection)
    rw [readLeaf_direction hwas, readLeaf_direction his]
    exact fun r s hrs => readDirection_unknown hdirection h hunknown r s hrs.1

/-- Readings that go on together: the second one has the sketches of the first one, and knows where
its parts are. -/
def Together (r s : Reading) : Prop := (likeness.Alike r s ∧ r.Sound) ∧ s.Listed

/-- The moves of two documents are made together that are the same but for one element. -/
theorem moves {ms ms' : List Move} (h : List.Forall₂ (Move.Replaces e e') ms ms')
    (hleaf : Partwise.Parallel likeness.toStandard (likeness.With Reading.Begun) likeness.Alike Eq
      (Partwise.readLeaf settings e) (Partwise.readLeaf settings e')) :
    Partwise.Parallel likeness.toStandard Together Together Eq (forM ms (Move.perform settings))
      (forM ms' (Move.perform settings)) := by
  refine Parallel.forM₂ (h.imp fun m m' hm r s hrs => ?_)
  obtain ⟨⟨halike, hsound⟩, hlisted⟩ := hrs
  have hbegun : r.Begun := fun key hkey => (hsound.tuplets key hkey).begun
  have hperform : likeness.ParallelAt Eq r s (m.perform settings) (m'.perform settings) := by
    cases hm with
    | leaf => exact hleaf r s ⟨halike, hbegun⟩
    | same hsame =>
      rw [hsame]
      exact uniform.perform (policy settings) m r s ⟨halike, hbegun⟩
  exact (hperform.keep fun _ _ hrun => (Does.perform hsound hrun).sound).keep'
    fun _ _ hrun => hlisted.perform hrun

/-- Where a reading knows where its parts are, its score is completed. -/
theorem complete : Partwise.Parallel likeness.toStandard Together (fun _ _ => True)
    (fun _ _ => True) Partwise.complete Partwise.complete := by
  rintro r s ⟨⟨halike, _⟩, hlisted⟩
  refine lax.ends fun k => ?_
  obtain ⟨score, t, k', hrun⟩ := hlisted.completes (halike.distinct' lawful) k
  exact ⟨(score, t), k', hrun, fun _ _ => ⟨trivial, trivial⟩⟩

end Sketches

section

variable {settings : Settings} {root root' e e' : Element} {site : WordSite} {word : String}
  {score : Score}

/-- Every barline of a document that is read plays a part. -/
theorem Document.barlineRole?_isSome
    (h : (Document.read settings root).score = .ok score) (he : Move.leaf e ∈ movesOf root)
    (hname : e.name = "barline") : e.barlineRole?.isSome := by
  obtain ⟨_, _, hfollows, hmoves, _⟩ := follows_trail h
  rw [← hmoves] at he
  obtain ⟨m, hm, hmove⟩ := List.mem_map.mp he
  have hends : Ends (Partwise.readLeaf settings e) m.before () m.after := by
    have hperform := hfollows.ends hm
    rw [hmove] at hperform
    exact hperform
  rw [readLeaf_barline hname] at hends
  obtain ⟨b, _, _, hgives, _⟩ := Barred.readBarline hends
  rw [(Barline.of_gives hgives).2]
  rfl

/-- An element with a place for a word is read at once. -/
theorem WordSite.movesOf_leaf (hsite : site ∈ wordSites) (hname : e.name = site.leaf) :
    movesOf e = [.leaf e] := by
  have hleaf : ∀ site ∈ wordSites, site.leaf ≠ "score-partwise" ∧ site.leaf ≠ "part-list" ∧
      site.leaf ≠ "part" ∧ site.leaf ≠ "measure" := by
    decide
  obtain ⟨hscore, hlist, hpart, hmeasure⟩ := hleaf site hsite
  exact Partwise.movesOf_leaf (hname ▸ hscore) (hname ▸ hlist) (hname ▸ hpart) (hname ▸ hmeasure)

/-- A document that is read is also read with a word that no list has, where what is read in its
place is harmless. -/
theorem Document.read_harmless (hsite : site ∈ wordSites) (hunknown : site.knows word = false)
    (hrespells : site.Respells word e e') (hreplaces : Element.Replaces e e' root root')
    (hharmless : site.Harmless e e') (h : (Document.read settings root).score = .ok score) :
    ∃ score', (Document.read settings root').score = .ok score' := by
  have hmoves := movesOf_replaces (site.movesOf_leaf hsite hrespells.name)
    (site.movesOf_leaf hsite (hrespells.sameName.trans hrespells.name)) hreplaces
  have hroot : root'.name = root.name := by
    cases hreplaces with
    | leaf => exact hrespells.sameName
    | inside => rfl
  have hall : ParallelAt Sketches.likeness.toStandard (fun _ _ => True) (fun _ _ => True) {} {}
      (do
        tell (.begun root.name root.size)
        visit settings root
        complete : Step Score)
      (do
        tell (.begun root'.name root'.size)
        visit settings root'
        complete : Step Score) := by
    rw [visit_eq, visit_eq]
    have hbegin : Sketches.Together {} {} :=
      ⟨⟨Sketches.uniform.noReading Sketches.uniform.unknown, Reading.sound_empty⟩, .refl _⟩
    exact Parallel.bind (.lift (.tell _ _))
      (fun _ _ _ => Parallel.bind
        (Sketches.moves hmoves (Sketches.readLeaf_unknown hsite hrespells hunknown hharmless))
        fun _ _ _ => Sketches.complete)
      {} {} hbegin
  unfold Document.read at h ⊢
  rw [hroot]
  split at h
  · next hpartwise =>
    rw [if_pos hpartwise]
    have hagree := Standard.Agree.run hall
    rw [Outcome.score_closed] at h ⊢
    rw [h] at hagree
    generalize (run settings root').score = score'? at hagree
    cases hagree with
    | ends => exact ⟨_, rfl⟩
  · exact nomatch h

end

/-- **A word that no list has** is not fatal by itself. A document that is read is also read with
one of its words replaced by any string outside its list, where what is read in its place is
harmless. For the words of a barline it is read only then: the barline has to play a part with what
stands for the word. -/
theorem Document.read_unknown {settings : Settings} {root root' e e' : Element} {site : WordSite}
    {word : String} {score : Score} (hsite : site ∈ wordSites) (hunknown : site.knows word = false)
    (hrespells : site.Respells word e e') (hreplaces : Element.Replaces e e' root root')
    (h : (Document.read settings root).score = .ok score) :
    (site.Harmless e e' → ∃ score', (Document.read settings root').score = .ok score') ∧
      (site ∈ barlineSites → (∃ score', (Document.read settings root').score = .ok score') →
        e'.barlineRole?.isSome) := by
  refine ⟨fun hharmless =>
    Document.read_harmless hsite hunknown hrespells hreplaces hharmless h, ?_⟩
  rintro hbarline ⟨score', hread⟩
  have hname : ∀ site ∈ barlineSites, site.leaf = "barline" := by decide
  have his : e'.name = site.leaf := hrespells.sameName.trans hrespells.name
  exact Document.barlineRole?_isSome hread
    (leaf_mem_movesOf (site.movesOf_leaf hsite his) hreplaces) (his.trans (hname site hbarline))

/-- A document of a single measure with one of the elements in the measure replaced. -/
theorem Markup.Element.Replaces.single {e e' : Element} (before after : List Element) :
    Element.Replaces e e' (singleMeasure (before ++ e :: after))
      (singleMeasure (before ++ e' :: after)) := by
  have hmeasure : Element.Replaces e e'
      { name := "measure", attributes := [("number", "1")], children := before ++ e :: after }
      { name := "measure", attributes := [("number", "1")], children := before ++ e' :: after } :=
    .inside (by simp) rfl .leaf
  have hpart := @Replaces.inside e e'
    { name := "part", attributes := [("id", "P")], children := [_] } _ _ [] [] (by simp) rfl hmeasure
  exact @Replaces.inside e e' _ _ _ [_] [] (by simp [singleMeasure]) rfl hpart

/-- Two notes, the first of them on the step that a word stands for. -/
def notesFrom (step : String) : Element :=
  singleMeasure [noteElement 1 step "1" "1" [], noteElement 2 "E" "1" "1" []]

/-- A step that is written as in German is none that is known. -/
theorem Document.read_unknown_step : ∃ score',
    (Document.read {} (notesFrom "H")).score = .ok score' := by
  have hthere : hasScore (notesFrom "B") (fun _ => true) = true := by decide +kernel
  obtain ⟨score, hread, -⟩ := exists_score hthere
  have hsite : (⟨"note", ["pitch", "step"], .text, isWordFor DiatonicStep⟩ : WordSite) ∈
      wordSites := by
    simp [wordSites, noteSites]
  have hrespells : WordSite.Respells ⟨"note", ["pitch", "step"], .text, isWordFor DiatonicStep⟩ "H"
      (noteElement 1 "B" "1" "1" []) (noteElement 1 "H" "1" "1" []) :=
    ⟨rfl, @Element.Amended.intro _ _ _ _ _ [] _ rfl rfl rfl
      (@Element.Amended.intro _ _ _ _ _ [] _ rfl rfl rfl (.text rfl))⟩
  refine (Document.read_unknown hsite rfl hrespells (.single [] _) hread).1
    ⟨fun h => ?_, fun h => ?_, fun h => ?_⟩
  · simp [barlineSites] at h
  · exact absurd (congrArg WordSite.path h) (by decide)
  · exact absurd (congrArg WordSite.path h) (by decide)

/-- A repeat that begins on a side of the measure. -/
def repeatFrom (side : String) : Element :=
  singleMeasure [barlineElement side "forward", noteElement 1 "C" "1" "4" []]

/-- Where the side of a barline is not known, it is taken for the right one. There no repeat begins,
and so the barline plays no part and ends the reading. -/
theorem Document.not_read_unknownSide :
    (∃ score, (Document.read {} (repeatFrom "left")).score = .ok score) ∧
      (∃ site ∈ wordSites, site.knows "Left" = false ∧
        site.Respells "Left" (barlineElement "left" "forward") (barlineElement "Left" "forward")) ∧
      Element.Replaces (barlineElement "left" "forward") (barlineElement "Left" "forward")
        (repeatFrom "left") (repeatFrom "Left") ∧
      (Document.read {} (repeatFrom "Left")).score =
        .error (.inconsistent 0 (.barlineWithoutRole .right (some .forward) none)) := by
  have hthere : hasScore (repeatFrom "left") (fun _ => true) = true := by decide +kernel
  obtain ⟨score, hread, -⟩ := exists_score hthere
  have hfails : (Document.read {} (repeatFrom "Left")).score.map (fun _ => ()) =
      .error (.inconsistent 0 (.barlineWithoutRole .right (some .forward) none)) := by
    decide +kernel
  exact ⟨⟨score, hread⟩, ⟨_, List.mem_cons_self, rfl, rfl, .attr rfl⟩, .single [] _,
    of_map_eq_error hfails⟩

end Partwise
