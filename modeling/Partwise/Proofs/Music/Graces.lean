import Partwise.Proofs.Music.Marks

/-!
# Music · Graces: grace notes and the marks that wait

The marks of directions wait for a note that sounds. A grace note leaves them waiting, and no grace
note ever carries a mark itself. But whoever joins a chord takes all marks that wait, and the chord
carries them, although it may be a chord that a grace note began.

Every note is followed here from its element (`Sourced`) to the leaf it ends up in.
`Document.graces` says for every group of notes what grace notes have to do with its marks, and
`Document.chord_onGraces` is a chord of two grace notes that carries a mark.
-/

namespace Partwise

open Markup

variable {settings : Settings} {r : Reading} {m : Moment} {ms : List Moment} {id : String}
  {key : VoiceKey} {d : Sourced}

/-! ## Where notes come from -/

/-- A delivery, with where it comes from. -/
structure Sourced extends Delivery where
  /-- The note element that it was read from. -/
  source? : Option Element
  /-- The marks that waited when it came. -/
  waiting : Attachments

/-- A delivery was read from an element that is marked as a grace note. -/
def Sourced.isGrace (d : Sourced) : Bool := d.source?.any (·.has "grace")

/-- What a moment brings to the voice of its deed, with where that comes from. -/
def Moment.sourced (settings : Settings) (m : Moment) : List Sourced :=
  let waiting := m.before.passage.pending
  match m.move, m.move.deed settings m.before with
  | .leaf e, .note input =>
    (if input.inChord then [] else m.before.restsBefore input.key input.note.line).map
        (fun n => ⟨.rest n, none, waiting⟩) ++
      [⟨⟨input.note, input.marks settings m.before, input.inChord⟩, some e, waiting⟩]
  | _, deed => (deed.delivers settings m.before).map fun d => ⟨d, none, waiting⟩

/-- What some moments bring to a voice of a part. -/
def sourcedTo (settings : Settings) (id : String) (key : VoiceKey) (ms : List Moment) :
    List Sourced :=
  ms.flatMap fun m =>
    if m.before.partId? = some id ∧ (m.move.deed settings m.before).voice? = some key then
      m.sourced settings
    else []

/-- The deliveries of a moment are what it brings. -/
theorem Moment.map_sourced (m : Moment) : (m.sourced settings).map Sourced.toDelivery =
    (m.move.deed settings m.before).delivers settings m.before := by
  unfold sourced
  dsimp only
  split
  · next hdeed =>
    rw [hdeed, Deed.delivers, List.map_append, List.map_map]
    congr 1
    split <;> rfl
  · rw [List.map_map]
    exact List.map_id _

/-- What is brought to a voice is what comes from somewhere. -/
theorem map_sourcedTo (ms : List Moment) :
    (sourcedTo settings id key ms).map Sourced.toDelivery = broughtTo settings id key ms := by
  induction ms with
  | nil => rfl
  | cons m ms ih =>
    rw [sourcedTo, List.flatMap_cons, List.map_append, broughtTo_cons]
    refine congrArg₂ (· ++ ·) ?_ ih
    split
    · next hhere =>
      rw [m.map_sourced, Moment.deliveriesTo_here hhere.1 hhere.2]
    · next hother =>
      rw [Moment.deliveriesTo_other fun hid hkey => hother ⟨hid, hkey⟩]
      rfl

/-- Of the marks that wait, a member of a chord takes all, and a grace note that is no member takes
none. Neither brings marks of its own. -/
structure Sourced.Fair (d : Sourced) : Prop where
  member : d.member = true → d.attachments = d.waiting
  grace : d.isGrace = true → d.member = false → d.attachments = ∅
  bare : d.isGrace = true → d.note.attachments = ∅

/-- What comes from no element and joins nothing is fair. -/
theorem Sourced.Fair.of_alone {d : Sourced} (hmember : d.member = false) (hsource : d.source? = none) :
    d.Fair := by
  have hgrace : d.isGrace = false := by rw [isGrace, hsource, Option.any_none]
  have hnever : ∀ {b : Bool}, b = false → b ≠ true := fun hb => hb ▸ Bool.false_ne_true
  exact ⟨fun h => absurd h (hnever hmember), fun h => absurd h (hnever hgrace),
    fun h => absurd h (hnever hgrace)⟩

/-- A note of a moment is read from the element of its move. -/
theorem Deed.ofLeaf_note {e : Element} {input : NoteInput}
    (h : Deed.ofLeaf settings r e = .note input) : input.Proper ∧ input.isGrace = e.has "grace" := by
  unfold ofLeaf at h
  split at h
  · unfold ofNote at h
    split at h
    · next hresult =>
      cases h
      have hgives := gives_of_result hresult
      refine ⟨NoteInput.proper hgives, ?_⟩
      obtain ⟨_, _, hrest₁⟩ := hgives.bind
      obtain ⟨_, _, hrest₂⟩ := hrest₁.bind
      obtain ⟨_, _, hrest₃⟩ := hrest₂.bind
      obtain ⟨_, _, hrest₄⟩ := hrest₃.bind
      obtain ⟨_, _, hrest₅⟩ := hrest₄.bind
      obtain ⟨_, _, hrest₆⟩ := hrest₅.bind
      obtain ⟨_, _, hpure⟩ := hrest₆.bind
      rw [hpure.pure]
    · exact nomatch h
  · unfold ofBackup at h
    split at h <;> exact nomatch h
  · unfold ofForward at h
    split at h <;> exact nomatch h
  · exact nomatch h

/-- All that a moment brings is fair. -/
theorem Moment.fair_sourced (m : Moment) : ∀ d ∈ m.sourced settings, d.Fair := by
  unfold sourced
  dsimp only
  split
  · next e input hmove hdeed =>
    rw [hmove] at hdeed
    obtain ⟨hproper, hgrace⟩ := Deed.ofLeaf_note hdeed
    intro d hd
    rcases List.mem_append.mp hd with hd | hd
    · obtain ⟨n, _, rfl⟩ := List.mem_map.mp hd
      exact .of_alone rfl rfl
    · rw [List.mem_singleton.mp hd]
      have hmarks : Delivery.attachments ⟨input.note, input.marks settings m.before, input.inChord⟩ =
          input.marks settings m.before := by
        rw [Delivery.attachments, hproper.bare]
        exact Attachments.empty_append _
      refine ⟨fun hmember => hmarks.trans ?_, fun hsource halone => hmarks.trans ?_,
        fun _ => hproper.bare⟩
      · have htakes : input.takes settings = true := by
          have hmember : input.inChord = true := hmember
          simp [NoteInput.takes, hmember]
        simp [NoteInput.marks, htakes]
      · have hleaves : input.takes settings = false := by
          have halone : input.inChord = false := halone
          have hsource : input.isGrace = true := hgrace.trans hsource
          simp [NoteInput.takes, halone, hsource]
        simp [NoteInput.marks, hleaves]
  · next hnot =>
    intro d hd
    obtain ⟨delivery, hdelivered, rfl⟩ := List.mem_map.mp hd
    refine .of_alone ?_ rfl
    generalize hdeed : m.move.deed settings m.before = deed at hdelivered hnot
    cases deed with
    | note input =>
      obtain ⟨e, hmove, _⟩ := Move.of_deed_note hdeed
      exact absurd rfl (hnot e input hmove)
    | forward =>
      obtain ⟨_, _, rfl⟩ := List.mem_map.mp hdelivered
      rfl
    | backup | enterMeasure | leaveMeasure | enterPart | leavePart | nothing =>
      exact absurd hdelivered List.not_mem_nil

theorem fair_sourcedTo : ∀ d ∈ sourcedTo settings id key ms, d.Fair := by
  intro d hd
  obtain ⟨m, _, hd⟩ := List.mem_flatMap.mp hd
  split at hd
  · exact m.fair_sourced d hd
  · exact nomatch hd

/-! ## Groups that grace notes begin -/

/-- The groups that notes form, with where they come from. -/
def sourcedGroups (ds : List Sourced) : List (List Sourced) := ds.splitBy fun _ d => d.member

/-- A list is split as the list that it is mapped to. -/
theorem splitBy_map {α β : Type} (f : α → β) (r : β → β → Bool) (l : List α) :
    (l.map f).splitBy r = (l.splitBy fun a b => r (f a) (f b)).map (List.map f) := by
  obtain ⟨hflat, hnil, hchains, hbetween⟩ :=
    List.splitBy_eq_iff.mp (rfl : l.splitBy (fun a b => r (f a) (f b)) = _)
  refine List.splitBy_eq_iff.mpr ⟨?_, ?_, ?_, ?_⟩
  · rw [← List.map_flatten, ← hflat]
  · simp
  · intro _ hmem
    obtain ⟨g, hg, rfl⟩ := List.mem_map.mp hmem
    exact (List.isChain_map f).mpr (hchains g hg)
  · refine (List.isChain_map _).mpr (hbetween.imp fun a b h => ?_)
    obtain ⟨ha, hb, hlast⟩ := h
    exact ⟨by simpa using ha, by simpa using hb, by simpa using hlast⟩

/-- What stands for a group of notes, and what grace notes have to do with its marks. -/
structure Graced (group : List Sourced) (leaf : Leaf) : Prop where
  stands : Stands (group.map Sourced.toDelivery) leaf
  /-- No grace note has any marks. -/
  notes : List.Forall₂ (fun d n => d.isGrace = true → n.attachments = ∅) group leaf.notes
  /-- If a grace note begins the group, it carries what waited for those that joined it. -/
  begun : ∀ first later, group = first :: later → first.isGrace = true →
    leaf.attachments = .gather (later.map Sourced.waiting)

/-- What stands for a group of notes that are fair. -/
theorem Graced.of_stands {group : List Sourced} {leaf : Leaf}
    (h : Stands (group.map Sourced.toDelivery) leaf) (hfair : ∀ d ∈ group, d.Fair) :
    Graced group leaf := by
  refine ⟨h, ?_, ?_⟩
  · generalize hds : group.map Sourced.toDelivery = ds at h
    cases h with
    | alone leads dressed =>
      obtain ⟨d, rfl, rfl⟩ := List.map_eq_singleton_iff.mp hds
      refine .cons (fun hgrace => ?_) .nil
      exact dressed.attachments.trans ((hfair d (by simp)).grace hgrace leads)
    | @together _ _ c leads _ _ gathers =>
      obtain ⟨first, later, rfl, rfl, rfl⟩ := List.map_eq_cons_iff.mp hds
      obtain ⟨n, hhead, dressed⟩ := gathers.head
      have hnotes : c.notes = n :: c.notes.tail := (List.cons_head?_tail hhead).symm
      have hlength := congrArg List.length gathers.notes
      rw [hnotes] at hlength
      have hleaf : (Leaf.chord c).notes = n :: c.notes.tail := hnotes
      rw [hleaf]
      refine .cons (fun hgrace => ?_) (List.forall₂_iff_zip.mpr ⟨by simpa using hlength.symm, ?_⟩)
      · exact dressed.attachments.trans ((hfair first (by simp)).grace hgrace leads)
      · intro d n' hmem _
        exact (gathers.bare n' (List.of_mem_zip hmem).2).2
  · rintro first later rfl hgrace
    obtain ⟨_, _, hgroup, leads, follow⟩ := h.exists_cons
    cases hgroup
    rw [h.attachments_eq, List.map_map, List.map_cons]
    have hfirst : first.attachments = ∅ := (hfair first (by simp)).grace hgrace leads
    have hlater : later.map (Delivery.attachments ∘ Sourced.toDelivery) = later.map Sourced.waiting := by
      refine List.map_congr_left fun d hd => ?_
      exact (hfair d (by simp [hd])).member (follow _ (List.mem_map_of_mem hd))
    rw [hlater]
    exact (congrArg (· ++ _) hfirst).trans (Attachments.empty_append _)

/-! ## Documents -/

/-- **Grace notes have no marks.** The leaves of a voice of the score stand for the groups of notes
that its document brings to the voice, and no note that was read from a grace note has any marks. Of
the marks that waited in the document, a group that a grace note begins carries exactly those that
waited when another note joined it: so a chord that begins with a grace note is without marks if and
only if none waited for its other notes. -/
theorem Document.graces {root : Element} {score : Score}
    (h : (Document.read settings root).score = .ok score) :
    (trail settings root).map Moment.move = movesOf root ∧
      ∀ part ∈ score.parts, ∀ voice ∈ part.voices,
        voice.notes = voice.leaves.flatMap Leaf.notes ∧
          List.Forall₂ Graced
            (sourcedGroups (sourcedTo settings part.id voice.key (trail settings root)))
            voice.leaves := by
  obtain ⟨hmoves, hassembled⟩ := Document.chords_assembled h
  refine ⟨hmoves, fun part hpart voice hvoice => ?_⟩
  obtain ⟨hnotes, -, hstands⟩ := hassembled part hpart voice hvoice
  refine ⟨hnotes, ?_⟩
  rw [← map_sourcedTo, chordGroups, splitBy_map, List.forall₂_map_left_iff] at hstands
  refine List.forall₂_iff_zip.mpr ⟨hstands.length_eq, fun {group leaf} hmem => ?_⟩
  refine .of_stands ((List.forall₂_iff_zip.mp hstands).2 hmem) fun d hd => ?_
  have hthere := List.mem_flatten.mpr ⟨group, (List.of_mem_zip hmem).1, hd⟩
  rw [sourcedGroups, List.flatten_splitBy] at hthere
  exact fair_sourcedTo d hthere

/-- A grace note of the first voice. -/
def graceElement (line : Nat) (step : String) (extras : List Element) : Element :=
  { name := "note"
    line
    children := { name := "grace" } :: extras ++
      [{ name := "pitch", children := [textElement "step" step, textElement "octave" "4"] }] }

/-- A direction for a dynamic. -/
def dynamicElement (name : String) : Element :=
  directionElement { name := "dynamics", children := [{ name }] }

/-- A chord of two grace notes, with a dynamic between them, and a note after it. -/
def chordOnGraces : Element :=
  singleMeasure [graceElement 1 "C" [], dynamicElement "f", graceElement 2 "E" [{ name := "chord" }],
    noteElement 3 "G" "1" "1" []]

/-- The chord, which two grace notes make, carries the dynamic. -/
theorem Document.chord_onGraces : ∃ score, ∃ part ∈ score.parts, ∃ voice ∈ part.voices,
    ∃ c, (Document.read {} chordOnGraces).score = .ok score ∧ .chord c ∈ voice.leaves ∧
      c.notes.map Note.line = [1, 2] ∧ c.attachments = { dynamics := [.sign .f] } := by
  have hthere : hasVoice chordOnGraces "P" ⟨1, 1⟩ (fun voice => voice.leaves.any fun
      | .chord c => c.notes.map Note.line = [1, 2] ∧ c.attachments = { dynamics := [.sign .f] }
      | .note _ => false) = true := by
    decide +kernel
  obtain ⟨score, part, hpart, voice, hvoice, hread, _, _, hholds⟩ := exists_voice hthere
  obtain ⟨leaf, hleaf, hchord⟩ := List.any_eq_true.mp hholds
  cases leaf with
  | note => exact nomatch hchord
  | chord c => exact ⟨score, part, hpart, voice, hvoice, c, hread, hleaf, of_decide_eq_true hchord⟩

/-- A dynamic, a grace note that leaves it waiting, and a note that takes it. -/
def graceThenNote : Element :=
  singleMeasure [dynamicElement "f", graceElement 1 "C" [], noteElement 2 "E" "1" "1" []]

/-- The grace note of `graceThenNote` has no marks. -/
theorem Document.graces_graceThenNote : ∃ score, ∃ part ∈ score.parts, ∃ voice ∈ part.voices,
    (Document.read {} graceThenNote).score = .ok score ∧
      ∃ leaf rest, voice.leaves = leaf :: rest ∧ leaf.notes.map Note.line = [1] ∧
        leaf.attachments = ∅ := by
  have hthere : hasVoice graceThenNote "P" ⟨1, 1⟩ (fun _ => true) = true := by decide +kernel
  obtain ⟨score, part, hpart, voice, hvoice, hread, hid, hkey, _⟩ := exists_voice hthere
  obtain ⟨-, hgraced⟩ := (Document.graces hread).2 part hpart voice hvoice
  rw [hid, hkey] at hgraced
  have hgroups : (sourcedGroups (sourcedTo {} "P" ⟨1, 1⟩ (trail {} graceThenNote))).map
      (List.map fun d => (d.note.line, d.isGrace)) = [[(1, true)], [(2, false)]] := by
    decide +kernel
  generalize sourcedGroups _ = groups at hgraced hgroups
  simp only [List.map_eq_cons_iff, List.map_eq_nil_iff, Prod.mk.injEq] at hgroups
  obtain ⟨_, _, rfl, ⟨first, _, rfl, ⟨hline, hgrace⟩, rfl⟩, _⟩ := hgroups
  generalize hleaves : voice.leaves = leaves at hgraced
  cases hgraced with
  | @cons _ leaf _ rest hfirst hrest =>
    refine ⟨score, part, hpart, voice, hvoice, hread, leaf, rest, hleaves, ?_, ?_⟩
    · have hlines := congrArg (List.map Note.line) hfirst.stands.notes_eq
      simpa [Note.asRead, hline, Function.comp_def] using hlines
    · exact hfirst.begun first [] rfl hgrace

end Partwise
