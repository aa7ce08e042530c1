import Partwise.Proofs.Music.Placing
import Partwise.Proofs.Reading.Keeping

/-!
# Music · Joining: members of a chord, and movements back in time

A member of a chord joins the note that stands last in its voice, or in the tuplet that is open for
its voice: it leaves an imprint at the end of the music and takes no time of its own. A movement
back in time is not heard at all, but moves the document and the current voice.
-/

namespace Partwise

open Markup

variable {r s t : Reading} {part : Part} {key : VoiceKey} {line : Nat} {u : Unit}
  {settings : Settings}

/-- A voice that follows the slurs of a member of a chord is not heard. -/
theorem Hushed.markSlurs (hr : r.Sound) {n : Note} {next : Unit → Step Unit}
    (h : Ends (if (!settings.ignoreLyrics && !n.slurs.isEmpty) = true then
      changeVoice line key (fun voice => voice.markSlurs n.slurs .none) >>= next else next ()) r u s) :
    ∃ t, Hushed r t ∧ t.passage.tuplets = r.passage.tuplets ∧
      (∀ id, r.partId? = some id → t.singing id key = (r.singing id key).follow settings n ∧
        ∀ id' k, (id', k) ≠ (id, key) → t.singing id' k = r.singing id' k) ∧
      Ends (next ()) t u s := by
  split at h
  · next hmarks =>
    obtain ⟨hheard, _⟩ : settings.ignoreLyrics = false ∧ n.slurs ≠ [] := by simpa using hmarks
    obtain ⟨_, t, hslurs, hnext⟩ := h.bind
    have hkept := @Keeps.changeVoice _ _ _ .tuplets _ _ _ _ hslurs
    obtain ⟨_, r₁, hvoice, hchange⟩ := hslurs.bind
    obtain ⟨_, hat⟩ := hvoice.discard
    obtain ⟨part, _, hcurrent, _⟩ := hat.bind
    have hpart := hcurrent.currentPart.1
    have hrefl := Becomes.refl hpart
    have hbecomes := (hrefl.voiceAt hat).2.changePart hchange rfl
    have hstill := fun v : Voice => v.still_markSlurs n.slurs .none
    have hturns := (Part.Turns.ensureVoice part key).modifyVoice fun v hv => (hstill v).key.trans hv
    have hsinging := hturns.singing_here.trans (Voice.singing_markSlurs _ n .none)
    rw [← Part.singing_eq] at hsinging
    refine ⟨t, .of_becomes hr hpart hbecomes hturns.id ?_ ?_ hturns.voices hturns.keyed rfl rfl rfl,
      hkept, fun id hid => ?_, hnext⟩
    · intro k
      by_cases hk : k = key
      · rw [hk, hturns.music_here, (hstill _).music, part.music_eq]
      · exact hturns.music k hk
    · intro k
      by_cases hk : k = key
      · rw [hk, hturns.cursor_here, (hstill _).position, part.cursor_eq]
      · exact hturns.cursor k hk
    · obtain rfl : part.id = id := Option.some.inj (hrefl.partId.symm.trans hid)
      refine ⟨?_, fun id' k hne => ?_⟩
      · have hhere := hbecomes.singing_here key
        rw [hturns.id] at hhere
        rw [hhere, hsinging, hrefl.singing_here, Singing.follow, if_neg (by simp [hheard])]
      · refine hbecomes.singing_same hpart hturns.id id' fun hid' => hturns.singing k ?_
        rintro rfl
        exact hne (by rw [hid'])
  · next hunmarked =>
    refine ⟨r, (Quiet.refl hr).hushed, rfl, fun id _ => ⟨?_, fun _ _ _ => rfl⟩, h⟩
    unfold Singing.follow
    split
    · rfl
    · next hheard =>
      have hnone : n.slurs = [] := by simpa [hheard] using hunmarked
      simp [Singing.mark, Note.slurStops, Note.slurStarts, hnone]

/-- A member of a chord comes last in the music of its voice and covers no time of its own. -/
structure Joined (r s : Reading) (id : String) (key : VoiceKey) (content : NoteContent)
    (line : Nat) (current : VoiceKey) : Prop where
  partId : r.partId? = some id
  samePart : s.partId? = some id
  imprints : ∃ position, imprints (s.music id key) =
    imprints (r.music id key) ++ [⟨content, line, position⟩]
  spans : spans (s.music id key) = spans (r.music id key)
  word : .hollow ∉ wordOf (r.music id key) → wordOf (s.music id key) = wordOf (r.music id key)
  others : ∀ id' k, (id', k) ≠ (id, key) → s.music id' k = r.music id' k
  cursor : s.cursor = r.cursor
  position : s.passage.position = r.passage.position
  current : s.passage.current = current
  sound : s.Sound
  closed : r.Closed → s.Closed
  tuplets : TupletsGoOn r s

/-- A member of a chord joins the leaf that stands last in its voice. It is no rest; it is the note
that was read, and has taken some marks. -/
structure Folds (r s : Reading) (id : String) (key : VoiceKey) (read : Note) (marks : Attachments) :
    Prop where
  sounds : read.isRest = false
  joins : ∃ n, Note.Dressed marks read n ∧
    JoinsLeaf n (leavesOf (r.music id key)) (leavesOf (s.music id key))

/-- A note of the voice joins the last element of its music. The voice comes no farther by it. -/
structure Absorbs (r s : Reading) (id : String) (key : VoiceKey) : Prop where
  headway : s.passage.headway = r.passage.headway
  joins : ∃ n : Note, (⟨n.staffNumber, n.voiceNumber⟩ : VoiceKey) = key ∧
    JoinsLast n (r.music id key) (s.music id key)

/-- What does not change music and headway before changes nothing about it. -/
theorem Absorbs.after {id : String} (hmusic : s.music = r.music)
    (hheadway : s.passage.headway = r.passage.headway) (h : Absorbs s t id key) :
    Absorbs r t id key := by
  obtain ⟨n, hkey, hjoins⟩ := h.joins
  exact ⟨h.headway.trans hheadway, n, hkey, hmusic ▸ hjoins⟩

namespace Folds

variable {id : String} {read : Note} {marks : Attachments}

/-- What is not heard afterwards changes nothing about it. -/
theorem before_quiet (hquiet : Quiet s t) (h : Folds r s id key read marks) :
    Folds r t id key read marks := by
  obtain ⟨hsounds, n, hdressed, hjoins⟩ := h
  rw [← hquiet.music] at hjoins
  exact ⟨hsounds, n, hdressed, hjoins⟩

/-- What does not change the music before changes nothing about it. -/
theorem after (hmusic : s.music = r.music) (h : Folds s t id key read marks) :
    Folds r t id key read marks := by
  obtain ⟨hsounds, n, hdressed, hjoins⟩ := h
  rw [hmusic] at hjoins
  exact ⟨hsounds, n, hdressed, hjoins⟩

end Folds

namespace Joined

variable {id : String} {content : NoteContent} {before current : VoiceKey}

/-- A member of a chord covers no time in any voice. -/
theorem spans_eq (h : Joined r s id key content line current) (id' : String) (k : VoiceKey) :
    Partwise.spans (s.music id' k) = Partwise.spans (r.music id' k) := by
  by_cases hhere : (id', k) = (id, key)
  · cases hhere
    exact h.spans
  · rw [h.others id' k hhere]

/-- What is not heard afterwards changes nothing about it. -/
theorem before_quiet (h : Joined r s id key content line current) (hquiet : Quiet s t) :
    Joined r t id key content line current := by
  have hmusic : t.music = s.music := congrArg View.music hquiet.view
  exact ⟨h.partId, hquiet.partId.trans h.samePart, hmusic ▸ h.imprints, hmusic ▸ h.spans,
    hmusic ▸ h.word, hmusic ▸ h.others, (congrArg View.cursor hquiet.view).trans h.cursor,
    hquiet.position.trans h.position, hquiet.current.trans h.current, hquiet.sound,
    fun hr => hquiet.closed (h.closed hr),
    h.tuplets.trans hquiet.tuplets⟩

/-- What is not heard before changes nothing about it, and neither do songs and which voice is
current. -/
theorem after {singing : String → VoiceKey → Singing}
    (hview : s.view = { r.view with singing, current := before })
    (hclosed : r.Closed → s.Closed) (htuplets : TupletsGoOn r s)
    (h : Joined s t id key content line current) : Joined r t id key content line current := by
  have hpartId : s.partId? = r.partId? := congrArg View.partId? hview
  have hmusic : s.music = r.music := congrArg View.music hview
  have hcursor : s.cursor = r.cursor := congrArg View.cursor hview
  have hposition : s.passage.position = r.passage.position := congrArg View.position hview
  exact ⟨hpartId ▸ h.partId, h.samePart, hmusic ▸ h.imprints, hmusic ▸ h.spans, hmusic ▸ h.word,
    hmusic ▸ h.others, h.cursor.trans hcursor, h.position.trans hposition, h.current, h.sound,
    fun hr => h.closed (hclosed hr), htuplets.trans h.tuplets⟩

/-- A member joins the last note of the innermost open tuplet. -/
theorem inTuplet (hr : r.Sound) {n : Note} {chordOpen : Bool} {tuplet joined : Tuplet}
    {outer : List Tuplet} (htuplets : r.passage.tuplets = tuplet :: outer)
    (hkey : r.passage.tupletKey? = some key) (hjoin : tuplet.join n chordOpen = .ok joined)
    (hs : s = { r with passage := { r.passage with tuplets := joined :: outer } }) :
    ∃ id, Joined r s id key n.content n.line r.passage.current ∧ s.depth = r.depth ∧
      s.singing = r.singing ∧ JoinsLeaf n (leavesOf (r.music id key)) (leavesOf (s.music id key)) ∧
      JoinsLast n (r.music id key) (s.music id key) := by
  have hgrows := Tuplet.of_join hjoin
  obtain ⟨hsame, _, hreached, part, hpart, hvoice⟩ := hr.tuplets key hkey
  have hrefl := Becomes.refl hpart
  have hnew : ∀ x ∈ joined :: outer, x.key = key := by
    intro x hx
    rcases List.mem_cons.mp hx with rfl | hx
    · rw [hgrows.key]
      exact hsame tuplet (by simp [htuplets])
    · exact hsame x (by simp [htuplets, hx])
  have hbecomes : Becomes r s part { r.passage with tuplets := joined :: outer } := by
    subst hs
    exact ⟨hrefl.partId, rfl, rfl, hrefl.here, fun _ _ => rfl, rfl⟩
  have hjoins : Joins n (r.music part.id key) (s.music part.id key) := by
    rw [hrefl.music_here, hbecomes.music_here, Passage.held_of_key hsame,
      Passage.held_of_key hnew, htuplets]
    exact (joins_openMusic hjoin).prepend _
  have hleaf : JoinsLeaf n (leavesOf (r.music part.id key)) (leavesOf (s.music part.id key)) := by
    rw [hrefl.music_here, hbecomes.music_here, Passage.held_of_key hsame,
      Passage.held_of_key hnew, htuplets, leavesOf_append, leavesOf_append]
    exact (joinsLeaf_openMusic hjoin).prepend _
  have hlast : JoinsLast n (r.music part.id key) (s.music part.id key) := by
    rw [hrefl.music_here, hbecomes.music_here, Passage.held_of_key hsame,
      Passage.held_of_key hnew, htuplets]
    exact (joinsLast_openMusic hjoin).prepend _
  have hcursor : s.cursor = r.cursor := by
    funext k
    rw [hbecomes.cursor, hrefl.cursor]
  have hposition : s.passage.position = r.passage.position := by rw [hbecomes.passage]
  have hkey' : s.passage.tupletKey? = some key := by
    rw [Passage.tupletKey?_cons (by rw [hbecomes.passage]), hnew joined List.mem_cons_self]
  refine ⟨part.id, ⟨hrefl.partId, hbecomes.same_partId.trans hrefl.partId, hjoins.imprints_eq,
    hjoins.spans_eq, hjoins.word_eq, ?_, hcursor, hposition, by rw [hbecomes.passage], ?_,
    hbecomes.closed, .inr (hkey'.trans hkey.symm)⟩, ?_, ?_, hleaf, hlast⟩
  · intro id' k hne
    refine hbecomes.music_same hpart rfl id' fun hid => ?_
    have hk : k ≠ key := fun heq => hne (by rw [hid, heq])
    rw [Passage.held_of_ne hsame hk, Passage.held_of_ne hnew hk]
  · refine hbecomes.sound hr hpart (fun hkeyed => hkeyed) ?_
    intro k hk
    rw [← hbecomes.passage, hkey'] at hk
    cases hk
    refine ⟨by rwa [hbecomes.passage], ?_, ?_, part, hbecomes.part?, hvoice⟩
    · intro x hx
      rw [hbecomes.passage] at hx
      cases hx
      exact hgrows.members
    · rw [hposition, hcursor]
      exact hreached
  · rw [Reading.depth, Reading.depth, hbecomes.passage, htuplets]
    rfl
  · funext id' k
    exact hbecomes.singing_same hpart rfl id' fun _ => rfl

/-- A member joins the last element of its voice. -/
theorem inVoice (hr : r.Sound) {n : Note} {chordOpen : Bool}
    (hkey : r.passage.tupletKey? ≠ some key)
    (h : Ends (joinChord.joinInVoice key n chordOpen) r u s) :
    ∃ id, Joined r s id key n.content n.line r.passage.current ∧ s.depth = r.depth ∧
      s.singing = r.singing ∧ JoinsLeaf n (leavesOf (r.music id key)) (leavesOf (s.music id key)) ∧
      JoinsLast n (r.music id key) (s.music id key) := by
  obtain ⟨v, r₁, hvoice, hmatch⟩ := h.bind
  obtain ⟨part, _, hcurrent, _⟩ := hvoice.bind
  have hpart := hcurrent.currentPart.1
  have hrefl := Becomes.refl hpart
  split at hmatch
  · next v' hjoin =>
    obtain ⟨hv, hbegun⟩ := hrefl.voiceAt hvoice
    obtain ⟨hjoins, hkey', hplace⟩ := Voice.of_joinChord hjoin
    have hsame : v'.key = key := by
      rw [hkey', hv]
      exact Part.key_voiceOrNew
    have hbecomes := hbegun.changePart hmatch rfl
    have hturns := (Part.Turns.ensureVoice part key).modifyVoice (f := fun _ => v') fun _ _ => hsame
    generalize (part.ensureVoice key).modifyVoice key (fun _ => v') = part' at hbecomes hturns
    have hheld : r.passage.held key = [] := if_neg hkey
    have hcursor : s.cursor = r.cursor := by
      funext k
      rw [hbecomes.cursor, hrefl.cursor]
      by_cases hk : k = key
      · rw [hk, hturns.cursor_here, hplace, hv, part.cursor_eq]
      · exact hturns.cursor k hk
    have hbefore : r.music part.id key = v.music := by
      rw [hrefl.music_here, hheld, List.append_nil, part.music_eq, hv]
    have hafter : s.music part.id key = v'.music := by
      have hhere := hbecomes.music_here key
      rw [hturns.id] at hhere
      rw [hhere, hheld, List.append_nil, hturns.music_here]
    have hmusic : Joins n (r.music part.id key) (s.music part.id key) := by
      rwa [hbefore, hafter]
    have hleaf : JoinsLeaf n (leavesOf (r.music part.id key)) (leavesOf (s.music part.id key)) := by
      rw [hbefore, hafter]
      exact Voice.joinsLeaf hjoin
    have hlast : JoinsLast n (r.music part.id key) (s.music part.id key) := by
      rw [hbefore, hafter]
      exact Voice.joinsLast hjoin
    refine ⟨part.id, ⟨hrefl.partId, hbecomes.same_partId.trans hrefl.partId, hmusic.imprints_eq,
      hmusic.spans_eq, hmusic.word_eq, ?_, hcursor, congrArg Passage.position hbecomes.passage,
      congrArg Passage.current hbecomes.passage, ?_, hbecomes.closed,
      .inr (by rw [hbecomes.passage])⟩, by rw [Reading.depth, hbecomes.passage]; rfl, ?_, hleaf,
      hlast⟩
    · intro id' k hne
      refine hbecomes.music_same hpart hturns.id id' fun hid => ?_
      rw [hturns.music k fun heq => hne (by rw [hid, heq])]
    · apply hbecomes.sound hr hpart hturns.keyed
      intro k hk
      obtain ⟨hvoices, hmembers, hreached, begun, hbegun', hthere⟩ := hr.tuplets k hk
      rw [hpart] at hbegun'
      cases hbegun'
      rw [← hbecomes.passage] at hvoices hmembers hreached
      rw [← hcursor] at hreached
      exact ⟨hvoices, hmembers, hreached, part', hbecomes.part?, hturns.voices k hthere⟩
    · funext id' k
      refine hbecomes.singing_same hpart hturns.id id' fun _ => ?_
      by_cases hk : k = key
      · rw [hk, hturns.singing_here, Voice.singing_joinChord hjoin, hv, part.singing_eq]
      · exact hturns.singing k hk
  · exact absurd hmatch not_ends_throw

/-- A note without the marks that waited for it is joined in the same way. -/
theorem of_same {n n' : Note} (h : n.Same n')
    (hjoined : Joined r s id key n'.content n'.line current) :
    Joined r s id key n.content n.line current := by
  have hcontent : n'.content = n.content := congrArg Imprint.content h.imprint
  have hline : n'.line = n.line := congrArg Imprint.line h.imprint
  rwa [← hcontent, ← hline]

/-- What is not heard before changes nothing about it, even if it is sung. -/
theorem after_hushed (hhushed : Hushed r s) (h : Joined s t id key content line current) :
    Joined r t id key content line current := by
  have hview : s.view = { r.view with singing := s.singing, current := r.passage.current } :=
    hhushed.view
  exact h.after hview hhushed.closed hhushed.tuplets

/-- A member of a chord joins the innermost tuplet where that is open for its voice, and otherwise
the voice. -/
theorem of_run (hr : r.Sound) {n : Note} {chordOpen : Bool} {line : Nat} {next : Unit → Step Unit}
    (h : Ends (match r.passage.tuplets with
      | tuplet :: outer =>
        if r.passage.tupletKey? = some key then
          match tuplet.join n chordOpen with
          | .ok joined =>
            changePassage (fun p => { p with tuplets := joined :: outer }) >>= next
          | .error fault => throw (.inconsistent line fault) >>= next
        else joinChord.joinInVoice key n chordOpen >>= next
      | [] => joinChord.joinInVoice key n chordOpen >>= next) r u s) :
    ∃ id s', Joined r s' id key n.content n.line r.passage.current ∧ s'.depth = r.depth ∧
      s'.singing = r.singing ∧ JoinsLeaf n (leavesOf (r.music id key)) (leavesOf (s'.music id key)) ∧
      JoinsLast n (r.music id key) (s'.music id key) ∧ Ends (next ()) s' u s := by
  split at h
  · next tuplet outer htuplets =>
    split at h
    · next hkey =>
      split at h
      · next joined hjoin =>
        obtain ⟨_, s', hpassage, hnext⟩ := h.bind
        obtain ⟨id, hjoined, hdepth, hsinging, hleaf, hlast⟩ :=
          inTuplet hr htuplets hkey hjoin hpassage.changePassage
        exact ⟨id, s', hjoined, hdepth, hsinging, hleaf, hlast, hnext⟩
      · obtain ⟨_, _, hthrow, _⟩ := h.bind
        exact absurd hthrow not_ends_throw
    · next hkey =>
      obtain ⟨_, s', hvoice, hnext⟩ := h.bind
      obtain ⟨id, hjoined, hdepth, hsinging, hleaf, hlast⟩ := inVoice hr hkey hvoice
      exact ⟨id, s', hjoined, hdepth, hsinging, hleaf, hlast, hnext⟩
  · next hnone =>
    obtain ⟨_, s', hvoice, hnext⟩ := h.bind
    have hkey : r.passage.tupletKey? ≠ some key := by simp [Passage.tupletKey?, hnone]
    obtain ⟨id, hjoined, hdepth, hsinging, hleaf, hlast⟩ := inVoice hr hkey hvoice
    exact ⟨id, s', hjoined, hdepth, hsinging, hleaf, hlast, hnext⟩

/-- A member joins the chord that stands last, and takes the marks that it is meant to take. -/
theorem joinChord (hr : r.Sound) {input : NoteInput} (hproper : input.Proper)
    (hmember : input.inChord = true) (h : Ends (Partwise.joinChord settings input) r u s) :
    ∃ id, Joined r s id input.key input.note.content input.note.line r.passage.current ∧
      s.depth + input.tupletStops = r.depth ∧
      Folds r s id input.key input.note (input.marks settings r) ∧
      (∃ chunks after, Intones r s id input.key (input.note.asRead, chunks) after ∧
        Sung settings (r.singing id input.key) input after chunks) ∧
      Absorbs r s id input.key ∧
      s.passage.pending = if input.takes settings then ∅ else r.passage.pending := by
  have hheadway := Keeps.headway_joinChord _ _ _ h
  unfold Partwise.joinChord at h
  extract_lets key line finish join at h
  obtain ⟨hsounds, h⟩ : input.note.isRest = false ∧ Ends (join ()) r u s := by
    split at h
    · obtain ⟨_, _, hthrow, _⟩ := h.bind
      exact absurd hthrow not_ends_throw
    · next hsounds => exact ⟨by simpa using hsounds, h⟩
  obtain ⟨n, r₁, hpending, hrest₁⟩ := h.bind
  obtain ⟨hsame, -⟩ := hpending.takePending
  obtain ⟨hdressed, htaken⟩ := hpending.takePending_eq
  have hlyrics : n.lyrics = [] := by
    rw [hdressed]
    exact hproper.unsung
  rw [hproper.takes_member hmember hsounds] at hdressed htaken
  have hdressed : Note.Dressed (input.marks settings r) input.note n := by
    rw [hdressed]
    exact ⟨rfl, rfl, rfl⟩
  have hwaits : s.passage.pending = if input.takes settings then ∅ else r.passage.pending := by
    have hdiscreet := (Discreet.habit id).habit
    have hfolded := (hdiscreet.fold hdiscreet.closeTuplets).ends hrest₁
    rwa [htaken] at hfolded
  have hquiet := Quiet.of_passage hr htaken rfl rfl rfl
  have hopen : r₁.passage.tuplets = r.passage.tuplets := by rw [htaken]
  extract_lets joinIn at hrest₁
  obtain ⟨r₂, hhushed, hkept, hsinging, hjoinIn⟩ := Hushed.markSlurs hquiet.sound hrest₁
  have hmarked := hquiet.hushed.trans hhushed
  obtain ⟨_, r₃, htell, hrest₂⟩ := hjoinIn.bind
  have hspoken := Quiet.lift hmarked.sound htell
  have htold := hmarked.trans hspoken.hushed
  have hdepth : r₃.depth = r.depth := by
    rw [htell.tell, Reading.depth, hkept.trans hopen]
    rfl
  obtain ⟨_, _, hget, hrest₃⟩ := hrest₂.bind
  obtain ⟨rfl, rfl⟩ := hget.get
  extract_lets chordOpen at hrest₃
  obtain ⟨id, r₄, hjoined, hsame', hunchanged, hleaf, hlast, hfinish⟩ := of_run htold.sound hrest₃
  rw [htold.current] at hjoined
  obtain ⟨_, r₅, hpassage, hclose⟩ := hfinish.bind
  have htouched := Quiet.changePassage hjoined.sound hpassage rfl rfl rfl
  obtain ⟨⟨hclosed, _⟩, hstops⟩ := Closes.closeEach htouched.sound hclose
  rw [hpassage.changePassage, List.length_range] at hstops
  have hlater := htouched.trans hclosed
  have hfolds : Folds r₃ r₄ id key input.note (input.marks settings r) :=
    ⟨hsounds, n, hdressed, hleaf⟩
  have hid : r₁.partId? = some id :=
    hquiet.partId.trans ((congrArg View.partId? htold.view).symm.trans hjoined.partId)
  obtain ⟨hhere, hothers⟩ := hsinging id hid
  have hvisible : n.isInvisibleRest = false := hdressed.isInvisibleRest.trans hproper.visible
  have hintones : Intones r r₄ id key (input.note.asRead, [])
      ((r.singing id key).follow settings input.note) := by
    refine ⟨?_, ?_, fun id' k hne => ?_⟩
    · rw [versesOf_joinsLeaf hleaf hvisible, Note.verse, hdressed.asRead, hlyrics, htold.music]
    · rw [hunchanged, hspoken.singing, hhere, hquiet.singing]
      exact Singing.follow_congr _ hdressed.asRead
    · rw [hunchanged, hspoken.singing, hothers id' k hne, hquiet.singing]
  refine ⟨id, of_same hsame ((hjoined.after_hushed htold).before_quiet hlater),
    hstops.trans (hsame'.trans hdepth), (hfolds.before_quiet hlater).after htold.music,
    ⟨[], _, hintones.before_quiet hlater, .member hmember⟩, ⟨hheadway, n, ?_, ?_⟩, hwaits⟩
  · exact congrArg₂ VoiceKey.mk (congrArg Note.staffNumber hdressed.asRead :)
      (congrArg Note.voiceNumber hdressed.asRead :)
  · rwa [htold.music, ← hlater.music] at hlast

end Joined

end Partwise
