import Partwise.Proofs.Music.Measures
import Partwise.Proofs.Music.Rows
import Partwise.Proofs.Music.Tuplets
import Partwise.Proofs.Reading.Overflows

/-!
# Music · Contiguity: the notes of a tuplet follow on each other in time

A note of a tuplet begins where its voice stands. While a tuplet is open, nothing else moves its
voice: a rest or a note that does not belong to the tuplet closes it, and so does everything that
goes back or forward in time, or begins a measure anew. So the voice stands where the open tuplets
have come to, and they are in a row once they have closed. `Reading.InRows` states this of a
reading, and `Reading.InRows.step` shows that every move keeps it, as long as the document has its
notes inside of measures and no measure inside of another one (`Markup.Element.notesInMeasures`).

`Document.tuplets_contiguous` says it of the tuplets of a score, at any depth.
-/

namespace Partwise

open Markup

variable {settings : Settings} {r s t : Reading} {m : Moment} {ms : List Moment} {d : Deed}
  {id : String} {key : VoiceKey}

/-! ## Positions in words -/

/-- Nothing can be added to what fits. -/
theorem WholeNotes.InWords.adds_zero {x : WholeNotes} (h : x.InWords) : x.Adds 0 := by
  have hone : x.den / x.den = 1 := Nat.div_self x.den_pos
  have hden := h.den
  have hnum := h.num
  simp [Adds, combines, hone, hden, hnum]
  decide

/-- Where a note of a voice begins is a position that fits. -/
theorem Reading.InWords.onset (h : r.InWords) (key : VoiceKey) : (r.onset key).InWords := by
  have hcursor : (r.cursor key).InWords := by
    rw [Reading.cursor]
    cases hpart : r.part? with
    | none => exact WholeNotes.inWords_zero
    | some part =>
      rw [Option.elim_some, Part.cursor]
      cases hvoice : part.voice? key with
      | none => exact WholeNotes.inWords_zero
      | some voice =>
        obtain ⟨_, _, hfound⟩ := Option.bind_eq_some_iff.mp hpart
        exact h.voices part (List.mem_of_find?_eq_some hfound) voice
          (List.mem_of_find?_eq_some hvoice)
  rw [Reading.onset]
  rcases max_choice r.passage.position (r.cursor key) with hmax | hmax
  · rw [hmax]
    exact h.position
  · rw [hmax]
    exact hcursor

/-- The numbers of a reading fit into words before every moment of its trail. -/
theorem Follows.inWords_before (h : Follows settings {} ms t) : ∀ m ∈ ms, m.before.InWords := by
  intro m hm
  obtain ⟨before, after, rfl⟩ := List.append_of_mem hm
  obtain ⟨r, hfirst, hrest⟩ := h.of_append
  exact hrest.of_cons.1 ▸ hfirst.inWords

/-! ## Readings with tuplets in rows -/

/-- All tuplets are in rows, each at its voice. Those that are open are so in the measure that is
read, as far as their voice has come. -/
structure Reading.InRows (r : Reading) : Prop where
  rows : ∀ {id key t}, .tuplet t ∈ r.music id key → ∃ measure, t.InRow ⟨key, measure⟩
  opened : ∀ {id key}, r.partId? = some id → r.passage.tupletKey? = some key →
    ∃ before t, r.music id key = before ++ [.tuplet t] ∧
      t.InRow ⟨key, r.passage.measureNumber⟩ ∧ t.stop = r.cursor key

/-- What a chord note makes a tuplet of was a tuplet. -/
theorem VoiceElement.tuplet_of_join {e : VoiceElement} {n : Note} {chordOpen : Bool} {t' : Tuplet}
    (h : e.join n chordOpen = .ok (.tuplet t')) :
    ∃ t, e = .tuplet t ∧ t.join n chordOpen = .ok t' := by
  unfold VoiceElement.join at h
  split at h
  · split at h <;> cases h
  · split at h <;> cases h
  · next t =>
    obtain ⟨joined, ht, heq⟩ := of_map_eq_ok h
    cases heq
    exact ⟨t, rfl, ht⟩
  · cases h

/-- A note comes in behind tuplets that are in rows: either no tuplet is open afterwards, or those
that are open are in rows up to its end. -/
theorem Admits.rows {n : Note} {rests : List Note} {before after : List VoiceElement}
    {old new : List Tuplet} {starts : List Opening} {site : Site} {stop : WholeNotes}
    (h : Admits r s id key n rests before after old new starts) (hold : RowsUpTo site stop old)
    (hsite : n.site = site) (hkey : site.key = key) (hbegins : n.positionInMeasure = stop)
    (hadds : stop.Adds n.soundingWholeNotes) :
    s.music id key = before ++ rests.map .note ++ [.note n] ∧ new = [] ∨
      ∃ t, s.music id key = before ++ rests.map .note ++ [.tuplet t] ∧ t.InRow site ∧
        t.stop = stop + n.soundingWholeNotes := by
  obtain ⟨-, hmusic, hcame, -, -, -, -⟩ := h
  cases hcame with
  | alone =>
    refine .inl ⟨?_, rfl⟩
    rw [hmusic, openMusic, List.append_nil]
  | @within news outer tuplet _ heq hnews _ hmeasures =>
    have hall : RowsUpTo site stop (tuplet :: outer) := by
      rw [heq]
      refine hold.news fun x hx => ?_
      obtain ⟨hxkey, hempty, hposition⟩ := hnews x hx
      refine ⟨?_, hempty, hposition.trans hbegins⟩
      rw [Tuplet.site, hxkey, hmeasures x hx, ← hsite, ← hkey, ← hsite]
      rfl
    have hsome : (tuplet.append (.note n)).members ≠ [] := by simp [Tuplet.append]
    obtain ⟨hrow, hstop⟩ := (RowsUpTo.iff_within hsome).mp (hall.append_note hsite hbegins hadds)
    exact .inr ⟨_, hmusic, hrow, hstop⟩

/-- The end of a note that comes in is a position that fits. -/
theorem Alights.adds {a : Arrival} {n : Note} (h : Alights r s id a n) (hwords : r.InWords)
    (htime : a.isGrace = true → a.length = 0) : (r.onset a.key).Adds n.soundingWholeNotes := by
  rw [h.length]
  cases hgrace : a.isGrace with
  | true =>
    rw [htime hgrace]
    exact (hwords.onset a.key).adds_zero
  | false => exact WholeNotes.adds_iff.mpr (h.stop hgrace)

namespace Reading.InRows

/-- In a reading that knows nothing all tuplets are in rows. -/
theorem empty : ({} : Reading).InRows where
  rows h := nomatch h
  opened h := nomatch h

/-- No tuplet is open, and the music stays as it is. -/
theorem of_none (h : r.InRows) (hmusic : s.music = r.music) (hnone : s.passage.tuplets = []) :
    s.InRows := by
  refine ⟨fun ht => h.rows (hmusic ▸ ht), fun _ hkey => ?_⟩
  simp [Passage.tupletKey?, hnone] at hkey

/-- The music stays as it is, and so does the measure. -/
theorem of_quiet (h : r.InRows) (hquiet : Quiet r s)
    (hmeasure : s.passage.measureNumber = r.passage.measureNumber) : s.InRows := by
  have hmusic : s.music = r.music := congrArg View.music hquiet.view
  refine ⟨fun ht => h.rows (hmusic ▸ ht), fun hid hkey => ?_⟩
  rw [hmusic, hmeasure, hquiet.cursor]
  rcases hquiet.tuplets with hnone | hsame
  · simp [Passage.tupletKey?, hnone] at hkey
  · exact h.opened (hquiet.partId ▸ hid) (hsame ▸ hkey)

/-- The tuplets that are open where a note comes in are in rows up to where it begins. -/
theorem opened_upTo (h : r.InRows) {a : Arrival} {current : VoiceKey} {n : Note} {rests : List Note}
    {before after : List VoiceElement} {old new : List Tuplet} {starts : List Opening}
    (hplaced : Placed r s id a current)
    (hadmits : Admits r s id a.key n rests before after old new starts) :
    RowsUpTo ⟨a.key, r.passage.measureNumber⟩ (r.onset a.key) old := by
  cases old with
  | nil => trivial
  | cons t outer =>
    obtain ⟨hkey, hreached⟩ := hadmits.opened (List.cons_ne_nil t outer)
    obtain ⟨before', w, hmusic, hrow, hstop⟩ := h.opened hplaced.partId hkey
    obtain ⟨-, hsame⟩ := eq_of_concat_eq (hadmits.music.symm.trans hmusic)
    cases hsame
    refine (RowsUpTo.iff_within (hadmits.members t rfl)).mpr ⟨hrow, hstop.trans ?_⟩
    exact (max_eq_right hreached).symm

/-- **A note or rest** comes into its voice. -/
theorem of_alights (h : r.InRows) (hwords : r.InWords) {a : Arrival} {current : VoiceKey} {n : Note}
    (hplaced : Placed r s id a current) (halights : Alights r s id a n)
    (htime : a.isGrace = true → a.length = 0) : s.InRows := by
  obtain ⟨rests, before, after, old, new, starts, hadmits⟩ := halights.admits
  have hsite : n.site = ⟨a.key, r.passage.measureNumber⟩ :=
    congrArg₂ Site.mk halights.key halights.measure
  have hcomes := hadmits.rows (h.opened_upTo hplaced hadmits) hsite rfl halights.onset
    (halights.adds hwords htime)
  have hbefore : ∀ {t : Tuplet}, .tuplet t ∈ before ++ rests.map VoiceElement.note →
      .tuplet t ∈ r.music id a.key := by
    intro t ht
    rw [hadmits.music]
    rcases List.mem_append.mp ht with ht | ht
    · exact List.mem_append_left _ ht
    · obtain ⟨_, _, hnote⟩ := List.mem_map.mp ht
      exact nomatch hnote
  have hstands : s.cursor a.key = r.onset a.key + n.soundingWholeNotes := by
    rw [hplaced.cursor, halights.length]
    split
    · next hgrace => rw [htime hgrace]
    · rfl
  have hmeasure : s.passage.measureNumber = r.passage.measureNumber :=
    (congrArg Prod.fst halights.headway).trans (Passage.measureNumber_reachAll ..)
  constructor
  · intro id' k t ht
    by_cases hhere : (id', k) = (id, a.key)
    · cases hhere
      rcases hcomes with ⟨hmusic, -⟩ | ⟨w, hmusic, hrow, -⟩
      · rw [hmusic] at ht
        rcases List.mem_append.mp ht with ht | ht
        · exact h.rows (hbefore ht)
        · cases List.mem_singleton.mp ht
      · rw [hmusic] at ht
        rcases List.mem_append.mp ht with ht | ht
        · exact h.rows (hbefore ht)
        · cases List.mem_singleton.mp ht
          exact ⟨_, hrow⟩
    · rw [hplaced.others id' k hhere] at ht
      exact h.rows ht
  · intro id' k hid hkey
    obtain rfl : id' = id := Option.some.inj (hid.symm.trans hplaced.samePart)
    obtain rfl := hplaced.tuplets k hkey
    rw [hmeasure, hstands]
    rcases hcomes with ⟨-, hnew⟩ | ⟨w, hmusic, hrow, hstop⟩
    · have hnone := hadmits.kept.resolve_right (not_not_intro hnew)
      simp [Passage.tupletKey?, hnone] at hkey
    · exact ⟨_, w, hmusic, hrow, hstop⟩

/-- **A member of a chord** joins what stands last in its voice. -/
theorem of_absorbs (h : r.InRows) {content : NoteContent} {line : Nat} {current : VoiceKey}
    (hjoined : Joined r s id key content line current) (habsorbs : Absorbs r s id key) :
    s.InRows := by
  obtain ⟨n, hnkey, before, e, e', chordOpen, hbefore, hafter, hjoin⟩ := habsorbs.joins
  constructor
  · intro id' k t ht
    by_cases hhere : (id', k) = (id, key)
    · cases hhere
      rw [hafter] at ht
      rcases List.mem_append.mp ht with ht | ht
      · exact h.rows (hbefore ▸ List.mem_append_left _ ht)
      · obtain rfl := List.mem_singleton.mp ht
        obtain ⟨first, rfl, hfirst⟩ := VoiceElement.tuplet_of_join hjoin
        obtain ⟨measure, hrow⟩ := h.rows (hbefore ▸ List.mem_append_right _ List.mem_cons_self)
        exact ⟨measure, hrow.join hnkey hfirst⟩
    · rw [hjoined.others id' k hhere] at ht
      exact h.rows ht
  · intro id' k hid hkey
    obtain rfl : id' = id := Option.some.inj (hid.symm.trans hjoined.samePart)
    have hthere : r.passage.tupletKey? = some k := by
      rcases hjoined.tuplets with hnone | hsame
      · simp [Passage.tupletKey?, hnone] at hkey
      · exact hsame ▸ hkey
    obtain ⟨others, t, hmusic, hrow, hstop⟩ := h.opened hjoined.partId hthere
    have hmeasure : s.passage.measureNumber = r.passage.measureNumber :=
      congrArg Prod.fst habsorbs.headway
    rw [hjoined.cursor, hmeasure]
    by_cases hk : k = key
    · subst hk
      obtain ⟨rfl, rfl⟩ := eq_of_concat_eq (hbefore.symm.trans hmusic)
      unfold VoiceElement.join at hjoin
      obtain ⟨t', ht', rfl⟩ := of_map_eq_ok hjoin
      have hgrows := Tuplet.of_join ht'
      refine ⟨_, t', hafter, hrow.join hnkey ht', ?_⟩
      rw [Tuplet.stop, hgrows.position, hgrows.length, add_zero]
      exact hstop
    · rw [hjoined.others _ k fun heq => hk (congrArg Prod.snd heq)]
      exact ⟨others, t, hmusic, hrow, hstop⟩

/-- **Every deed** keeps the tuplets in rows, if none is open where a measure begins. -/
theorem of_does (h : r.InRows) (hwords : r.InWords) (hdoes : Does r s d)
    (hproper : ∀ input, d = .note input → input.Proper)
    (hbegins : d = .enterMeasure → r.passage.tuplets = [])
    (halone : ∀ id, d = .enterPart id → r.partId? = none) : s.InRows := by
  cases hdoes with
  | place _ placed _ _ _ alights =>
    obtain ⟨n, halights⟩ := alights
    exact h.of_alights hwords placed halights (hproper _ rfl).timeless
  | join _ joined _ _ _ absorbs => exact h.of_absorbs joined absorbs
  | forward placed _ _ _ alights =>
    obtain ⟨n, halights⟩ := alights
    exact h.of_alights hwords placed halights nofun
  | backup back => exact h.of_none back.music back.tuplets
  | enterMeasure begins =>
    exact h.of_none (congrArg View.music begins.view) (begins.tuplets.none (hbegins rfl))
  | leaveMeasure quiet none => exact h.of_none (congrArg View.music quiet.view) none
  | enterPart begins => exact h.of_none (begins.music (halone _ rfl)) (by rw [begins.passage])
  | leavePart ends => exact h.of_none ends.music ends.tuplets
  | nothing quiet headway => exact h.of_quiet quiet (congrArg Prod.fst headway)

end Reading.InRows

/-! ## Documents with their notes in measures -/

/-- A note is read inside of a measure, and a measure is entered outside of others. -/
def Move.keepsNotes (inside : Bool) : Move → Bool
  | enterMeasure _ => !inside
  | leaf e => inside || e.name != "note"
  | leaveMeasure _ | enterPart _ | leavePart _ | leavePartList _ => true

/-- The document has all notes inside of measures, and no measure inside of another one. -/
def Markup.Element.notesInMeasures (root : Element) : Bool :=
  throughout Move.keepsNotes false (movesOf root)

/-- Between measures no tuplet is open. -/
theorem Does.none_between {inside : Bool} {move : Move} (h : Does r s (move.deed settings r))
    (hkeeps : move.keepsNotes inside = true) (hnone : inside = false → r.passage.tuplets = [])
    (hout : move.opensMeasure inside = false) : s.passage.tuplets = [] := by
  cases move with
  | enterMeasure e => exact nomatch hout
  | leaveMeasure e =>
    cases h with
    | leaveMeasure _ none => exact none
  | enterPart e =>
    cases h with
    | enterPart begins => rw [begins.passage]
  | leavePart e =>
    cases h with
    | leavePart ends => exact ends.tuplets
  | leavePartList line =>
    cases h with
    | nothing quiet => exact quiet.tuplets.none (hnone hout)
  | leaf e =>
    obtain rfl : inside = false := hout
    have hname : e.name ≠ "note" := by simpa [Move.keepsNotes] using hkeeps
    have hother : ∀ input, (Move.leaf e).deed settings r ≠ .note input := by
      intro input hdeed
      obtain ⟨_, heq, hnote⟩ := Move.of_deed_note hdeed
      cases heq
      exact hname hnote
    generalize hdeed : (Move.leaf e).deed settings r = d at h hother
    cases h with
    | place | join => exact absurd rfl (hother _)
    | forward _ enters =>
      have hdepth : s.depth = 0 := by simpa using enters.depth
      exact List.length_eq_zero_iff.mp hdepth
    | backup back => exact back.tuplets
    | nothing quiet => exact quiet.tuplets.none (hnone rfl)
    | enterMeasure | leaveMeasure | enterPart | leavePart =>
      have hleaf : ((Move.leaf e).deed settings r).isBoundary = false := Move.isBoundary_deed rfl
      rw [hdeed] at hleaf
      cases hleaf

/-- **All moves** of a document that has its notes in measures keep its tuplets in rows. -/
theorem Reading.InRows.unfolds {inside : Bool} (h : r.InRows)
    (hnone : inside = false → r.passage.tuplets = []) (hunfolds : Unfolds settings r ms t)
    (hwords : ∀ m ∈ ms, m.before.InWords)
    (hkeeps : throughout Move.keepsNotes inside (ms.map Moment.move) = true) : t.InRows := by
  induction hunfolds generalizing inside with
  | nil => exact h
  | @cons m ms t _ hdoes halone _ ih =>
    rw [List.map_cons, throughout, Bool.and_eq_true] at hkeeps
    obtain ⟨hhere, hlater⟩ := hkeeps
    have hbegins : m.move.deed settings m.before = .enterMeasure → m.before.passage.tuplets = [] := by
      intro hdeed
      obtain ⟨e, hmove⟩ := Move.enterMeasure_of_deed hdeed
      rw [hmove] at hhere
      exact hnone ((Bool.not_eq_true' inside).mp hhere)
    refine ih ?_ (hdoes.none_between hhere hnone) (fun m' hm' =>
      hwords m' (List.mem_cons_of_mem _ hm')) hlater
    exact h.of_does (hwords m List.mem_cons_self) hdoes (fun _ => Move.proper_of_deed) hbegins halone

/-! ## Whole documents -/

/-- Every tuplet of a score is in a row at its voice, if its document has its notes in measures. -/
theorem Document.inRow_of_mem_tuplets {root : Element} {score : Score}
    (h : (Document.read settings root).score = .ok score) (hnotes : root.notesInMeasures = true)
    {part : Part} (hpart : part ∈ score.parts) {voice : Voice} (hvoice : voice ∈ part.voices)
    {u : Tuplet} (hu : u ∈ voice.tuplets) : ∃ measure, u.InRow ⟨voice.key, measure⟩ := by
  obtain ⟨last, hfollows, hunfolds, hcomplete, hmoves⟩ := Document.follows_unfolds h
  rw [Element.notesInMeasures, ← hmoves] at hnotes
  have hrows : last.InRows :=
    Reading.InRows.empty.unfolds (fun _ => rfl) hunfolds hfollows.inWords_before hnotes
  have hmusic : last.music part.id voice.key = voice.music := by
    rw [hcomplete.music hpart, Part.music, hcomplete.voice? hpart hvoice]
    rfl
  obtain ⟨e, he, hnode⟩ := List.mem_flatMap.mp hu
  cases e with
  | tuplet t =>
    obtain ⟨measure, hrow⟩ := hrows.rows (hmusic ▸ he)
    exact ⟨measure, hrow.node hnode⟩
  | _ => exact absurd hnode List.not_mem_nil

/-- The durations of members, added up one by one. -/
theorem soundingOfMembers_eq_sum (members : List TupletMember) :
    soundingOfMembers members = (members.map TupletMember.soundingWholeNotes).sum := by
  induction members with
  | nil => rfl
  | cons m members ih => rw [soundingOfMembers, ih, List.map_cons, List.sum_cons]

/-- **Tuplets are contiguous in time**, at any depth, in a score whose document has its notes in
measures. A tuplet has members, it begins where its first one does, and each of them begins where
those before it end. Its notes and the tuplets inside it are of its voice and its measure. -/
theorem Document.tuplets_contiguous {root : Element} {score : Score}
    (h : (Document.read settings root).score = .ok score) (hnotes : root.notesInMeasures = true) :
    ∀ part ∈ score.parts, ∀ voice ∈ part.voices, ∀ t ∈ voice.tuplets,
      t.key = voice.key ∧
      (∃ first later, t.members = first :: later ∧
        t.positionInMeasure = first.positionInMeasure) ∧
      (∀ before m after, t.members = before ++ m :: after →
        m.positionInMeasure =
          t.positionInMeasure + (before.map TupletMember.soundingWholeNotes).sum) ∧
      (∀ n ∈ t.notes, n.site = t.site) ∧ ∀ u ∈ t.nodes, u.site = t.site := by
  intro part hpart voice hvoice t ht
  obtain ⟨measure, hrow⟩ := inRow_of_mem_tuplets h hnotes hpart hvoice ht
  obtain ⟨hsite, hmembers, hmeets⟩ := Tuplet.inRow_iff.mp hrow
  have hbegins : ∀ before m after, t.members = before ++ m :: after →
      m.positionInMeasure =
        t.positionInMeasure + (before.map TupletMember.soundingWholeNotes).sum := by
    intro before m after heq
    rw [← soundingOfMembers_eq_sum]
    exact Row.begins (heq ▸ hmeets)
  refine ⟨congrArg Site.key hsite, ?_, hbegins, fun n hn => ?_, fun u hu => ?_⟩
  · obtain ⟨first, later, heq⟩ := List.exists_cons_of_ne_nil hmembers
    exact ⟨first, later, heq, ((hbegins [] first later heq).trans (add_zero _)).symm⟩
  · exact (hrow.site_note hn).trans hsite.symm
  · exact (Tuplet.inRow_iff.mp (hrow.node hu)).1.trans hsite.symm

/-- A tuplet begins with the measure and another one inside of it behind its first member, and the
members of each begin where those before them end. -/
theorem Document.tuplets_contiguous_nested : ∃ score, ∃ part ∈ score.parts,
    ∃ voice ∈ part.voices, (Document.read {} nestedTuplets).score = .ok score ∧
      nestedTuplets.notesInMeasures = true ∧
      voice.tuplets.map (fun t => (t.positionInMeasure,
        t.members.map TupletMember.positionInMeasure)) = [(0, [0, 1 / 2, 1]), (1 / 2, [1 / 2, 3 / 4])] ∧
      ∀ t ∈ voice.tuplets, ∀ before m after, t.members = before ++ m :: after →
        m.positionInMeasure =
          t.positionInMeasure + (before.map TupletMember.soundingWholeNotes).sum := by
  have hthere : hasVoice nestedTuplets "P" ⟨1, 1⟩ (fun voice =>
      voice.tuplets.map (fun t => (t.positionInMeasure,
        t.members.map TupletMember.positionInMeasure)) =
          [(0, [0, 1 / 2, 1]), (1 / 2, [1 / 2, 3 / 4])]) = true ∧
      nestedTuplets.notesInMeasures = true := by
    decide +kernel
  obtain ⟨score, part, hpart, voice, hvoice, hread, -, -, hpositions⟩ := exists_voice hthere.1
  refine ⟨score, part, hpart, voice, hvoice, hread, hthere.2, of_decide_eq_true hpositions,
    fun t ht => ?_⟩
  exact (Document.tuplets_contiguous hread hthere.2 part hpart voice hvoice t ht).2.2.1

end Partwise
