import Partwise.Proofs.Music.Closing
import Partwise.Proofs.Reading.Deeds

/-!
# Music · Unheard: elements that bring no music

Attributes, directions, sounds, barlines, checks and the part list are read without being heard.
Barlines are the reason to look closely: they move the content of every voice about, and
`Voice.like_takeBarline` rests on the theory of repeats. The end of a part, where pending repeats
are closed and chunks are flushed, is no different (`Quiet.endRepeats`, `Quiet.flush`).
-/

namespace Partwise

open Markup

variable {r s : Reading} {line : Nat} {u : Unit}

/-! ## Voices -/

namespace Voice

/-- Signs, checks and directions are not heard. -/
theorem like_append (v : Voice) {e : VoiceElement} (he : timed e.flatten = []) :
    v.Like (v.append e) :=
  ⟨rfl, by rw [music_append, he, List.append_nil], rfl, rfl⟩

/-- A repeat that is closed leaves the voice where it stands and what it remembers. -/
theorem place_closeRepeat (v : Voice) (explicitStart : Bool) (measure : String) :
    (v.closeRepeat explicitStart measure).1.key = v.key ∧
      (v.closeRepeat explicitStart measure).1.positionInMeasure = v.positionInMeasure ∧
      (v.closeRepeat explicitStart measure).1.singing = v.singing := by
  unfold closeRepeat
  split <;> exact ⟨rfl, rfl, rfl⟩

/-- A barline is not heard. -/
theorem like_takeBarline (v : Voice) (b : Barline) (explicitStart : Bool) (measure : String) :
    v.Like (v.takeBarline b explicitStart measure).1 := by
  have hplace : (v.takeBarline b explicitStart measure).1.key = v.key ∧
      (v.takeBarline b explicitStart measure).1.positionInMeasure = v.positionInMeasure ∧
      (v.takeBarline b explicitStart measure).1.singing = v.singing := by
    unfold takeBarline
    split
    · exact ⟨rfl, rfl, rfl⟩
    · exact v.place_closeRepeat explicitStart measure
    · exact ⟨rfl, rfl, rfl⟩
    · dsimp only
      split
      · exact ⟨rfl, rfl, rfl⟩
      · exact place_closeRepeat _ explicitStart measure
    · exact place_closeRepeat _ explicitStart measure
    · dsimp only
      split
      · exact ⟨rfl, rfl, rfl⟩
      · exact place_closeRepeat _ explicitStart measure
  exact ⟨hplace.1, v.music_takeBarline b explicitStart measure, hplace.2.1, hplace.2.2⟩

/-- The end of a part is not heard. -/
theorem like_endRepeats (v : Voice) (explicitStart : Bool) (measure : String) :
    v.Like (v.endRepeats explicitStart measure).1 := by
  have hplace : (v.endRepeats explicitStart measure).1.key = v.key ∧
      (v.endRepeats explicitStart measure).1.positionInMeasure = v.positionInMeasure ∧
      (v.endRepeats explicitStart measure).1.singing = v.singing := by
    unfold endRepeats
    split
    · exact ⟨rfl, rfl, rfl⟩
    · split
      · exact place_closeRepeat _ explicitStart measure
      · exact place_closeRepeat _ explicitStart measure
  exact ⟨hplace.1, v.music_endRepeats explicitStart measure, hplace.2.1, hplace.2.2⟩

/-- A slur that starts or stops is not heard. -/
theorem still_markSlurs (v : Voice) (slurs : List Slur) (kind : LyricKind) :
    v.Still (v.markSlurs slurs kind) := by
  obtain ⟨_, _, hmarked⟩ := v.markSlurs_eq slurs kind
  rw [hmarked]
  exact ⟨rfl, rfl, rfl⟩

/-- A note that sings is the same note, and its voice is heard as before. -/
theorem still_sing (v : Voice) (n : Note) (lyrics : List Lyric) :
    v.Still (v.sing n lyrics).1 ∧ (v.sing n lyrics).2.imprint = n.imprint ∧
      (v.sing n lyrics).2.soundingWholeNotes = n.soundingWholeNotes := by
  obtain ⟨_, _, _, hsung⟩ := v.sing_eq n lyrics
  refine ⟨?_, rfl, rfl⟩
  rw [hsung]
  exact ⟨rfl, rfl, rfl⟩

end Voice

/-! ## Notes and what they take along -/

/-- The note is the same but for what it carries. -/
structure Note.Same (n n' : Note) : Prop where
  imprint : n'.imprint = n.imprint
  length : n'.soundingWholeNotes = n.soundingWholeNotes
  measure : n'.measureNumber = n.measureNumber

/-- A note takes its marks along, and only they are gone. -/
theorem Ends.takePending {settings : Settings} {n n' : Note}
    (h : Ends (Partwise.takePending settings n) r n' s) :
    n.Same n' ∧ ∃ pending, s = { r with passage := { r.passage with pending } } := by
  obtain ⟨_, _, hget, hrest⟩ := h.bind
  obtain ⟨rfl, rfl⟩ := hget.get
  dsimp only at hrest
  split at hrest
  · obtain ⟨rfl, rfl⟩ := hrest.pure
    exact ⟨⟨rfl, rfl, rfl⟩, _, rfl⟩
  · split at hrest
    · obtain ⟨rfl, rfl⟩ := hrest.pure
      exact ⟨⟨rfl, rfl, rfl⟩, _, rfl⟩
    · split at hrest
      · obtain ⟨_, r₁, hfind, htake⟩ := hrest.bind
        cases hfind.find
        obtain ⟨_, r₂, hpassage, hpure⟩ := htake.bind
        obtain ⟨rfl, rfl⟩ := hpure.pure
        exact ⟨⟨rfl, rfl, rfl⟩, _, hpassage.changePassage⟩
      · obtain ⟨_, r₂, hpassage, hpure⟩ := hrest.bind
        obtain ⟨rfl, rfl⟩ := hpure.pure
        exact ⟨⟨rfl, rfl, rfl⟩, _, hpassage.changePassage⟩

/-- Marks that no note took are dropped. -/
theorem Quiet.dropPending (hr : r.Sound) (h : Ends (Partwise.dropPending line) r u s) :
    Quiet r s ∧ s.passage.tuplets = r.passage.tuplets := by
  obtain ⟨_, _, hget, hrest⟩ := h.bind
  obtain ⟨rfl, rfl⟩ := hget.get
  dsimp only at hrest
  split at hrest
  · rw [hrest.pure.2]
    exact ⟨refl hr, rfl⟩
  · obtain ⟨_, r₁, hpassage, hfind⟩ := hrest.bind
    rw [hfind.find]
    refine ⟨changePassage hr hpassage rfl rfl rfl, ?_⟩
    rw [hpassage.changePassage]

/-! ## Attributes and directions -/

/-- A value from a child changes the part in nothing that is heard. -/
theorem Quiet.changeByChild (hr : r.Sound) {α : Type} {e : Element} {name : String}
    {read : Element → Journaled α} {change : Part → α → Part}
    (h : Ends (Partwise.changeByChild e name read change) r u s)
    (hchange : ∀ (p : Part) (a : α), p.Like (change p a)) : Quiet r s := by
  unfold Partwise.changeByChild at h
  split at h
  · obtain ⟨a, r₁, hread, hpart⟩ := h.bind
    have hquiet := lift hr hread
    exact hquiet.trans (changePart hquiet.sound hpart fun p => hchange p a)
  · rw [h.pure.2]
    exact refl hr

/-- New divisions are not heard. -/
theorem Quiet.readDivisions (hr : r.Sound) {e : Element}
    (h : Ends (Partwise.readDivisions e) r u s) : Quiet r s := by
  obtain ⟨perWhole, r₁, hread, hrest⟩ := h.bind
  have hquiet := lift hr hread
  obtain ⟨_, r₂, hpart, htell⟩ := hrest.bind
  rw [htell.tell]
  exact hquiet.trans (changePart hquiet.sound hpart fun _ =>
    Part.Like.of_map rfl rfl fun _ => ⟨rfl, rfl, rfl, rfl⟩)

/-- A clef is not heard. -/
theorem Part.like_withClef (p : Part) (clef : Clef) : p.Like (p.withClef clef) := by
  refine Like.of_map rfl rfl ?_
  intro v
  split
  · exact v.like_append rfl
  · exact Voice.Like.refl v

/-- Divisions, keys, times, staves and clefs are not heard. -/
theorem Quiet.readAttributes (hr : r.Sound) {e : Element}
    (h : Ends (Partwise.readAttributes e) r u s) : Quiet r s := by
  unfold Partwise.readAttributes at h
  extract_lets signs at h
  obtain ⟨r₁, hdivisions, hsigns⟩ : ∃ r₁, Quiet r r₁ ∧ Ends (signs ()) r₁ u s := by
    split at h
    · obtain ⟨_, r₁, hread, hsigns⟩ := h.bind
      exact ⟨r₁, readDivisions hr hread, hsigns⟩
    · exact ⟨r, refl hr, h⟩
  obtain ⟨_, r₂, hkey, hrest⟩ := hsigns.bind
  have hkeys := hdivisions.trans (changeByChild hdivisions.sound hkey fun _ key =>
    Part.Like.of_map rfl rfl fun v => v.like_append rfl)
  obtain ⟨_, r₃, htime, hrest⟩ := hrest.bind
  have htimes := hkeys.trans (changeByChild hkeys.sound htime fun _ time =>
    Part.Like.of_map rfl rfl fun v => v.like_append rfl)
  obtain ⟨_, r₄, hstaves, hrest⟩ := hrest.bind
  have hstaved := htimes.trans (changeByChild htimes.sound hstaves fun p _ =>
    Part.Like.of_map rfl (List.map_id p.voices).symm Voice.Like.refl)
  obtain ⟨_, r₅, hclefs, hskipped⟩ := hrest.bind
  have hall := hstaved.trans (forM hstaved.sound hclefs fun child _ _ _ hr' hrun => by
    obtain ⟨clef, _, hread, hpart⟩ := hrun.bind
    have hquiet := lift hr' hread
    exact hquiet.trans (changePart hquiet.sound hpart fun p => p.like_withClef clef))
  exact hall.trans (forM hall.sound hskipped fun _ _ _ _ hr' hrun => lift hr' hrun)

/-- A direction is not heard. -/
theorem Quiet.readDirection (hr : r.Sound) {settings : Settings} {e : Element}
    (h : Ends (Partwise.readDirection settings e) r u s) : Quiet r s := by
  obtain ⟨_, _, hget, hrest₁⟩ := h.bind
  obtain ⟨rfl, rfl⟩ := hget.get
  obtain ⟨_, _, hsurroundings, hrest₂⟩ := hrest₁.bind
  obtain ⟨rfl, rfl⟩ := hsurroundings.surroundings
  obtain ⟨key, r₂, hplace, hrest₃⟩ := hrest₂.bind
  have hplaced := lift hr hplace
  obtain ⟨content, r₃, hcontent, hrest₄⟩ := hrest₃.bind
  have hread := hplaced.trans (lift hplaced.sound hcontent)
  obtain ⟨_, r₄, hpassage, happend⟩ := hrest₄.bind
  have hpending := hread.trans (changePassage hread.sound hpassage rfl rfl rfl)
  exact hpending.trans (forM hpending.sound happend fun _ _ _ _ hr' hrun =>
    appendTo hr' hrun rfl)

/-- A sound between notes is not heard. -/
theorem Quiet.readSound (hr : r.Sound) {e : Element}
    (h : Ends (Partwise.readSound e) r u s) : Quiet r s := by
  unfold Partwise.readSound at h
  split at h
  · exact lift hr h
  · obtain ⟨_, _, hget, happend⟩ := h.bind
    obtain ⟨rfl, rfl⟩ := hget.get
    exact appendTo hr happend rfl

/-! ## Barlines and checks -/

/-- A change of all voices that is heard in none of them is not heard. -/
theorem Quiet.changeVoices (hr : r.Sound) {f : Voice → Voice × Option Closing}
    (h : Ends (Partwise.changeVoices line f) r u s) (hf : ∀ v : Voice, v.Like (f v).1) :
    Quiet r s := by
  obtain ⟨part, r₁, hcurrent, hrest⟩ := h.bind
  obtain ⟨_, rfl⟩ := hcurrent.currentPart
  obtain ⟨_, r₂, htold, hpart⟩ := hrest.bind
  have hquiet : Quiet r₁ r₂ := forM hr htold fun v _ _ _ hr' hrun => by
    split at hrun
    · exact lift hr' hrun
    · rw [hrun.pure.2]
      exact refl hr'
  exact hquiet.trans (changePart hquiet.sound hpart fun _ => Part.Like.mapVoices hf)

/-- A barline is not heard. -/
theorem Quiet.readBarline (hr : r.Sound) {e : Element}
    (h : Ends (Partwise.readBarline e) r u s) : Quiet r s := by
  obtain ⟨_, r₁, hbreak, hrest₁⟩ := h.bind
  have hbroken := (Closes.breakOff hr hbreak).1.quiet
  obtain ⟨_, _, hget, hrest₂⟩ := hrest₁.bind
  obtain ⟨rfl, rfl⟩ := hget.get
  obtain ⟨barline, r₂, hread, hrest₃⟩ := hrest₂.bind
  have hbarline := hbroken.trans (lift hbroken.sound hread)
  obtain ⟨_, r₃, htell, hrest₄⟩ := hrest₃.bind
  have htold := hbarline.trans (lift hbarline.sound htell)
  obtain ⟨_, r₄, hvoice, hrest₅⟩ := hrest₄.bind
  obtain ⟨_, hat⟩ := hvoice.discard
  have hbegun := htold.trans (voiceAt htold.sound hat)
  obtain ⟨_, r₅, hpassage, hvoices⟩ := hrest₅.bind
  have hmarked := hbegun.trans (changePassage hbegun.sound hpassage rfl rfl rfl)
  exact hmarked.trans (changeVoices hmarked.sound hvoices fun v => v.like_takeBarline ..)

/-- The checks of a measure are not heard. -/
theorem Quiet.checkBars (hr : r.Sound) {next? : Option String}
    (h : Ends (Partwise.checkBars line next?) r u s) : Quiet r s := by
  obtain ⟨_, _, hget, hrest⟩ := h.bind
  obtain ⟨rfl, rfl⟩ := hget.get
  obtain ⟨_, r₁, hpassage, happend⟩ := hrest.bind
  have hquiet := changePassage hr hpassage rfl rfl rfl
  exact hquiet.trans (forM hquiet.sound happend fun _ _ _ _ hr' hrun => appendTo hr' hrun rfl)

/-- What is open ends, and is not heard. -/
theorem Quiet.settle (hr : r.Sound) (h : Ends (Partwise.settle line) r u s) :
    Quiet r s ∧ s.passage.tuplets = [] := by
  obtain ⟨_, r₁, hbreak, hdrop⟩ := h.bind
  obtain ⟨⟨hbroken, _⟩, hnone⟩ := Closes.breakOff hr hbreak
  obtain ⟨hquiet, hsame⟩ := dropPending hbroken.sound hdrop
  exact ⟨hbroken.trans hquiet, hsame.trans hnone⟩

/-- The end of a measure is not heard. -/
theorem Quiet.leaveMeasure (hr : r.Sound) {e : Element}
    (h : Ends (Partwise.leaveMeasure e) r u s) : Quiet r s ∧ s.passage.tuplets = [] := by
  obtain ⟨_, r₁, hsettle, hrest⟩ := h.bind
  obtain ⟨hquiet, hnone⟩ := settle hr hsettle
  obtain ⟨_, _, hget, hfound⟩ := hrest.bind
  obtain ⟨rfl, rfl⟩ := hget.get
  have hsame : s = r₁ := hfound.forM (P := (· = r₁)) rfl fun _ _ _ _ heq hrun =>
    hrun.find.trans heq
  subst hsame
  exact ⟨hquiet, hnone⟩

end Partwise
