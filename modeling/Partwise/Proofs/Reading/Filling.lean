import Partwise.Proofs.Reading.Seals

/-!
# Reading · Filling: which voices owe a check

Every procedure that reads music is followed along its text: none of them puts anything before what
is sealed, and all are `Orderly` but for the voice that they give content to. Notes, whether they
are placed or join a chord, and movements forward fill their voice; nothing else fills any.

So it is known of every element what it means for the checks (`Reading.Bears.readLeaf`). Measures
end in an orderly way as well, and so do repeats at the end of a part. What remains are the checks
themselves, where a measure begins and where a part ends.
-/

namespace Partwise

open Markup

variable {α : Type} {key? : Option VoiceKey} {key : VoiceKey} {line : Nat} {settings : Settings}
  {e : Element}

/-! ## The cursor -/

/-- A voice that moves on is given content and owes a check. -/
theorem Fills.advance {duration : WholeNotes} :
    Fills key (Partwise.advance line key duration) :=
  after .voiceAt fun _ => after (.lift _) fun _ => after (.modifyVoice fun _ => .of_flatten rfl rfl)
    fun _ => touch fun _ => rfl

/-- A rest that is put at the end of a voice leaves what is sealed. -/
theorem Orderly.rest {duration : WholeNotes} : Orderly key? (Partwise.rest line key duration) :=
  look fun _ => changeVoice fun v => .append v rfl rfl

/-- A voice that is padded up to the position of the document is the only one that may owe a check
by it. -/
theorem Orderly.catchUp : Orderly (some key) (Partwise.catchUp line key) := by
  refine look fun _ => bind voiceAt fun _ => bind (lift _) fun gap => ?_
  split
  · exact bind rest fun _ => bind (lift _) fun _ => Fills.advance.orderly
  · exact pure _

/-- A movement back in time leaves what is sealed and gives content to no voice. -/
theorem Orderly.goBack {duration : WholeNotes} : Orderly key? (Partwise.goBack line duration) := by
  refine look fun r => bind (lift _) fun _ => bind (changePassage fun _ => rfl) fun _ =>
    look fun s => ?_
  extract_lets tellBefore
  have hbefore : ∀ reached, Orderly key? (tellBefore reached) := by
    intro reached
    unfold tellBefore
    split
    · exact bind (lift _) fun _ => lift _
    · exact pure _
  split
  · exact bind (pure _) hbefore
  · exact bind (lift _) fun _ => bind (modifyVoice fun _ => .of_flatten rfl rfl) fun _ =>
      bind (pure _) hbefore

/-- A movement forward gives content to its voice, which owes a check. -/
theorem Fills.goForward {duration : WholeNotes} :
    Fills key (Partwise.goForward line key duration) :=
  after .catchUp fun _ => after .rest fun _ => advance

/-! ## Tuplets -/

namespace Orderly

/-- A tuplet that opens is not in its voice yet, which is given nothing. -/
theorem openTuplet {position : WholeNotes} {start : TupletStart} :
    Orderly key? (Partwise.openTuplet line key position start) :=
  bind currentPart fun _ => look fun _ => bind (lift _) fun _ => changePassage fun _ => rfl

/-- A tuplet that closes comes behind what is sealed, and its voice owes no other check than before.
-/
theorem closeTuplet : Orderly key? (Partwise.closeTuplet line) := by
  refine look fun r => ?_
  split
  · exact throw _
  · refine bind (changePassage fun _ => rfl) fun _ => ?_
    split
    · exact lift _
    · refine bind (lift _) fun _ => ?_
      split
      · exact appendTo rfl rfl
      · exact changePassage fun _ => rfl

/-- Tuplets that close one after the other leave what is sealed. -/
theorem closeTuplets {count : Nat} : Orderly key? (Partwise.closeTuplets line count) :=
  forM (fun _ => closeTuplet) _

/-- All open tuplets close, and leave what is sealed. -/
theorem drainTuplets : Orderly key? (Partwise.drainTuplets line) := by
  refine look fun r => ?_
  dsimp only
  split
  · exact bind (lift _) fun _ => closeTuplets
  · exact pure _

/-- Music that breaks off leaves what is sealed and gives content to no voice. -/
theorem breakOff : Orderly key? (Partwise.breakOff line) :=
  bind drainTuplets fun _ => changePassage fun _ => rfl

/-! ## Notes -/

/-- A note takes waiting marks before any voice is given it. -/
theorem takePending {note : Note} : Orderly key? (Partwise.takePending settings note) := by
  refine look fun r => ?_
  dsimp only
  split
  · exact pure _
  · split
    · exact pure _
    · split
      · exact bind (lift _) fun _ => bind (changePassage fun _ => rfl) fun _ => pure _
      · exact bind (changePassage fun _ => rfl) fun _ => pure _

/-- A voice that sings learns something, and its content is as before. -/
theorem singNote {note : Note} {lyrics : List Element} :
    Orderly key? (Partwise.singNote settings key note lyrics) := by
  intro r sung s h
  unfold Partwise.singNote at h
  split at h
  · rw [h.pure.2]
    exact .refl r
  · obtain ⟨found, r₁, hlyrics, hrest₁⟩ := h.bind
    have hsame := hlyrics.mapM fun _ _ _ _ hread => hread.lift.2
    subst hsame
    obtain ⟨v, r₂, hvoice, hrest₂⟩ := hrest₁.bind
    obtain ⟨_, r₃, htold, hrest₃⟩ := hrest₂.bind
    have hquiet : r₃ = r₂ := htold.forM (P := (· = r₂)) rfl fun _ _ _ _ heq htell =>
      htell.tell.trans heq
    subst hquiet
    obtain ⟨_, r₄, hback, hpure⟩ := hrest₃.bind
    rw [hpure.pure.2]
    exact .writeBack hvoice hback (.sing v note found)

/-- A member of a chord joins what stands behind the seal of its voice. -/
theorem joinInVoice {note : Note} {chordOpen : Bool} :
    Orderly key? (Partwise.joinChord.joinInVoice key note chordOpen) := by
  intro r u s h
  obtain ⟨v, r₁, hvoice, hmatch⟩ := h.bind
  split at hmatch
  · next w hjoin => exact .writeBack hvoice hmatch (.joinChord hjoin)
  · exact absurd hmatch not_ends_throw

end Orderly

namespace Fills

/-- A note comes to its place, and the voice moves on. -/
theorem seat {note : Note} {isGrace : Bool} {stops : Nat} :
    Fills key (do
      match (← get).passage.tuplets with
      | [] => Partwise.appendTo line key (.note note)
      | tuplet :: outer =>
        Partwise.changePassage fun p => { p with tuplets := tuplet.append (.note note) :: outer }
      if isGrace then Partwise.changePassage fun p => p.touch key
      else Partwise.advance line key note.soundingWholeNotes
      Partwise.closeTuplets line stops) := by
  refine look fun r => ?_
  extract_lets stop move
  have hmove : ∀ u, Fills key (move u) := by
    intro u
    unfold move
    split
    · exact bind (touch fun _ => rfl) fun _ => .closeTuplets
    · exact bind advance fun _ => .closeTuplets
  split
  · exact after (.appendTo rfl rfl) hmove
  · exact after (.changePassage fun _ => rfl) hmove

/-- A note that is placed gives content to its voice, which owes a check. -/
theorem placeNote {input : NoteInput} : Fills input.key (Partwise.placeNote settings input) := by
  refine after .catchUp fun _ => after .voiceAt fun voice => look fun _ =>
    after (.forM (fun _ => .openTuplet) _) fun _ => look fun _ => ?_
  extract_lets _ _ note stop seated
  have hseat : ∀ note, Fills input.key (seated note) := fun _ => seat
  split
  · exact after (.pure _) hseat
  · exact after .takePending fun _ => after .singNote hseat

/-- A member of a chord joins the last note of its voice or of a tuplet, and the voice owes a check.
-/
theorem joinMember {note : Note} {stops : Nat} :
    Fills key (Partwise.joinMember line key stops note) := by
  have hstop : ∀ u : Unit, Fills key (do
      Partwise.changePassage fun p => { p with chord? := some key }.touch key
      Partwise.closeTuplets line stops) :=
    fun _ => bind (touch fun _ => rfl) fun _ => .closeTuplets
  refine after (.lift _) fun _ => look fun r => ?_
  dsimp only
  split
  · split
    · split
      · exact after (.changePassage fun _ => rfl) hstop
      · exact after (.throw _) hstop
    · exact after .joinInVoice hstop
  · exact after .joinInVoice hstop

/-- A member of a chord that was read gives content to its voice, which owes a check. -/
theorem joinChord {input : NoteInput} : Fills input.key (Partwise.joinChord settings input) := by
  rw [joinChord_eq]
  split
  · exact throw _
  · refine after .takePending fun note => after ?_ fun _ => joinMember
    unfold markMember
    split
    · exact .changeVoice fun v => .markSlurs v _ _
    · exact .pure _

/-- Whatever a note that was read demands, its voice is given content and owes a check. -/
theorem performNote {input : NoteInput} :
    Fills input.key (Partwise.performNote settings line input) := by
  refine after (.changePassage fun _ => rfl) fun _ => after (.lift _) fun _ => ?_
  split
  · exact joinChord
  · refine after (.changePassage fun _ => rfl) fun _ => look fun r => ?_
    dsimp only
    split
    · exact after .drainTuplets fun _ => placeNote
    · exact placeNote

end Fills

/-! ## Signs, directions and barlines -/

namespace Orderly

/-- A sign that is read from a child of an element gives content to no voice, if it leaves what is
sealed. -/
theorem changeByChild {e : Element} {name : String} {read : Element → Journaled α}
    {change : Part → α → Part} (hchange : ∀ (p : Part) (a : α), p.Abides (change p a)) :
    Orderly key? (Partwise.changeByChild e name read change) := by
  unfold Partwise.changeByChild
  split
  · exact bind (lift _) fun a => changePart fun p => hchange p a
  · exact pure _

/-- Divisions leave what is sealed and give content to no voice. -/
theorem readDivisions : Orderly key? (Partwise.readDivisions e) :=
  bind (lift _) fun _ => bind (changePart fun _ => .of_map rfl rfl fun _ => .of_flatten rfl rfl)
    fun _ => lift _

/-- Signs leave what is sealed and give content to no voice. -/
theorem readAttributes : Orderly key? (Partwise.readAttributes e) := by
  have hsigns : Orderly key? (Partwise.readSigns e) := by
    refine bind (changeByChild fun p key => .of_map rfl rfl fun v => .append v rfl rfl) fun _ =>
      bind (changeByChild fun p time => .of_map rfl rfl fun v => .append v rfl rfl) fun _ =>
      bind (changeByChild fun p _ => .of_map rfl (List.map_id p.voices).symm .refl) fun _ =>
      bind (forM (fun child => bind (lift _) fun clef => changePart fun p => ?_) _) fun _ =>
      forM (fun _ => lift _) _
    refine .of_map rfl rfl fun v => ?_
    split
    · exact .append v rfl rfl
    · exact .refl v
  rw [readAttributes_eq]
  split
  · exact bind readDivisions fun _ => hsigns
  · exact hsigns

/-- Directions leave what is sealed, and no check is owed for them. -/
theorem readDirection : Orderly key? (Partwise.readDirection settings e) :=
  look fun _ => look fun _ => bind (lift _) fun _ => bind (lift _) fun _ =>
    bind (changePassage fun _ => rfl) fun _ => forM (fun _ => appendTo rfl rfl) _

/-- Sounds leave what is sealed and give content to no voice. -/
theorem readSound : Orderly key? (Partwise.readSound e) := by
  unfold Partwise.readSound
  split
  · exact lift _
  · exact look fun _ => appendTo rfl rfl

/-- A change of all voices leaves what is sealed if it does so in each of them. -/
theorem changeVoices {f : Voice → Voice × Option Closing} (hf : ∀ v : Voice, v.Abides (f v).1) :
    Orderly key? (Partwise.changeVoices line f) := by
  refine bind currentPart fun part => bind (forM (fun voice => ?_) _) fun _ =>
    changePart fun _ => .mapVoices hf
  split
  · exact lift _
  · exact pure _

/-- Barlines move content about and leave what is sealed. -/
theorem readBarline : Orderly key? (Partwise.readBarline e) :=
  bind breakOff fun _ => look fun _ => bind (lift _) fun _ => bind (lift _) fun _ =>
    bind (discard voiceAt) fun _ => bind (changePassage fun _ => rfl) fun _ =>
    changeVoices fun v => .takeBarline v _ _ _

/-- Repeats that end with the part leave what is sealed. -/
theorem endRepeats : Orderly key? (Partwise.endRepeats line) := by
  refine look fun r => bind (changePassage fun _ => rfl) fun _ => bind currentPart fun part =>
    bind (changeVoices fun v => .endRepeats v _ _) fun _ => ?_
  split
  · exact lift _
  · exact pure _

/-! ## Boundaries and movements back -/

/-- Music that settles leaves what is sealed and gives content to no voice. -/
theorem settle : Orderly key? (Partwise.settle line) := by
  refine bind breakOff fun _ => look fun r => ?_
  dsimp only
  split
  · exact pure _
  · exact bind (changePassage fun _ => rfl) fun _ => lift _

/-- The end of a measure leaves what is sealed and gives content to no voice. -/
theorem leaveMeasure : Orderly key? (Partwise.leaveMeasure e) :=
  bind settle fun _ => look fun _ => forM (fun _ => lift _) _

/-- To read how far a movement in time goes leaves what is sealed and gives content to no voice. -/
theorem movement : Orderly key? (Partwise.movement settings e) :=
  bind breakOff fun _ => look fun _ => lift _

/-- What happens to the part list alone gives content to no voice. -/
theorem sameMusic {x : Step α} (hx : ∀ r a s, Ends x r a s → SameMusic r s) : Orderly key? x :=
  fun r a s h => .of_sameMusic (hx r a s h)

/-- A part that is declared has no voices, and those of other parts keep what is sealed. -/
theorem readScorePart : Orderly key? (Partwise.readScorePart e) := by
  intro r u s h
  rcases Declared.of_readScorePart h with hsame | ⟨t, part, hsame, hdeclared⟩
  · exact .of_sameMusic hsame
  · exact (Reading.Abides.of_sameMusic hsame).trans (.of_declared hdeclared)

/-- An element is read that gives content to no voice. -/
theorem readUnfilling (hnote : e.name ≠ "note") (hforward : e.name ≠ "forward") :
    Orderly key? (Partwise.readLeaf settings e) := by
  unfold Partwise.readLeaf
  split
  · exact sameMusic fun _ _ _ => .identify
  · exact sameMusic fun _ _ _ => .identify
  · exact sameMusic fun _ _ _ => .identify
  · exact sameMusic fun _ _ _ => .identify
  · exact sameMusic fun _ _ _ => .readPartGroup
  · exact readScorePart
  · exact readAttributes
  · next hname => exact absurd hname hnote
  · exact bind movement fun _ => goBack
  · next hname => exact absurd hname hforward
  · exact readBarline
  · exact readDirection
  · exact readSound
  · exact lift _
  · exact lift _
  · exact lift _
  · exact lift _

end Orderly

/-! ## Elements -/

/-- Other elements than notes and movements forward are heard in no voice. -/
theorem Deed.voice?_ofLeaf (r : Reading) (hnote : e.name ≠ "note") (hforward : e.name ≠ "forward") :
    (Deed.ofLeaf settings r e).voice? = none := by
  unfold Deed.ofLeaf
  split
  · next hname => exact absurd hname hnote
  · unfold Deed.ofBackup
    split <;> rfl
  · next hname => exact absurd hname hforward
  · rfl

/-- What follows on a deed: what is sealed stays, and of all voices only that of the deed was given
content. It owes a check. -/
structure Reading.Bears (d : Deed) (r s : Reading) : Prop where
  abides : r.Abides d.voice? s
  owed : ∀ key, d.voice? = some key → key ∈ s.passage.unchecked

namespace Reading.Bears

variable {d : Deed} {r s : Reading} {u : Unit}

/-- A deed that gives nothing is borne by an orderly step. -/
theorem of_orderly {x : Step Unit} (hx : Orderly none x) (h : Ends x r u s) (hd : d.voice? = none) :
    r.Bears d s := by
  refine ⟨hd ▸ hx _ _ _ h, fun key hkey => ?_⟩
  rw [hd] at hkey
  exact nomatch hkey

/-- A deed that gives content to its voice is borne by a step that fills that voice. -/
theorem of_fills {key : VoiceKey} {x : Step Unit} (hx : Fills key x) (h : Ends x r u s)
    (hd : d.voice? = some key) : r.Bears d s := by
  refine ⟨hd ▸ hx.orderly _ _ _ h, fun k hk => ?_⟩
  rw [hd] at hk
  exact Option.some.inj hk ▸ hx.owed _ _ _ h

/-- A deed is borne also if a step that gives nothing comes before it. -/
theorem after {t : Reading} (h : r.Abides none s) (h' : s.Bears d t) : r.Bears d t :=
  ⟨h.weaken.trans h'.abides, h'.owed⟩

/-- A note element fills the voice that it names, and means nothing else for the checks. -/
theorem readNote (h : Ends (Partwise.readNote settings e) r u s) :
    r.Bears (Deed.ofNote settings r e) s := by
  rw [readNote_eq] at h
  obtain ⟨_, _, hsurroundings, hrest⟩ := h.bind
  obtain ⟨rfl, rfl⟩ := hsurroundings.surroundings
  obtain ⟨input, r₁, hread, hperform⟩ := hrest.bind
  obtain ⟨hgives, rfl⟩ := hread.lift
  have hdeed : Deed.ofNote settings r₁ e = .note input := by
    rw [Deed.ofNote, hgives.result (NoteInput.steady _ e)]
  rw [hdeed]
  exact of_fills .performNote hperform rfl

/-- A movement forward fills the voice that it names, and means nothing else for the checks. -/
theorem readForward (hr : r.Sound) (h : Ends (Partwise.readForward settings e) r u s) :
    r.Bears (Deed.ofForward settings r e) s := by
  obtain ⟨duration, r₁, hmovement, hrest₁⟩ := h.bind
  obtain ⟨hcloses, -, -, hduration⟩ := Does.movement hr hmovement
  obtain ⟨_, _, hsurroundings, hrest₂⟩ := hrest₁.bind
  obtain ⟨rfl, rfl⟩ := hsurroundings.surroundings
  obtain ⟨_, _, hget, hrest₃⟩ := hrest₂.bind
  obtain ⟨rfl, rfl⟩ := hget.get
  obtain ⟨key, r₂, hread, hforward⟩ := hrest₃.bind
  obtain ⟨hgives, rfl⟩ := hread.lift
  rw [Surroundings.place_congr (s := r₂.surroundings settings) (t := r.surroundings settings) rfl
    hcloses.outline, hcloses.quiet.current] at hgives
  have hdeed : Deed.ofForward settings r e = .forward key duration e.line := by
    rw [Deed.ofForward, hduration, hgives.result (Surroundings.steady_place _ e _)]
  rw [hdeed]
  exact (of_fills .goForward hforward rfl).after (Orderly.movement _ _ _ hmovement)

/-- **An element** leaves what is sealed, and only the voice that it gives content to owes a check
for it. -/
theorem readLeaf (hr : r.Sound) (h : Ends (Partwise.readLeaf settings e) r u s) :
    r.Bears (Deed.ofLeaf settings r e) s := by
  by_cases hnote : e.name = "note"
  · simp only [Partwise.readLeaf, Deed.ofLeaf, hnote] at h ⊢
    exact readNote h
  · by_cases hforward : e.name = "forward"
    · simp only [Partwise.readLeaf, Deed.ofLeaf, hforward] at h ⊢
      exact readForward hr h
    · exact of_orderly (.readUnfilling hnote hforward) h (Deed.voice?_ofLeaf r hnote hforward)

end Reading.Bears

end Partwise
