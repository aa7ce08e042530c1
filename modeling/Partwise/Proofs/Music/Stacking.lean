import Mathlib.Logic.Function.Basic
import Partwise.Proofs.Music.Enclosing
import Partwise.Proofs.Music.Nesting

/-!
# Music · Stacking: tuplets nest as their marks do

The marks of a part tell its tuplets by a stack. Every mark that starts one pushes it, every mark
that stops one pops the innermost, and some things empty the stack: movements in time, barlines, the
ends of measures and parts, and notes that have nothing to do with the open tuplets. `TupletStack`
keeps such a stack along the moves of a document. It notes which tuplets start, and for every note
that is no member of a chord which of them are open when it joins.

`TupletStack.Agrees` says that the words of all voices are `Written` for what the stack says. It is
kept by every move (`TupletStack.Agrees.step`), and so along a whole document
(`TupletStack.Agrees.follows`).
-/

namespace Partwise

open Markup

variable {settings : Settings} {r s t : Reading} {m : Moment} {ms : List Moment} {id : String}

/-! ## The stack -/

/-- The tuplets of a part, as its moves tell of them. -/
structure TupletStack where
  /-- The voice of the open tuplets. -/
  key : VoiceKey := ⟨1, 1⟩
  /-- The open tuplets, the outermost first. A tuplet is known by its place among those of its
  voice, in the order in which they start. -/
  around : List Nat := []
  starts : VoiceKey → List Opening := fun _ => []
  /-- The notes of every voice with the tuplets that are open when they join. -/
  notes : VoiceKey → List Enclosed := fun _ => []

namespace TupletStack

/-- Nothing stays open. -/
def empty (n : TupletStack) : TupletStack := { n with around := [] }

/-- A tuplet starts. -/
def push (n : TupletStack) (o : Opening) : TupletStack :=
  { n with
    around := n.around ++ [(n.starts n.key).length]
    starts := Function.update n.starts n.key (n.starts n.key ++ [o]) }

/-- A note joins. -/
def join (n : TupletStack) (note : Sounding) : TupletStack :=
  { n with notes := Function.update n.notes n.key (n.notes n.key ++ [⟨note, n.around⟩]) }

/-- The innermost tuplets stop. -/
def pop (n : TupletStack) (stops : Nat) : TupletStack :=
  { n with around := n.around.take (n.around.length - stops) }

/-- What stays open for a note that is no member of a chord: nothing, if it has nothing to do with
tuplets or is of another voice. -/
def turn (n : TupletStack) (input : NoteInput) : TupletStack :=
  { (if input.belongsToTuplet ∧ n.key = input.key then n else n.empty) with key := input.key }

/-- A note that is no member of a chord is read. -/
def note (n : TupletStack) (input : NoteInput) : TupletStack :=
  ((input.openings.foldl push (n.turn input)).join input.arrival.sounding).pop input.tupletStops

end TupletStack

/-- The move reads a barline. -/
def Move.isBarline : Move → Bool
  | leaf e => e.name = "barline"
  | _ => false

namespace TupletStack

/-- What a moment of the part does to the stack. -/
def after (settings : Settings) (n : TupletStack) (m : Moment) : TupletStack :=
  match m.move.deed settings m.before with
  | .note input => if input.inChord then n.pop input.tupletStops else n.note input
  | .backup _ | .forward _ _ _ | .leaveMeasure | .leavePart => n.empty
  | .nothing => if m.move.isBarline then n.empty else n
  | .enterMeasure | .enterPart _ => n

end TupletStack

/-- The stack of a part after some moments, from where a given part is current. -/
def tupletStack (settings : Settings) (id : String) :
    Option String → TupletStack → List Moment → TupletStack
  | _, n, [] => n
  | part?, n, m :: ms =>
    tupletStack settings id ((m.move.deed settings m.before).partAfter part?)
      (if part? = some id then n.after settings m else n) ms

/-! ## What the stack says of one voice -/

namespace TupletStack

variable {n n' : TupletStack} {b b' : Bracketing}

/-- What the stack says of a voice. -/
def voice (n : TupletStack) (k : VoiceKey) : Bracketing where
  starts := n.starts k
  around := if k = n.key then n.around else []
  notes := n.notes k

/-- What is open around the voice of the stack is what the stack says. -/
theorem around_voice (n : TupletStack) : (n.voice n.key).around = n.around := if_pos rfl

/-- A stack with nothing open is empty already. -/
theorem empty_eq (h : n.around = []) : n.empty = n := by
  rw [empty, ← h]

/-- Nothing stays open in any voice. -/
theorem voice_empty (n : TupletStack) (k : VoiceKey) :
    n.empty.voice k = (n.voice k).pop (n.voice k).around.length := by
  have hempty : (n.empty.voice k).around = [] := ite_self []
  ext1
  · rfl
  · rw [hempty]
    simp [Bracketing.pop]
  · rfl

/-- The stack changes for the voice of the open tuplets alone. -/
structure Changes (n n' : TupletStack) (b : Bracketing) : Prop where
  key : n'.key = n.key
  here : n'.voice n.key = b
  others : ∀ k, k ≠ n.key → n'.voice k = n.voice k

namespace Changes

/-- A tuplet that opens comes to the stack and to its voice. -/
theorem push (n : TupletStack) (o : Opening) : n.Changes (n.push o) ((n.voice n.key).push o) := by
  refine ⟨rfl, ?_, fun k hk => ?_⟩
  · ext1 <;> simp [voice, TupletStack.push, Bracketing.push]
  · ext1 <;> simp [voice, TupletStack.push, hk]

/-- Tuplets that open come to the stack and to its voice. -/
theorem pushes (n : TupletStack) (starts : List Opening) :
    n.Changes (starts.foldl TupletStack.push n) (starts.foldl Bracketing.push (n.voice n.key)) := by
  induction starts generalizing n with
  | nil => exact ⟨rfl, rfl, fun _ _ => rfl⟩
  | cons o starts ih =>
    obtain ⟨hkey, hhere, hothers⟩ := Changes.push n o
    obtain ⟨hkey', hhere', hothers'⟩ := ih (n.push o)
    rw [hkey] at hhere' hothers'
    refine ⟨hkey'.trans hkey, ?_, fun k hk => (hothers' k hk).trans (hothers k hk)⟩
    rw [List.foldl_cons, List.foldl_cons, hhere', hhere]

/-- A visible note comes to the voice of the stack after any other change. -/
theorem join (h : n.Changes n' b) {note : Sounding} (hvisible : note.content.isInvisible = false) :
    n.Changes (n'.join note) (b.take note) := by
  obtain ⟨hkey, rfl, hothers⟩ := h
  refine ⟨hkey, ?_, fun k hk => ?_⟩
  · ext1 <;> simp [voice, TupletStack.join, Bracketing.take, Sounding.within, hvisible, hkey]
  · rw [← hothers k hk]
    ext1 <;> simp [voice, TupletStack.join, hkey, hk]

/-- Tuplets that close do so on the stack and in its voice. -/
theorem pop (h : n.Changes n' b) (stops : Nat) : n.Changes (n'.pop stops) (b.pop stops) := by
  obtain ⟨hkey, rfl, hothers⟩ := h
  refine ⟨hkey, ?_, fun k hk => ?_⟩
  · ext1 <;> simp [voice, TupletStack.pop, Bracketing.pop, hkey]
  · rw [← hothers k hk]
    ext1 <;> simp [voice, TupletStack.pop, hkey, hk]

/-- A note that is no member of a chord changes its own voice alone. -/
theorem note (n : TupletStack) {input : NoteInput}
    (hvisible : input.note.content.isInvisible = false) : (n.turn input).Changes (n.note input)
      (((input.openings.foldl Bracketing.push ((n.turn input).voice input.key)).take
        input.arrival.sounding).pop input.tupletStops) :=
  ((Changes.pushes (n.turn input) input.openings).join hvisible).pop input.tupletStops

end Changes

end TupletStack

/-- Padding is written as invisible rests. -/
theorem Reading.invisible_of_mem_padWord {key : VoiceKey} {line : Nat} {x : Bracket}
    (h : x ∈ r.padWord key line) :
    ∃ rest : Sounding, rest.content.isInvisible = true ∧ x = .sounds rest := by
  unfold padWord at h
  split at h
  · rw [List.mem_singleton] at h
    exact ⟨_, rfl, h⟩
  · exact nomatch h

/-- What is written of a voice once a note or rest has come in. -/
theorem Enters.written {kept stops : Nat} {a : Arrival} {starts : List Opening} {b : Bracketing}
    (h : Enters r s kept id a starts stops) (hb : Written (wordOf (r.music id a.key)) b)
    (hkept : b.around.length = kept) :
    Written (wordOf (s.music id a.key)) ((starts.foldl Bracketing.push b).take a.sounding) := by
  obtain ⟨w, hbefore, hafter⟩ := h.word
  rw [← hkept] at hbefore hafter
  rw [hafter]
  exact hb.enter hbefore fun x hx => r.invisible_of_mem_padWord hx

/-- A barline closes all tuplets. -/
theorem Move.tuplets_of_barline (hr : r.Sound) {move : Move} {u : Unit}
    (h : Ends (move.perform settings) r u s) (hbarline : move.isBarline = true) :
    s.passage.tuplets = [] := by
  obtain ⟨e, rfl, hname⟩ : ∃ e, move = .leaf e ∧ e.name = "barline" := by
    cases move with
    | leaf e => exact ⟨e, rfl, of_decide_eq_true hbarline⟩
    | _ => exact nomatch hbarline
  simp only [Move.perform, readLeaf, hname] at h
  obtain ⟨_, r₁, hbreak, hrest⟩ := h.bind
  obtain ⟨_, hnone⟩ := Closes.breakOff hr hbreak
  rw [← hnone]
  refine @Keeps.look _ _ .tuplets _ (fun _ => ?_) _ _ _ hrest
  exact .bind (.lift _) fun _ => .bind (.lift _) fun _ => .bind (.discard .voiceAt) fun _ =>
    .bind (.changePassage fun _ => rfl) fun _ => .changeVoices

/-- Only a measure is entered as a measure. -/
theorem Move.enterMeasure_of_deed {move : Move} (h : move.deed settings r = .enterMeasure) :
    ∃ e, move = .enterMeasure e := by
  cases move with
  | enterMeasure e => exact ⟨e, rfl⟩
  | leaf e =>
    have hother := Deed.ofLeaf_cases (P := fun d => d ≠ .enterMeasure) settings r e
      (fun _ _ heq => nomatch heq) (fun _ heq => nomatch heq) (fun _ _ _ heq => nomatch heq)
      (fun heq => nomatch heq)
    exact absurd h hother
  | enterPart | leavePart | leaveMeasure | leavePartList => exact nomatch h

/-- Barlines apart, what means nothing for the music leaves tuplets open. -/
theorem Move.tuplets_of_nothing (hr : r.Sound) {move : Move} {u : Unit}
    (h : Ends (move.perform settings) r u s) (hbarline : move.isBarline = false)
    (hdeed : move.deed settings r = .nothing) : s.passage.tuplets = r.passage.tuplets := by
  cases move with
  | enterPart | leavePart | enterMeasure | leaveMeasure => cases hdeed
  | leavePartList line => rw [(SameMusic.closeGroups h).passage]
  | leaf e =>
    have hleaf : Deed.ofLeaf settings r e = .nothing := hdeed
    have hread : Ends (readLeaf settings e) r u s := h
    have hnote : e.name ≠ "note" := by
      intro hname
      simp only [readLeaf, Deed.ofLeaf, hname] at hread hleaf
      obtain ⟨_, hsome, _⟩ := Does.readNote hr hread
      cases hsome.symm.trans hleaf
    have hbackup : e.name ≠ "backup" := by
      intro hname
      simp only [readLeaf, Deed.ofLeaf, hname] at hread hleaf
      obtain ⟨_, hsome, _⟩ := Does.readBackup hr hread
      cases hsome.symm.trans hleaf
    have hforward : e.name ≠ "forward" := by
      intro hname
      simp only [readLeaf, Deed.ofLeaf, hname] at hread hleaf
      obtain ⟨_, _, hsome, _⟩ := Does.readForward hr hread
      cases hsome.symm.trans hleaf
    by_cases hgroup : e.name = "part-group"
    · simp only [readLeaf, hgroup] at hread
      rw [(SameMusic.readPartGroup hread).passage]
    by_cases hpart : e.name = "score-part"
    · simp only [readLeaf, hpart] at hread
      rcases Declared.of_readScorePart hread with hsame | ⟨_, _, hsame, hdeclared⟩
      · rw [hsame.passage]
      · rw [hdeclared.passage, hsame.passage]
    · exact Keeps.tuplets_readLeaf hnote hbackup hforward (by simpa [isBarline] using hbarline)
        hgroup hpart _ _ _ hread

/-! ## One step -/

namespace TupletStack

variable {n : TupletStack}

/-- What was read of a part agrees with the stack. -/
structure Agrees (n : TupletStack) (r : Reading) (id : String) : Prop where
  written : ∀ k, Written (wordOf (r.music id k)) (n.voice k)
  depth : r.partId? = some id → r.depth = n.around.length
  key : r.partId? = some id → n.around ≠ [] → r.passage.tupletKey? = some n.key
  outside : r.partId? ≠ some id → n.around = []

namespace Agrees

/-- A stack that says as much as another in the words of all voices, and nothing is open. -/
theorem of_none (h : ∀ k, Written (wordOf (s.music id k)) (n.voice k)) (hnone : n.around = [])
    (htuplets : s.partId? = some id → s.depth = 0) : n.Agrees s id := by
  refine ⟨h, fun hid => ?_, fun _ hsome => absurd hnone hsome, fun _ => hnone⟩
  rw [htuplets hid, hnone, List.length_nil]

/-- Before anything is read, an empty stack says what there is. -/
theorem begin (id : String) : ({} : TupletStack).Agrees {} id := by
  refine of_none (fun k => ?_) rfl fun _ => rfl
  have hvoice : ({} : TupletStack).voice k = {} := by
    ext1
    · rfl
    · exact ite_self []
    · rfl
  rw [hvoice]
  exact .nil

/-- Nothing happens to the part and its tuplets. -/
theorem still (h : n.Agrees r id) (hmusic : ∀ k, s.music id k = r.music id k)
    (hpartId : s.partId? = r.partId?)
    (htuplets : r.partId? = some id → s.passage.tuplets = r.passage.tuplets) : n.Agrees s id := by
  refine ⟨fun k => ?_, fun hid => ?_, fun hid hsome => ?_, fun hid => h.outside (hpartId ▸ hid)⟩
  · rw [hmusic]
    exact h.written k
  · rw [hpartId] at hid
    rw [Reading.depth, htuplets hid]
    exact h.depth hid
  · rw [hpartId] at hid
    rw [Passage.tupletKey?, htuplets hid]
    exact h.key hid hsome

/-- The stack stays right about a part when music comes to another one. -/
theorem elsewhere (h : n.Agrees r id) {at' : String} {key : VoiceKey}
    (hat : r.partId? = some at') (hsame : s.partId? = some at')
    (hothers : ∀ id' k, (id', k) ≠ (at', key) → s.music id' k = r.music id' k)
    (hid : r.partId? ≠ some id) : n.Agrees s id := by
  have hne : id ≠ at' := fun heq => hid (heq ▸ hat)
  exact h.still (fun k => hothers id k fun heq => hne (congrArg Prod.fst heq))
    (hsame.trans hat.symm) fun hhere => absurd hhere hid

/-- The stack is right about a part in which nothing is open any more. -/
theorem emptied (h : n.Agrees r id) (hmusic : ∀ k, s.music id k = r.music id k)
    (hnone : s.passage.tuplets = []) : n.empty.Agrees s id := by
  refine of_none (fun k => ?_) rfl fun _ => by rw [Reading.depth, hnone]; rfl
  rw [hmusic, n.voice_empty]
  exact (h.written k).pop (Nat.le_refl _)

/-- At a boundary nothing stays open, whichever part is current. -/
theorem boundary (h : n.Agrees r id) (hmusic : ∀ k, s.music id k = r.music id k)
    (hnone : s.passage.tuplets = []) :
    (if r.partId? = some id then n.empty else n).Agrees s id := by
  have hemptied := h.emptied hmusic hnone
  split
  · exact hemptied
  · next hid => exact n.empty_eq (h.outside hid) ▸ hemptied

/-- What stays open for a note is what its reading keeps open. -/
theorem turn (h : n.Agrees r id) (hid : r.partId? = some id) (input : NoteInput) :
    (∀ k, Written (wordOf (r.music id k)) ((n.turn input).voice k)) ∧
      (n.turn input).around.length = input.kept r := by
  by_cases hgoesOn : input.belongsToTuplet ∧ n.key = input.key
  · have hturn : n.turn input = n := by rw [TupletStack.turn, if_pos hgoesOn, ← hgoesOn.2]
    rw [hturn]
    refine ⟨h.written, ?_⟩
    rw [NoteInput.kept, ← h.depth hid]
    by_cases hnone : n.around = []
    · have hdepth : r.depth = 0 := by rw [h.depth hid, hnone, List.length_nil]
      rw [hdepth, ite_self]
    · rw [if_pos ⟨hgoesOn.1, (h.key hid hnone).trans (congrArg some hgoesOn.2)⟩]
  · have haround : (n.turn input).around = [] := by rw [TupletStack.turn, if_neg hgoesOn]; rfl
    have hvoice : ∀ k, (n.turn input).voice k = n.empty.voice k := by
      intro k
      ext1
      · rw [TupletStack.turn, if_neg hgoesOn]
        rfl
      · rw [voice, haround, ite_self]
        exact (ite_self []).symm
      · rw [TupletStack.turn, if_neg hgoesOn]
        rfl
    refine ⟨fun k => ?_, ?_⟩
    · rw [hvoice, n.voice_empty]
      exact (h.written k).pop (Nat.le_refl _)
    · rw [haround, NoteInput.kept, List.length_nil]
      split
      · next hkept =>
        -- the reading keeps open what is open for this voice, so nothing was open
        by_contra hdepth
        have hsome : n.around ≠ [] := by
          rintro hnone
          exact hdepth (by rw [h.depth hid, hnone, List.length_nil])
        have hkey := (h.key hid hsome).symm.trans hkept.2
        exact hgoesOn ⟨hkept.1, Option.some.inj hkey⟩
      · rfl

/-- The stack stays right about a part when a note takes its place. -/
theorem place (h : n.Agrees r id) {input : NoteInput} {current : VoiceKey}
    (hvisible : input.note.content.isInvisible = false)
    (placed : Placed r s id input.arrival current)
    (enters : Enters r s (input.kept r) id input.arrival input.openings input.tupletStops) :
    (n.note input).Agrees s id := by
  obtain ⟨hwritten, hkept⟩ := h.turn placed.partId input
  obtain ⟨hkey, hhere, hothers⟩ := Changes.note n hvisible
  rw [show (n.turn input).key = input.key from rfl] at hkey hhere hothers
  have haround : ((n.turn input).voice input.key).around.length = input.kept r := by
    rw [← hkept, ← (n.turn input).around_voice]
    rfl
  have hpushed : ((input.openings.foldl Bracketing.push ((n.turn input).voice input.key)).take
      input.arrival.sounding).around.length = input.kept r + input.openings.length := by
    rw [← haround]
    exact Bracketing.length_around_pushes _ _
  have hdepth : s.depth = (n.note input).around.length := by
    have hstops := enters.depth
    rw [← (n.note input).around_voice, hkey, hhere, Bracketing.length_around_pop, hpushed]
    omega
  refine ⟨fun k => ?_, fun _ => hdepth, fun _ hsome => ?_, fun hid => absurd placed.samePart hid⟩
  · by_cases hk : k = input.key
    · rw [hk, hhere]
      refine (enters.written (hwritten input.key) haround).pop ?_
      rw [hpushed, ← enters.depth]
      exact Nat.le_add_left ..
    · rw [hothers k hk, placed.others id k fun heq => hk (congrArg Prod.snd heq)]
      exact hwritten k
  · have hopen : s.passage.tuplets ≠ [] := by
      rw [← List.length_pos_iff] at hsome ⊢
      exact Nat.lt_of_lt_of_eq hsome hdepth.symm
    obtain ⟨t, outer, htuplets⟩ := List.exists_cons_of_ne_nil hopen
    have htuplet := Passage.tupletKey?_cons htuplets
    rw [htuplet, hkey, placed.tuplets _ htuplet]
    rfl

/-- A member of a chord joins, and tuplets stop on it. -/
theorem join (h : n.Agrees r id) {key current : VoiceKey} {content : NoteContent} {line stops : Nat}
    (joined : Joined r s id key content line current) (hstops : s.depth + stops = r.depth) :
    (n.pop stops).Agrees s id := by
  have hdepth := h.depth joined.partId
  have hlength : (n.pop stops).around.length = n.around.length - stops := by
    simp [TupletStack.pop]
  obtain ⟨-, hhere, hothers⟩ := (⟨rfl, rfl, fun _ _ => rfl⟩ : n.Changes n _).pop stops
  have hword : ∀ k, wordOf (s.music id k) = wordOf (r.music id k) := by
    intro k
    by_cases hk : k = key
    · rw [hk, joined.word (h.written key).full]
    · rw [joined.others id k fun heq => hk (congrArg Prod.snd heq)]
  refine ⟨fun k => ?_, fun _ => ?_, fun _ hsome => ?_, fun hid => absurd joined.samePart hid⟩
  · rw [hword]
    by_cases hk : k = n.key
    · rw [hk, hhere]
      refine (h.written n.key).pop ?_
      rw [n.around_voice]
      omega
    · rw [hothers k hk]
      exact h.written k
  · omega
  · have hopen : n.around ≠ [] := by
      rintro hnone
      exact hsome (by simp [TupletStack.pop, hnone])
    rcases joined.tuplets with hnone | hsame
    · rw [← List.length_pos_iff, hlength, ← hdepth] at hsome
      rw [Reading.depth, hnone] at hstops
      simp at hstops
      omega
    · exact hsame.trans (h.key joined.partId hopen)

/-- A movement forward in time leaves nothing open. -/
theorem forward (h : n.Agrees r id) {key current : VoiceKey} {duration : WholeNotes} {line : Nat}
    (placed : Placed r s id (.skip key duration line) current)
    (enters : Enters r s 0 id (.skip key duration line) [] 0) : n.empty.Agrees s id := by
  have hwritten : ∀ k, Written (wordOf (r.music id k)) (n.empty.voice k) := by
    intro k
    rw [n.voice_empty]
    exact (h.written k).pop (Nat.le_refl _)
  have hnone : (n.empty.voice key).around = [] := ite_self []
  refine of_none (fun k => ?_) rfl fun _ => enters.depth
  by_cases hk : k = key
  · have hsilent : (n.empty.voice key).take (Arrival.skip key duration line).sounding =
        n.empty.voice key := by
      simp [Bracketing.take, Sounding.within, Arrival.sounding, Arrival.skip,
        NoteContent.isInvisible]
    have hentered := enters.written (hwritten key) (congrArg List.length hnone)
    rw [List.foldl_nil] at hentered
    rw [hk, ← hsilent]
    exact hentered
  · rw [placed.others id k fun heq => hk (congrArg Prod.snd heq)]
    exact hwritten k

/-- **What the stack says is what is read.** -/
theorem step (h : n.Agrees m.before id) (hsound : m.before.Sound)
    (hdoes : Does m.before m.after (m.move.deed settings m.before))
    (halone : ∀ id', m.move.deed settings m.before = .enterPart id' → m.before.partId? = none)
    (hstep : Ends (m.move.perform settings) m.before () m.after) :
    (if m.before.partId? = some id then n.after settings m else n).Agrees m.after id := by
  unfold TupletStack.after
  generalize hdeed : m.move.deed settings m.before = deed at hdoes halone ⊢
  cases hdoes with
  | @place input at' _ alone placed enters =>
    dsimp only
    split
    · next hid =>
      cases placed.partId.symm.trans hid
      rw [if_neg (by simp [alone])]
      exact h.place (Move.proper_of_deed hdeed).visible placed enters
    · next hid => exact h.elsewhere placed.partId placed.samePart placed.others hid
  | @join input at' _ member joined stops =>
    dsimp only
    split
    · next hid =>
      cases joined.partId.symm.trans hid
      exact h.join joined stops
    · next hid => exact h.elsewhere joined.partId joined.samePart joined.others hid
  | @forward key duration line at' placed enters =>
    dsimp only
    split
    · next hid =>
      cases placed.partId.symm.trans hid
      exact h.forward placed enters
    · next hid => exact h.elsewhere placed.partId placed.samePart placed.others hid
  | backup back => exact h.boundary (fun k => by rw [back.music]) back.tuplets
  | enterMeasure begins =>
    have hmusic : m.after.music = m.before.music := congrArg View.music begins.view
    have hpartId : m.after.partId? = m.before.partId? := congrArg View.partId? begins.view
    dsimp only
    rw [ite_self]
    refine h.still (fun k => by rw [hmusic]) hpartId fun _ => ?_
    obtain ⟨e, hmove⟩ := Move.enterMeasure_of_deed hdeed
    rw [hmove] at hstep
    exact Keeps.tuplets_enterMeasure _ _ _ hstep
  | leaveMeasure quiet hnone => exact h.boundary (quiet.music id) hnone
  | @enterPart id' begins =>
    have hnone := halone id' rfl
    have hopen : n.empty = n := n.empty_eq (h.outside (by simp [hnone]))
    rw [if_neg (by simp [hnone]), ← hopen]
    exact h.emptied (fun k => by rw [begins.music hnone]) (by rw [begins.passage])
  | leavePart ends => exact h.boundary (fun k => by rw [ends.music]) ends.tuplets
  | nothing quiet =>
    dsimp only
    by_cases hbarline : m.move.isBarline
    · rw [if_pos hbarline]
      exact h.boundary (quiet.music id) (Move.tuplets_of_barline hsound hstep hbarline)
    · rw [if_neg hbarline, ite_self]
      exact h.still (quiet.music id) quiet.partId fun _ =>
        Move.tuplets_of_nothing hsound hstep (by simpa using hbarline) hdeed

/-- What the stack of a document says is what was read. -/
theorem follows (h : n.Agrees r id) (hfollows : Follows settings r ms t)
    (hunfolds : Unfolds settings r ms t) :
    (tupletStack settings id r.partId? n ms).Agrees t id := by
  induction hfollows generalizing n with
  | nil r => exact h
  | cons hstep _ ih =>
    obtain ⟨hsound, hdoes, halone, hrest⟩ := hunfolds.of_cons
    have hnext := ih (h.step hsound hdoes halone hstep) hrest
    rwa [hdoes.partId] at hnext

end Agrees

end TupletStack

end Partwise
