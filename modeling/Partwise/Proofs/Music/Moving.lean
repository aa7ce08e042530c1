import Partwise.Proofs.Music.Joining

/-!
# Music · Moving: back in time

A movement back in time is not heard. The document goes back, and of all voices only the current one
goes back with it, if it has begun: that is what `WentBack` states. So the current voice may come to
stand before the end of what it already holds.
-/

namespace Partwise

open Markup

variable {r s t : Reading} {part : Part} {key : VoiceKey} {v : Voice} {line : Nat} {u : Unit}
  {duration : WholeNotes} {settings : Settings}

/-- The voice is put to another position. -/
def Voice.movedTo (v : Voice) (position : WholeNotes) : Voice :=
  { v with positionInMeasure := position }

/-- A part of which one voice is put to another position. -/
theorem Part.of_movedTo (hvoice : part.voice? key = some v) (position : WholeNotes) :
    part.Turns (part.modifyVoice key (Voice.movedTo · position)) key (v.movedTo position) := by
  have hturns := Turns.ensureVoice part key
  have hthere : part.ensureVoice key = part := if_pos (by simp [hvoice])
  have hself : part.voiceOrNew key = v := by simp [Part.voiceOrNew, hvoice]
  rw [hthere, hself] at hturns
  exact hturns.modifyVoice fun _ hw => hw

/-- The current voice, if it has begun. -/
def Reading.currentVoice? (r : Reading) : Option Voice :=
  r.part?.bind fun part => part.voice? r.passage.current

/-- The current voice has begun after tuplets closed if it had before. -/
theorem Closes.currentVoice (h : Closes r s) :
    s.currentVoice?.isSome = r.currentVoice?.isSome := by
  have houtline := h.outline
  unfold Reading.currentVoice?
  rw [h.quiet.current]
  rcases hs : s.part? with _ | p <;> rcases hr : r.part? with _ | q <;> rw [hs, hr] at houtline
  · exact nomatch houtline
  · exact nomatch houtline
  · rw [Option.bind_some, Option.bind_some, p.isSome_voice?, q.isSome_voice?,
      Option.some.inj houtline]

/-- The document goes back, and so does the current voice, if it has begun; nothing is heard. -/
structure WentBack (r s : Reading) (duration : WholeNotes) : Prop where
  partId : s.partId? = r.partId?
  music : s.music = r.music
  singing : s.singing = r.singing
  /-- The current voice goes back, or it has not begun and stands at the start. -/
  cursor : r.currentVoice?.isSome = true ∧
      s.cursor r.passage.current = r.cursor r.passage.current - duration ∨
    r.currentVoice?.isSome = false ∧ s.cursor r.passage.current = 0 ∧
      r.cursor r.passage.current = 0 ∧ ∀ id, r.partId? = some id → r.music id r.passage.current = []
  cursors : ∀ k, k ≠ r.passage.current → s.cursor k = r.cursor k
  position : s.passage.position = r.passage.position - duration
  current : s.passage.current = r.passage.current
  tuplets : s.passage.tuplets = []
  sound : s.Sound
  closed : r.Closed → s.Closed

namespace WentBack

/-- A movement back in time goes as far when tuplets close before it. -/
theorem after_closes (hcloses : Closes r s) (h : WentBack s t duration) : WentBack r t duration := by
  have hquiet := hcloses.quiet
  have hmusic : s.music = r.music := congrArg View.music hquiet.view
  obtain ⟨hpartId, hsilent, hsinging, hcursor, hcursors, hposition, hcurrent, htuplets, hsound, hclosed⟩ := h
  rw [hquiet.current, hquiet.cursor, hmusic, hquiet.partId, hcloses.currentVoice] at hcursor
  rw [hquiet.current] at hcurrent hcursors
  rw [hquiet.position] at hposition
  exact ⟨hpartId.trans hquiet.partId, hsilent.trans hmusic, hsinging.trans hquiet.singing, hcursor,
    fun k hk => (hcursors k hk).trans (hquiet.cursor k), hposition, hcurrent, htuplets, hsound,
    fun hr => hclosed (hquiet.closed hr)⟩

/-- The document goes back while the current voice has not begun. -/
theorem of_absent (hr : r.Sound) (hnone : r.passage.tuplets = []) {position : WholeNotes}
    (hposition : position = r.passage.position - duration)
    (habsent : r.currentVoice? = none)
    (hs : s = { r with passage := { r.passage with position } }) : WentBack r s duration := by
  unfold Reading.currentVoice? at habsent
  have hnotBegun : r.currentVoice?.isSome = false := by simp [Reading.currentVoice?, habsent]
  have hstart : r.cursor r.passage.current = 0 := by
    unfold Reading.cursor
    cases hpart : r.part? with
    | none => rfl
    | some part =>
      rw [hpart] at habsent
      exact congrArg (fun v? => Option.elim v? 0 Voice.positionInMeasure) habsent
  have hsilent : ∀ id, r.partId? = some id → r.music id r.passage.current = [] := by
    intro id hid
    have hheld : r.passage.held r.passage.current = [] := by
      simp [Passage.held, Passage.tupletKey?, hnone]
    rw [Reading.part?_eq, hid, Option.bind_some] at habsent
    rw [Reading.music, hheld, ite_self, List.append_nil]
    cases hpart : r.partOf id with
    | none => rfl
    | some part =>
      rw [hpart] at habsent
      exact congrArg (fun v? => Option.elim v? [] Voice.music) habsent
  subst hs
  refine ⟨rfl, ?_, rfl, .inr ⟨hnotBegun, hstart, hstart, hsilent⟩, fun _ _ => rfl, hposition, rfl, hnone,
    ⟨hr.ids, hr.keyed, ?_⟩, fun hclosed => hclosed⟩
  · funext id key
    simp [Reading.music, Reading.partOf, Passage.held, Passage.tupletKey?, hnone]
  · intro key hkey
    simp [Passage.tupletKey?, hnone] at hkey

/-- The document goes back and the current voice with it. -/
theorem of_becomes (hr : r.Sound) (hnone : r.passage.tuplets = []) (hpart : r.part? = some part)
    (hvoice : part.voice? r.passage.current = some v) {q : Passage} {moved : WholeNotes}
    (hmoved : moved = v.positionInMeasure - duration)
    (h : Becomes r s (part.modifyVoice r.passage.current (Voice.movedTo · moved)) q)
    (hposition : q.position = r.passage.position - duration)
    (hcurrent : q.current = r.passage.current) (htuplets : q.tuplets = []) :
    WentBack r s duration := by
  have hrefl := Becomes.refl hpart
  have hturns := Part.of_movedTo hvoice moved
  have hkey : q.tupletKey? = none := by simp [Passage.tupletKey?, htuplets]
  have hheld : ∀ k, q.held k = r.passage.held k := fun k => by
    simp [Passage.held, Passage.tupletKey?, htuplets, hnone]
  have hhere : part.music r.passage.current = v.music := by simp [Part.music, hvoice]
  have hstood : part.cursor r.passage.current = v.positionInMeasure := by
    simp [Part.cursor, hvoice]
  refine ⟨h.same_partId, ?_, ?_, .inl ⟨by simp [Reading.currentVoice?, hpart, hvoice], ?_⟩, ?_,
    by rw [h.passage, hposition], by rw [h.passage, hcurrent], by rw [h.passage, htuplets],
    h.sound hr hpart hturns.keyed ?_, h.closed⟩
  · funext id k
    refine h.music_same hpart hturns.id id fun _ => ?_
    rw [hheld]
    by_cases hk : k = r.passage.current
    · rw [hk, hturns.music_here, hhere]
      rfl
    · rw [hturns.music k hk]
  · funext id k
    refine h.singing_same hpart hturns.id id fun _ => ?_
    by_cases hk : k = r.passage.current
    · rw [hk, hturns.singing_here, Part.singing, hvoice]
      rfl
    · exact hturns.singing k hk
  · rw [h.cursor, hturns.cursor_here, hrefl.cursor, hstood, ← hmoved]
    rfl
  · intro k hk
    rw [h.cursor, hturns.cursor k hk, hrefl.cursor]
  · intro k hk
    rw [hkey] at hk
    cases hk

/-- What goes back in time goes back by its duration. -/
theorem goBack (hr : r.Sound) (hnone : r.passage.tuplets = [])
    (h : Ends (Partwise.goBack line duration) r u s) : WentBack r s duration := by
  unfold Partwise.goBack at h
  obtain ⟨_, _, hget, hrest₁⟩ := h.bind
  obtain ⟨rfl, rfl⟩ := hget.get
  extract_lets passage finish at hrest₁
  have hfinish : ∀ {reached : WholeNotes} {r₁ : Reading}, Ends (finish reached) r₁ u s → s = r₁ := by
    intro reached r₁ hrun
    dsimp only [finish] at hrun
    split at hrun
    · obtain ⟨_, r₂, hdemand, hfind⟩ := hrun.bind
      rw [hfind.find, hdemand.lift.2]
    · exact hrun.pure.2
  obtain ⟨position, r₁, hearlier, hrest₂⟩ := hrest₁.bind
  obtain ⟨hgives, rfl⟩ := hearlier.lift
  have hposition := gives_earlier hgives
  obtain ⟨_, r₂, hpassage, hrest₃⟩ := hrest₂.bind
  have hr₂ := hpassage.changePassage
  obtain ⟨_, _, hget', hmatch⟩ := hrest₃.bind
  obtain ⟨rfl, rfl⟩ := hget'.get
  have hpart? : r₂.part? = r₁.part? := by
    rw [hr₂]
    rfl
  rw [hpart?] at hmatch
  split at hmatch
  · next habsent =>
    obtain ⟨_, _, hpure, hrun⟩ := hmatch.bind
    obtain ⟨rfl, rfl⟩ := hpure.pure
    rw [hfinish hrun]
    exact of_absent hr hnone hposition habsent hr₂
  · next v hfound =>
    obtain ⟨part, hpart, hvoice⟩ := Option.bind_eq_some_iff.mp hfound
    obtain ⟨moved, r₃, hmove, hrest₄⟩ := hmatch.bind
    obtain ⟨hgives', rfl⟩ := hmove.lift
    obtain ⟨_, r₄, hchange, hrest₅⟩ := hrest₄.bind
    obtain ⟨_, _, hpure, hrun⟩ := hrest₅.bind
    obtain ⟨rfl, rfl⟩ := hpure.pure
    rw [hfinish hrun]
    have hbecomes := ((Becomes.refl hpart).changePassage hpassage).changePart hchange rfl
    exact of_becomes hr hnone hpart hvoice (gives_earlier hgives') hbecomes hposition rfl hnone

end WentBack

end Partwise
