import Partwise.Proofs.Music.View
import Partwise.Proofs.Reading.Decoders

/-!
# Music · Closing: tuplets that close are not heard

What open tuplets hold counts as music already. So nothing is heard when they close, whether they
are stopped by a mark (`Quiet.closeTuplets`) or drained before a boundary (`Closes.drainTuplets`,
`Closes.breakOff`), and after a boundary none is open. Nor does it matter to the decoders of what
comes next: their voices have begun before.
-/

namespace Partwise

variable {r s : Reading} {line : Nat} {u : Unit}

/-- The voice of open tuplets is that of the innermost. -/
theorem Passage.tupletKey?_cons {p : Passage} {t : Tuplet} {outer : List Tuplet}
    (h : p.tuplets = t :: outer) : p.tupletKey? = some t.key := by
  simp [tupletKey?, h, Tuplet.key]

/-- Open tuplets hold their notes for their voice. -/
theorem Passage.held_of_key {p : Passage} {key : VoiceKey} (h : ∀ t ∈ p.tuplets, t.key = key) :
    p.held key = openMusic p.tuplets := by
  unfold held
  cases htuplets : p.tuplets with
  | nil => simp [tupletKey?, htuplets, openMusic]
  | cons t outer =>
    rw [tupletKey?_cons htuplets, if_pos]
    rw [h t (by simp [htuplets])]

/-- Open tuplets hold nothing for other voices. -/
theorem Passage.held_of_ne {p : Passage} {key k : VoiceKey} (h : ∀ t ∈ p.tuplets, t.key = key)
    (hk : k ≠ key) : p.held k = [] := by
  unfold held
  cases htuplets : p.tuplets with
  | nil => simp [tupletKey?, htuplets]
  | cons t outer =>
    rw [tupletKey?_cons htuplets, if_neg]
    rw [h t (by simp [htuplets])]
    exact fun heq => hk (Option.some.inj heq).symm

/-- The outermost tuplet closes: what it held is in its voice now. -/
theorem Quiet.closeOutermost (hr : r.Sound) {t : Tuplet} {part : Part}
    (hpart : r.part? = some part) (htuplets : r.passage.tuplets = [t])
    (h : Becomes r s ((part.ensureVoice t.key).modifyVoice t.key fun v => v.append (.tuplet t))
      { r.passage with tuplets := [] }) : Quiet r s := by
  have hrefl := Becomes.refl hpart
  have hkey := Passage.tupletKey?_cons htuplets
  have hturns := (Part.Turns.ensureVoice part t.key).modifyVoice
    (f := fun v => v.append (.tuplet t)) fun _ hw => hw
  have hposition : (part.voiceOrNew t.key).positionInMeasure = part.cursor t.key :=
    (part.cursor_eq t.key).symm
  have hcursor : ∀ key, s.cursor key = r.cursor key := fun key => by
    rw [h.cursor, hrefl.cursor]
    by_cases hk : key = t.key
    · rw [hk, hturns.cursor_here]
      exact hposition
    · exact hturns.cursor key hk
  have hnone : ({ r.passage with tuplets := [] } : Passage).tupletKey? = none := rfl
  refine ⟨?_, h.sound hr hpart hturns.keyed ?_, h.closed, .inl ?_⟩
  · ext1
    · exact h.same_partId
    · funext id key
      refine h.music_same hpart hturns.id id fun _ => ?_
      rw [Passage.held, Passage.held, hkey, hnone, if_neg (by simp), List.append_nil]
      by_cases hk : key = t.key
      · rw [hk, hturns.music_here, if_pos rfl, htuplets, Voice.music_append, Part.music_eq]
        rfl
      · rw [hturns.music key hk, if_neg (fun heq => hk (Option.some.inj heq).symm),
          List.append_nil]
    · funext id key
      refine h.singing_same hpart hturns.id id fun _ => ?_
      by_cases hk : key = t.key
      · rw [hk, hturns.singing_here, Part.singing_eq]
        rfl
      · exact hturns.singing key hk
    · exact funext hcursor
    · change s.passage.position = r.passage.position
      rw [h.passage]
    · change s.passage.current = r.passage.current
      rw [h.passage]
  · intro key hsome
    rw [hnone] at hsome
    cases hsome
  · rw [h.passage]

/-- The innermost tuplet closes within another one, which holds it now. -/
theorem Quiet.closeInner (hr : r.Sound) {t next : Tuplet} {rest : List Tuplet}
    (htuplets : r.passage.tuplets = t :: next :: rest)
    (hs : s = { r with passage :=
      { r.passage with tuplets := next.append (.tuplet t) :: rest } }) : Quiet r s := by
  have hkey := Passage.tupletKey?_cons htuplets
  obtain ⟨hsame, _, hreached, hbegun⟩ := hr.tuplets t.key hkey
  have hnext : next.key = t.key := hsame next (by simp [htuplets])
  have hkey' : s.passage.tupletKey? = some t.key := by
    rw [← hnext]
    exact Passage.tupletKey?_cons (t := next.append (.tuplet t)) (by rw [hs])
  refine ⟨?_, ⟨?_, ?_, ?_⟩, ?_, .inr (hkey'.trans hkey.symm)⟩
  · subst hs
    ext1
    · rfl
    · funext id key
      have hheld : ({ r.passage with
          tuplets := next.append (.tuplet t) :: rest } : Passage).held key =
            r.passage.held key := by
        rw [Passage.held, Passage.held, hkey', hkey, htuplets]
        rfl
      simp only [Reading.view, Reading.music, hheld]
      rfl
    · rfl
    · rfl
    · rfl
    · rfl
  · rw [hs]
    exact hr.ids
  · rw [hs]
    exact hr.keyed
  · intro key hsome
    rw [hkey'] at hsome
    cases hsome
    subst hs
    refine ⟨?_, ?_, hreached, hbegun⟩
    · intro x hx
      rcases List.mem_cons.mp hx with rfl | hx
      · exact hnext
      · exact hsame x (by simp [htuplets, hx])
    · intro x hx
      cases hx
      simp [Tuplet.append]
  · intro hclosed
    rw [hs]
    exact hclosed

/-- A voice that changes and keeps its key is seen in the outline as before. -/
theorem Part.outline_modifyVoice (p : Part) {key : VoiceKey} {f : Voice → Voice}
    (hf : ∀ v, (f v).key = v.key) : (p.modifyVoice key f).outline = p.outline := by
  have hkeys : (p.modifyVoice key f).voices.map Voice.key = p.voices.map Voice.key := by
    simp only [modifyVoice, mapVoices, List.map_map]
    apply List.map_congr_left
    intro v _
    dsimp only [Function.comp_apply]
    split
    · exact hf v
    · rfl
  simp only [outline, hkeys]
  rfl

/-- What closes is not heard, and decoders see the part as they saw it. -/
structure Closes (r s : Reading) : Prop where
  quiet : Quiet r s
  outline : s.part?.map Part.outline = r.part?.map Part.outline

namespace Closes

variable {t : Reading}

theorem refl (hr : r.Sound) : Closes r r := ⟨Quiet.refl hr, rfl⟩

theorem trans (h : Closes r s) (h' : Closes s t) : Closes r t :=
  ⟨h.quiet.trans h'.quiet, h'.outline.trans h.outline⟩

/-- When the innermost tuplet closes, nothing else is heard, and one tuplet fewer is open. -/
theorem closeTuplet (hr : r.Sound) (h : Ends (Partwise.closeTuplet line) r u s) :
    Closes r s ∧ s.passage.tuplets.length + 1 = r.passage.tuplets.length := by
  obtain ⟨_, _, hget, hmatch⟩ := h.bind
  obtain ⟨rfl, rfl⟩ := hget.get
  split at hmatch
  · exact absurd hmatch not_ends_throw
  · next t outer htuplets =>
    have hholds := hr.tuplets t.key (Passage.tupletKey?_cons htuplets)
    obtain ⟨part, hpart, hbegun⟩ := hholds.begun
    obtain ⟨_, r₁, houter, hrest⟩ := hmatch.bind
    have hbecomes := (Becomes.refl hpart).changePassage houter
    have hne : t.members ≠ [] := hholds.members t (by simp [htuplets])
    rw [if_neg (by simpa using hne)] at hrest
    obtain ⟨_, r₂, htell, hclose⟩ := hrest.bind
    obtain ⟨_, hbecomes⟩ := hbecomes.lift htell
    cases outer with
    | nil =>
      have hclosed := hbecomes.appendTo hclose
      have hthere : part.ensureVoice t.key = part := if_pos hbegun
      have houtline : ((part.ensureVoice t.key).modifyVoice t.key fun v =>
          v.append (.tuplet t)).outline = part.outline := by
        rw [hthere]
        exact part.outline_modifyVoice fun _ => rfl
      refine ⟨⟨.closeOutermost hr hpart htuplets hclosed, ?_⟩, ?_⟩
      · rw [hclosed.part?, hpart]
        exact congrArg some houtline
      · rw [hclosed.passage, htuplets]
        rfl
    | cons next rest =>
      have hs := hclose.changePassage
      rw [htell.tell, houter.changePassage] at hs
      refine ⟨⟨.closeInner hr htuplets hs, ?_⟩, ?_⟩
      · rw [hs]
        rfl
      · rw [hs, htuplets]
        rfl

/-- Tuplets close one after the other. -/
theorem closeEach {γ : Type} (hr : r.Sound) {xs : List γ}
    (h : Ends (xs.forM fun _ => Partwise.closeTuplet line) r u s) :
    Closes r s ∧ s.passage.tuplets.length + xs.length = r.passage.tuplets.length := by
  induction xs generalizing r with
  | nil =>
    have hnil : Ends (Pure.pure ()) r u s := h
    rw [hnil.pure.2]
    exact ⟨refl hr, rfl⟩
  | cons x xs ih =>
    obtain ⟨_, r₁, hone, hrest⟩ := Ends.bind h
    obtain ⟨hcloses, hlength⟩ := closeTuplet hr hone
    obtain ⟨hcloses', hlength'⟩ := ih hcloses.quiet.sound hrest
    refine ⟨hcloses.trans hcloses', ?_⟩
    rw [List.length_cons]
    omega

/-- When all tuplets close, nothing else is heard, and none is open. -/
theorem drainTuplets (hr : r.Sound) (h : Ends (Partwise.drainTuplets line) r u s) :
    Closes r s ∧ s.passage.tuplets = [] := by
  obtain ⟨_, _, hget, hrest⟩ := h.bind
  obtain ⟨rfl, rfl⟩ := hget.get
  dsimp only at hrest
  split at hrest
  · obtain ⟨_, r₁, hfind, hclose⟩ := hrest.bind
    have hfound := hfind.find
    subst hfound
    obtain ⟨hcloses, hlength⟩ := closeEach hr hclose
    refine ⟨hcloses, List.length_eq_zero_iff.mp ?_⟩
    rw [List.length_range] at hlength
    omega
  · next hzero =>
    rw [hrest.pure.2]
    exact ⟨refl hr, List.length_eq_zero_iff.mp (by simpa using hzero)⟩

/-- When the music comes to a boundary, all tuplets close and nothing else is heard. -/
theorem breakOff (hr : r.Sound) (h : Ends (Partwise.breakOff line) r u s) :
    Closes r s ∧ s.passage.tuplets = [] := by
  obtain ⟨_, r₁, hdrain, hchord⟩ := h.bind
  obtain ⟨hcloses, hnone⟩ := drainTuplets hr hdrain
  have hbroken := hchord.changePassage
  refine ⟨hcloses.trans ⟨Quiet.changePassage hcloses.quiet.sound hchord rfl rfl rfl, ?_⟩, ?_⟩
  · rw [hbroken]
    rfl
  · rw [hbroken]
    exact hnone

end Closes

/-- That a number of tuplets close is not heard. -/
theorem Quiet.closeTuplets (hr : r.Sound) {count : Nat}
    (h : Ends (Partwise.closeTuplets line count) r u s) : Quiet r s :=
  (Closes.closeEach hr h).1.quiet

end Partwise
