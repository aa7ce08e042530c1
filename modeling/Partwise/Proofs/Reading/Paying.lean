import Partwise.Proofs.Reading.Filling

/-!
# Reading · Paying: every check that is owed is put once

Where a measure begins and where a part ends, each voice of the part that is being read gets the
check that it owes. The voices that owe one stand in ascending order, so none of them gets two
(`Pays.checkBars`). What comes before and after the checks at such a boundary is orderly: tuplets
that close, repeats that end and voices that go back to the start leave what is sealed.
-/

namespace Partwise

open Markup

variable {r s t : Reading} {line : Nat} {u : Unit} {next? : Option String} {key k : VoiceKey}
  {id : String}

/-! ## Checks that are put -/

/-- What takes time in a voice of a part, and the checks among it. -/
def Reading.checked (r : Reading) (id : String) (key : VoiceKey) : List VoiceElement :=
  (r.partOf id).elim [] (·.checked key)

/-- What is sealed ends with the last check. -/
theorem Reading.sealed_eq (r : Reading) (id : String) (key : VoiceKey) :
    r.sealed id key = (r.checked id key).rdropWhile VoiceElement.isTimed := by
  rw [Reading.sealed, Reading.checked]
  cases r.partOf id <;> rfl

/-- A voice of a part gets a check. -/
theorem Part.checked_append (p : Part) (key k : VoiceKey) :
    ((p.ensureVoice key).modifyVoice key (·.append (.barCheck next?))).checked k =
      p.checked k ++ if k = key then [.barCheck next?] else [] := by
  have hvoice : ((p.ensureVoice key).modifyVoice key (·.append (.barCheck next?))).voice? k =
      if k = key then ((p.ensureVoice key).voice? k).map (·.append (.barCheck next?))
      else (p.ensureVoice key).voice? k :=
    voice?_modifyVoice fun _ h => h
  rw [← p.checked_ensureVoice key k, checked, checked, hvoice]
  split
  · next hk =>
    rw [hk, voice?_ensureVoice, if_pos rfl, Option.map_some, Option.elim_some, Option.elim_some,
      Voice.flatten_append, Partwise.checked_append]
    rfl
  · rw [List.append_nil]

/-- Some voices of the part that is being read get a check, each once. -/
structure Checks (keys : List VoiceKey) (next? : Option String) (r s : Reading) : Prop where
  partId : s.partId? = r.partId?
  passage : s.passage = r.passage
  checked : ∀ id key, s.checked id key =
    r.checked id key ++ if r.partId? = some id ∧ key ∈ keys then [.barCheck next?] else []

namespace Checks

/-- A voice of the part that is being read gets a check, and no other does. -/
theorem appendTo (h : Ends (Partwise.appendTo line key (.barCheck next?)) r u s) :
    Checks [key] next? r s := by
  obtain ⟨_, _, hvoice, _⟩ := Ends.bind h
  obtain ⟨_, hat⟩ := hvoice.discard
  obtain ⟨part, _, hcurrent, _⟩ := hat.bind
  have hpart := hcurrent.currentPart.1
  have hbefore := Becomes.refl hpart
  have hafter := hbefore.appendTo h
  have hid : ((part.ensureVoice key).modifyVoice key (·.append (.barCheck next?))).id = part.id :=
    Part.id_ensureVoice
  refine ⟨hafter.same_partId, hafter.passage, fun id k => ?_⟩
  have hhere := hafter.here
  rw [hid] at hhere
  rw [Reading.checked, Reading.checked]
  by_cases hcurrent : id = part.id
  · subst hcurrent
    rw [hbefore.here, hhere]
    simp only [hbefore.partId, true_and, List.mem_singleton]
    exact part.checked_append key k
  · rw [hafter.others id (by rwa [hid]), if_neg, List.append_nil]
    rintro ⟨heq, -⟩
    exact hcurrent (Option.some.inj (heq.symm.trans hbefore.partId))

/-- Several voices get one, one after the other. -/
theorem forM {keys : List VoiceKey} (hkeys : keys.Nodup)
    (h : Ends (keys.forM fun key => Partwise.appendTo line key (.barCheck next?)) r u s) :
    Checks keys next? r s := by
  induction keys generalizing r with
  | nil =>
    have hnil : Ends (Pure.pure ()) r u s := h
    rw [hnil.pure.2]
    exact ⟨rfl, rfl, by simp⟩
  | cons key keys ih =>
    obtain ⟨hnew, hkeys⟩ := List.nodup_cons.mp hkeys
    obtain ⟨_, r₁, hfirst, hrest⟩ := Ends.bind h
    have hone := appendTo hfirst
    have hothers := ih hkeys hrest
    refine ⟨hothers.partId.trans hone.partId, hothers.passage.trans hone.passage, fun id k => ?_⟩
    rw [hothers.checked, hone.checked, hone.partId, List.append_assoc]
    by_cases hid : r.partId? = some id
    · by_cases hk : k = key
      · simp [hid, hk, hnew]
      · simp [hid, hk]
    · simp [hid]

end Checks

/-! ## Boundaries -/

/-- Every voice of the part that is being read that owes a check gets it, and none owes one any
more. Otherwise what is sealed stays. -/
structure Pays (next? : Option String) (r s : Reading) : Prop where
  sealed : ∀ id key, s.sealed id key =
    if r.partId? = some id ∧ key ∈ r.passage.unchecked then r.checked id key ++ [.barCheck next?]
    else r.sealed id key
  unchecked : s.passage.unchecked = []

namespace Pays

/-- Checks that were paid are so after an orderly step as well. -/
theorem andThen (h : Pays next? r s) (h' : s.Abides none t) : Pays next? r t := by
  refine ⟨fun id key => (h'.sealed id key).trans (h.sealed id key), ?_⟩
  refine List.eq_nil_iff_forall_not_mem.mpr fun k hk => ?_
  rcases h'.only k hk with hk | hk
  · rw [h.unchecked] at hk
    exact nomatch hk
  · exact nomatch hk

theorem checkBars (hr : Ascending r.passage.unchecked)
    (h : Ends (Partwise.checkBars line next?) r u s) : Pays next? r s := by
  obtain ⟨_, _, hget, hrest⟩ := h.bind
  obtain ⟨rfl, rfl⟩ := hget.get
  obtain ⟨_, r₁, hpassage, happend⟩ := hrest.bind
  rw [hpassage.changePassage] at happend
  have hchecks := Checks.forM hr.nodup happend
  refine ⟨fun id key => ?_, congrArg Passage.unchecked hchecks.passage⟩
  have hchecked := hchecks.checked id key
  rw [Reading.sealed_eq, hchecked]
  split
  · exact List.rdropWhile_concat_neg _ _ _ Bool.false_ne_true
  · rw [List.append_nil, Reading.sealed_eq]
    rfl

/-- Where a measure is entered, its number is on the checks. -/
theorem enterMeasure (hr : Ascending r.passage.unchecked) {e : Element}
    (h : Ends (Partwise.enterMeasure e) r u s) : Pays (some ((e.attr? "number").getD "")) r s := by
  obtain ⟨_, r₁, hcheck, hrest⟩ := h.bind
  have hbegins : Orderly none (do
      Partwise.tell (.measureEntered e.line ((e.attr? "number").getD ""))
      Partwise.changePart e.line fun part =>
        { part with measureNumber := (e.attr? "number").getD "" }.mapVoices Voice.rewound
      Partwise.changePassage fun p =>
        { p with measureNumber := (e.attr? "number").getD "", position := 0, extents := [] }) :=
    .bind (.lift _) fun _ =>
      .bind (.changePart fun _ => .of_map rfl rfl fun _ => .of_flatten rfl rfl) fun _ =>
        .changePassage fun _ => rfl
  exact (checkBars hr hcheck).andThen (hbegins _ _ _ hrest)

/-- Chunks are closed where no repeat is pending. -/
theorem abides_flush {part : Part} (hpart : r.part? = some part)
    (hpending : ∀ v ∈ part.voices, v.pending? = none)
    (h : Ends (Partwise.changePart line fun p => p.mapVoices Voice.flush) r u s) :
    r.Abides none s := by
  refine .of_becomes hpart ((Becomes.refl hpart).changePart h rfl)
    (.of_map rfl (Part.voices_flush hpending) fun v => ?_) rfl
  split
  · next hnone => exact .of_flatten rfl (v.flatten_flush hnone)
  · exact .refl v

/-- Where a part is left, what is open ends, and then the last checks are put. -/
theorem leavePart (hsound : r.Sound) (hr : Ascending r.passage.unchecked) {e : Element}
    (h : Ends (Partwise.leavePart e) r u s) :
    ∃ t, r.Abides none t ∧ Quiet r t ∧ t.passage.tuplets = [] ∧ Pays none t s := by
  obtain ⟨_, r₁, hsettle, hrest₁⟩ := h.bind
  obtain ⟨hquiet, hnone⟩ := Quiet.settle hsound hsettle
  have hsettled : r.Abides none r₁ := Orderly.settle _ _ _ hsettle
  obtain ⟨_, r₂, hcheck, hrest₂⟩ := hrest₁.bind
  have hpaid := checkBars (hsettled.ascending hr) hcheck
  obtain ⟨_, r₃, hrepeats, hrest₃⟩ := hrest₂.bind
  have hended := hpaid.andThen (Orderly.endRepeats _ _ _ hrepeats)
  obtain ⟨part, hpart, hpending⟩ := hrepeats.endRepeats
  obtain ⟨_, r₄, hflush, hleave⟩ := hrest₃.bind
  have hflushed := hended.andThen (abides_flush hpart hpending hflush)
  refine ⟨r₁, hsettled, hquiet, hnone, hflushed.andThen ?_⟩
  rw [hleave.modify]
  exact .of_same (fun _ _ => rfl) rfl

end Pays

end Partwise
