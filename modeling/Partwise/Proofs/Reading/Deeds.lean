import Partwise.Proofs.Reading.Decoders
import Partwise.Proofs.Reading.Walk

/-!
# Reading · Deeds: what a move means for the music

Of all moves few matter to the music: notes, movements in time, and the boundaries of measures and
parts. `Move.deed` says what a move amounts to. What a note says depends on the part it stands in,
so a deed is that of a move after a reading; decoders are steady, so it does not depend on the
journal.
-/

namespace Partwise

open Markup

/-- What decoders know of a reading. -/
def Reading.surroundings (r : Reading) (settings : Settings) : Surroundings :=
  { greatestVoice := settings.maxVoiceNumber, part? := r.part? }

/-- What decoders must know is what they know of the reading. -/
theorem Ends.surroundings {settings : Settings} {r s : Reading} {known : Surroundings}
    (h : Ends (Partwise.surroundings settings) r known s) :
    known = r.surroundings settings ∧ r = s := by
  obtain ⟨_, _, hget, hpure⟩ := h.bind
  obtain ⟨rfl, rfl⟩ := hget.get
  obtain ⟨hknown, hs⟩ := hpure.pure
  exact ⟨hknown, hs.symm⟩

/-- What a move means for the music. -/
inductive Deed where
  | note (input : NoteInput)
  | forward (key : VoiceKey) (duration : WholeNotes) (line : Nat)
  | backup (duration : WholeNotes)
  | enterMeasure
  | leaveMeasure
  | enterPart (id : String)
  | leavePart
  /-- The music goes on as if the move had not been made. -/
  | nothing

namespace Deed

/-- What a movement back in time means. -/
def ofBackup (settings : Settings) (r : Reading) (e : Element) : Deed :=
  match result ((r.surroundings settings).duration e) with
  | some duration => backup duration
  | none => nothing

/-- What a movement forward in time means. -/
def ofForward (settings : Settings) (r : Reading) (e : Element) : Deed :=
  match result ((r.surroundings settings).duration e),
      result ((r.surroundings settings).place e r.passage.current) with
  | some duration, some key => forward key duration e.line
  | _, _ => nothing

/-- What a note element means. -/
def ofNote (settings : Settings) (r : Reading) (e : Element) : Deed :=
  match result (NoteInput.ofElement (r.surroundings settings) e) with
  | some input => note input
  | none => nothing

/-- What an element means that is not looked into any further. -/
def ofLeaf (settings : Settings) (r : Reading) (e : Element) : Deed :=
  match e.name with
  | "note" => ofNote settings r e
  | "backup" => ofBackup settings r e
  | "forward" => ofForward settings r e
  | _ => nothing

end Deed

/-- What a move means after a reading. -/
def Move.deed (settings : Settings) (r : Reading) : Move → Deed
  | enterPart e => .enterPart ((e.attr? "id").getD "")
  | leavePart _ => .leavePart
  | enterMeasure _ => .enterMeasure
  | leaveMeasure _ => .leaveMeasure
  | leavePartList _ => .nothing
  | leaf e => .ofLeaf settings r e

/-- An element that is not looked into any further is a note, a movement in time, or nothing. -/
theorem Deed.ofLeaf_cases {P : Deed → Prop} (settings : Settings) (r : Reading) (e : Element)
    (hnote : ∀ input, input.Proper → P (.note input)) (hbackup : ∀ duration, P (.backup duration))
    (hforward : ∀ key duration line, P (.forward key duration line)) (hnothing : P .nothing) :
    P (ofLeaf settings r e) := by
  unfold ofLeaf
  split
  · unfold ofNote
    split
    · next hresult => exact hnote _ (NoteInput.proper (gives_of_result hresult))
    · exact hnothing
  · unfold ofBackup
    split
    · exact hbackup _
    · exact hnothing
  · unfold ofForward
    split
    · exact hforward _ _ _
    · exact hnothing
  · exact hnothing

/-- Only note elements mean notes. -/
theorem Move.of_deed_note {m : Move} {settings : Settings} {r : Reading} {input : NoteInput}
    (h : m.deed settings r = .note input) : ∃ e, m = .leaf e ∧ e.name = "note" := by
  cases m with
  | leaf e =>
    refine ⟨e, rfl, ?_⟩
    have h : Deed.ofLeaf settings r e = .note input := h
    unfold Deed.ofLeaf at h
    split at h
    · assumption
    · unfold Deed.ofBackup at h
      split at h <;> exact nomatch h
    · unfold Deed.ofForward at h
      split at h <;> exact nomatch h
    · exact nomatch h
  | enterPart | leavePart | enterMeasure | leaveMeasure | leavePartList => exact nomatch h

/-- Only backup elements mean movements back in time. -/
theorem Move.of_deed_backup {m : Move} {settings : Settings} {r : Reading} {duration : WholeNotes}
    (h : m.deed settings r = .backup duration) : ∃ e, m = .leaf e ∧ e.name = "backup" := by
  cases m with
  | leaf e =>
    refine ⟨e, rfl, ?_⟩
    have h : Deed.ofLeaf settings r e = .backup duration := h
    unfold Deed.ofLeaf at h
    split at h
    · unfold Deed.ofNote at h
      split at h <;> exact nomatch h
    · assumption
    · unfold Deed.ofForward at h
      split at h <;> exact nomatch h
    · exact nomatch h
  | enterPart | leavePart | enterMeasure | leaveMeasure | leavePartList => exact nomatch h

/-- What a move says of a note is proper. -/
theorem Move.proper_of_deed {m : Move} {settings : Settings} {r : Reading} {input : NoteInput}
    (h : m.deed settings r = .note input) : input.Proper := by
  cases m with
  | leaf e =>
    refine Deed.ofLeaf_cases (P := fun d => d = .note input → input.Proper) settings r e
      ?_ nofun nofun nofun h
    rintro _ hproper ⟨⟩
    exact hproper
  | enterPart | leavePart | enterMeasure | leaveMeasure | leavePartList => exact nomatch h

end Partwise
