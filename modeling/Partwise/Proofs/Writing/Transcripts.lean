import Partwise.Proofs.Reading.Assembling
import Partwise.Proofs.Reading.Independence
import Partwise.Proofs.Reading.Selection
import Partwise.Proofs.Reading.Staves
import Partwise.Proofs.Writing.Forms

/-!
# Writing · Transcripts: the text of a transcript keeps all of it

Two things are not written of a score: the slurs that are open at the end of a voice
(`Voice.unslurred`), and ordering keys of groups that are not finite. The staves of a part are
written with their voices, and since its voices are in order they come back in it
(`Part.back_form`).

So what is read back from the text of a transcript is known (`Document.transcript_written`).
-/

namespace Partwise

open Json Markup ReadsBack

/-! ## Voices -/

/-- The voice without the slurs that are open at its end. -/
def Voice.unslurred (v : Voice) : Voice := { v with slurDepth := 0, slurOpening? := none }

namespace Voice

/-- A voice is written down so that it can be read. -/
theorem isLegible_form (v : Voice) : (toJson v).isLegible = true := by
  show Json.isLegible (.object _) = true
  simp [isLegible_object, isLegible_array, legible, chunkForm, back_formsOfElements]

/-- A voice is read back, and has no open slurs then. -/
theorem back_form (v : Voice) : ofJson? (toJson v) = some v.unslurred := by
  show ofJson? (Json.object _) = some v.unslurred
  change Option.bind _ _ = _
  simp [get?_cons, member?_cons, back, chunkForm, chunkOfForm?_eq, back_formsOfElements, unslurred]

end Voice

/-! ## Parts -/

/-- What is read one by one. -/
theorem mapM_eq_map {α β γ : Type} {f : β → Option γ} {g : α → β} {h : α → γ} {xs : List α}
    (hf : ∀ x ∈ xs, f (g x) = some (h x)) : (xs.map g).mapM f = some (xs.map h) := by
  induction xs with
  | nil => rfl
  | cons x xs ih =>
    obtain ⟨hx, hxs⟩ := List.forall_mem_cons.mp hf
    simp [hx, ih hxs]

/-- What comes last is put at the end. -/
theorem upsert_last {α : Type} {number : α → Nat} {x : α} {ys : List α}
    (h : ∀ y ∈ ys, number y < number x) : upsert Nat.blt number x ys = ys ++ [x] := by
  induction ys with
  | nil => rfl
  | cons y ys ih =>
    obtain ⟨hy, hys⟩ := List.forall_mem_cons.mp h
    have hafter : ¬ (number x).blt (number y) = true := by
      rw [Nat.blt_eq]
      omega
    rw [upsert, if_neg hy.ne', if_neg hafter, ih hys, List.cons_append]

/-- Values that come in ascending order are kept in it. -/
theorem foldl_upsert {α : Type} {number : α → Nat} {xs kept : List α}
    (h : (kept ++ xs).Pairwise fun a b => number a < number b) :
    xs.foldl (fun kept x => upsert Nat.blt number x kept) kept = kept ++ xs := by
  induction xs generalizing kept with
  | nil => rw [List.foldl_nil, List.append_nil]
  | cons x xs ih =>
    have hlast : ∀ y ∈ kept, number y < number x := fun y hy =>
      (List.pairwise_append.mp h).2.2 y hy x List.mem_cons_self
    rw [List.append_cons] at h ⊢
    rw [List.foldl_cons, upsert_last hlast, ih h]

namespace Part

variable {p : Part}

/-- Numbered values are read back if each is, and if they are written in ascending order. -/
theorem numbered?_map {α β : Type} {read : Json → Option β} {number : β → Nat} {name : α → Nat}
    {form : α → Json} {value : α → β} {xs : List α} (hread : ∀ x, read (form x) = some (value x))
    (hname : ∀ x, number (value x) = name x) (hxs : (xs.map name).Pairwise (· < ·)) :
    numbered? read number (.object (xs.map fun x => (toString (name x), form x))) =
      some (xs.map value) := by
  have hmembers := @mapM_eq_map _ _ _ (fun m : String × Json => do
    let x ← read m.2
    if m.1 = toString (number x) then some x else none) (fun x => (toString (name x), form x)) value
    xs fun x _ => by simp [hread, hname]
  have hascending : (xs.map value).Pairwise fun a b => number a < number b := by
    refine List.pairwise_map.mpr ((List.pairwise_map.mp hxs).imp fun hlt => ?_)
    rwa [hname, hname]
  rw [numbered?, hmembers, Option.bind_eq_bind, Option.bind_some, foldl_upsert hascending,
    List.nil_append]

/-- Legible values under their numbers are legible together. -/
theorem isLegible_numbered {α : Type} [ToJson α] {number : α → Nat}
    (hlegible : ∀ x : α, (toJson x).isLegible = true) (xs : List α) :
    (numbered number xs).isLegible = true := by
  simp [numbered, isLegible_object, hlegible]

/-- The voices on a staff are the voices of the part that have its number. -/
theorem mem_voicesOn {v : Voice} {staff : Nat} :
    v ∈ p.voicesOn staff ↔ v ∈ p.voices ∧ v.staffNumber = staff := by
  simp [voicesOn]

namespace InOrder

/-- The voices of a staff are in ascending order of their numbers. -/
theorem numbers_voicesOn (h : p.InOrder) (staff : Nat) :
    ((p.voicesOn staff).map Voice.number).Pairwise (· < ·) := by
  refine List.pairwise_map.mpr
    (((List.pairwise_map.mp h.voices).filter _).imp_of_mem fun hv hw hbefore => ?_)
  have hsame := (mem_voicesOn.mp hv).2.trans (mem_voicesOn.mp hw).2.symm
  rcases VoiceKey.before_iff.mp hbefore with hlt | ⟨-, hlt⟩
  · exact absurd hsame hlt.ne
  · exact hlt

/-- The voices of a part in order are those of its staves, one staff after the other. -/
theorem flatMap_voicesOn (h : p.InOrder) : p.staves.flatMap p.voicesOn = p.voices := by
  have hvoices : p.voices.Pairwise fun v w => v.key.before w.key :=
    List.pairwise_map.mp h.voices
  have hstaves : (p.staves.flatMap p.voicesOn).Pairwise fun v w => v.key.before w.key := by
    refine List.pairwise_flatMap.mpr ⟨fun _ _ => hvoices.filter _, h.staves.imp ?_⟩
    intro staff next hlt v hv w hw
    rw [← (mem_voicesOn.mp hv).2, ← (mem_voicesOn.mp hw).2] at hlt
    exact VoiceKey.before_iff.mpr (.inl hlt)
  have hnodup : ∀ {vs : List Voice}, vs.Pairwise (fun v w => v.key.before w.key) → vs.Nodup := by
    refine fun hvs => hvs.imp ?_
    rintro v _ hlt rfl
    exact VoiceKey.orders.irrefl _ hlt
  refine List.Perm.eq_of_pairwise (fun v w _ _ hvw hwv => ?_) hstaves hvoices ?_
  · exact absurd (VoiceKey.orders.trans hvw hwv) (VoiceKey.orders.irrefl _)
  · refine (List.perm_ext_iff_of_nodup (hnodup hstaves) (hnodup hvoices)).mpr fun v => ?_
    refine List.mem_flatMap.trans ⟨fun ⟨_, _, hv⟩ => (mem_voicesOn.mp hv).1, fun hv => ?_⟩
    exact ⟨v.staffNumber, h.placed v hv, mem_voicesOn.mpr ⟨hv, rfl⟩⟩

/-- A staff is read back with its voices. -/
theorem staffOfForm?_staffForm (h : p.InOrder) (staff : Nat) :
    staffOfForm? (p.staffForm staff) = some (staff, (p.voicesOn staff).map Voice.unslurred) := by
  have hvoices : numbered? ofJson? Voice.number (numbered Voice.number (p.voicesOn staff)) =
      some ((p.voicesOn staff).map Voice.unslurred) :=
    numbered?_map Voice.back_form (fun _ => rfl) (h.numbers_voicesOn staff)
  have hstaff : ∀ v ∈ p.voicesOn staff, v.unslurred.staffNumber = staff :=
    fun _ hv => (mem_voicesOn.mp hv).2
  simpa [staffOfForm?, staffForm, get?_cons, member?_cons, back, hvoices] using hstaff

end InOrder

/-- A staff is written down so that it can be read. -/
theorem isLegible_staffForm (p : Part) (staff : Nat) : (p.staffForm staff).isLegible = true := by
  simp [staffForm, isLegible_object, legible, isLegible_numbered Voice.isLegible_form]

/-- A part is written down so that it can be read. -/
theorem isLegible_form (p : Part) : (toJson p).isLegible = true := by
  show Json.isLegible (.object _) = true
  simp [isLegible_object, legible, isLegible_staffForm, isLegible_numbered]

/-- **A part in order** is read back, and its voices have no open slurs then. -/
theorem back_form (h : p.InOrder) :
    ofJson? (toJson p) = some (p.mapVoices Voice.unslurred) := by
  have hstaves : numbered? staffOfForm? Prod.fst
      (.object (p.staves.map fun staff => (staff.repr, p.staffForm staff))) =
        some (p.staves.map fun staff => (staff, (p.voicesOn staff).map Voice.unslurred)) :=
    numbered?_map h.staffOfForm?_staffForm (fun _ => rfl) (by simpa using h.staves)
  have hclefs : numbered? ofJson? Clef.staffNumber (numbered Clef.staffNumber p.clefs) =
      some p.clefs := by
    rw [numbered, numbered?_map (@back Clef _ _ _) (fun _ => rfl) h.clefs, List.map_id']
  have hvoices : (p.staves.flatMap fun staff => (p.voicesOn staff).map Voice.unslurred) =
      p.voices.map Voice.unslurred := by
    rw [← List.map_flatMap, h.flatMap_voicesOn]
  show ofJson? (Json.object _) = some (p.mapVoices Voice.unslurred)
  change Option.bind _ _ = _
  simp [get?_cons, member?_cons, back, hstaves, hclefs, List.flatMap_map, hvoices, mapVoices,
    Function.comp_def]

/-- A part is written down alike without the slurs that its voices remember. -/
theorem form_unslurred (p : Part) : toJson (p.mapVoices Voice.unslurred) = toJson p := by
  have hstaff : ∀ staff, (p.mapVoices Voice.unslurred).staffForm staff = p.staffForm staff := by
    intro staff
    have hvoices : (p.mapVoices Voice.unslurred).voicesOn staff =
        (p.voicesOn staff).map Voice.unslurred :=
      List.filter_map
    rw [staffForm, hvoices, numbered, List.map_map]
    rfl
  show Json.object _ = Json.object _
  simp only [hstaff]
  rfl

end Part

/-! ## Groups -/

mutual

/-- What the form of a group keeps of it: no open slurs, and no ordering keys that are not
finite. -/
def PartGroup.kept : PartGroup → PartGroup
  | { id, name?, abbreviation?, symbol, orderingKey?, barline, isImplicit, members, line } =>
    { id, name?, abbreviation?, symbol, orderingKey? := orderingKey?.filter Binary32.isFinite
      barline, isImplicit, members := keptMembers members, line }

/-- What the form of a member keeps of it. -/
def GroupMember.kept : GroupMember → GroupMember
  | .group g => .group g.kept
  | .part p => .part (p.mapVoices Voice.unslurred)

/-- What the forms of a list of members keep of them. -/
def keptMembers : List GroupMember → List GroupMember
  | [] => []
  | m :: ms => m.kept :: keptMembers ms

end

/-- An ordering key that is not finite is written as one that is absent. -/
theorem Binary32.back_form (key? : Option Binary32) :
    (toJson key?).isLegible = true ∧ ofJson? (toJson key?) = some (key?.filter isFinite) := by
  cases key? with
  | none => exact ⟨rfl, rfl⟩
  | some key =>
    show (Json.isLegible (if key.isFinite then .number key else .null)) = true ∧
      ofJson? (if key.isFinite then Json.number key else .null) = _
    by_cases hfinite : key.isFinite = true <;>
      simp [hfinite, Json.isLegible, Option.filter, ofJson?]

/-- An ordering key that is not finite is written down as one that is missing. -/
theorem Binary32.form_filter (key? : Option Binary32) :
    toJson (key?.filter isFinite) = toJson key? := by
  cases key? with
  | none => rfl
  | some key =>
    by_cases hfinite : key.isFinite = true <;> simp [hfinite, Option.filter, toJson]

mutual

/-- A group is read back as what its form keeps of it. -/
theorem PartGroup.back_form (g : PartGroup) (hparts : ∀ p ∈ g.parts, p.InOrder) :
    g.form.isLegible = true ∧ PartGroup.ofForm? g.form = some g.kept := by
  have hitems : g.form.member? "elements" = some (.array (formsOfGroupMembers g.members)) := by
    cases g
    simp [PartGroup.form, member?_cons]
  obtain ⟨xs, hxs, hread⟩ := exists_items hitems
  rw [PartGroup.ofForm?, hxs, Option.bind_eq_bind, Option.bind_some, hread]
  obtain ⟨_, _, _, _, key?, _, _, members, _⟩ := g
  rw [PartGroup.parts] at hparts
  obtain ⟨hlegible, hback⟩ := back_formsOfGroupMembers members hparts
  obtain ⟨hkey, hkey'⟩ := Binary32.back_form key?
  constructor
  · simp [PartGroup.form, isLegible_object, isLegible_array, legible, hlegible, hkey]
  · simp [PartGroup.form, PartGroup.kept, hback, hkey', get?_cons, back]

/-- A member of a group is read back as what its form keeps of it. -/
theorem GroupMember.back_form (m : GroupMember) (hparts : ∀ p ∈ m.parts, p.InOrder) :
    m.form.isLegible = true ∧ GroupMember.ofForm? m.form = some m.kept := by
  rw [GroupMember.form.eq_def, GroupMember.ofForm?.eq_def, GroupMember.kept.eq_def]
  match m with
  | .group g =>
    rw [GroupMember.parts] at hparts
    simp [isLegible_object, g.back_form hparts]
  | .part p =>
    rw [GroupMember.parts, List.forall_mem_singleton] at hparts
    simp [isLegible_object, p.isLegible_form, Part.back_form hparts]

/-- Members of a group are read back as what their forms keep of them. -/
theorem back_formsOfGroupMembers (ms : List GroupMember)
    (hparts : ∀ p ∈ partsOfMembers ms, p.InOrder) :
    (formsOfGroupMembers ms).all Json.isLegible = true ∧
      (formsOfGroupMembers ms).mapM GroupMember.ofForm? = some (keptMembers ms) := by
  match ms with
  | [] => exact ⟨rfl, rfl⟩
  | m :: ms =>
    rw [partsOfMembers, List.forall_mem_append] at hparts
    simp [formsOfGroupMembers, keptMembers, m.back_form hparts.1,
      back_formsOfGroupMembers ms hparts.2]

end

mutual

/-- What is kept of a group is written as the group is. -/
theorem PartGroup.form_kept (g : PartGroup) : g.kept.form = g.form := by
  match g with
  | ⟨_, _, _, _, key?, _, _, members, _⟩ =>
    rw [PartGroup.kept, PartGroup.form, PartGroup.form, Binary32.form_filter,
      formsOfGroupMembers_kept members]

/-- What is kept of a member is written as the member is. -/
theorem GroupMember.form_kept (m : GroupMember) : m.kept.form = m.form := by
  match m with
  | .group g => rw [GroupMember.kept, GroupMember.form, GroupMember.form, g.form_kept]
  | .part p => rw [GroupMember.kept, GroupMember.form, GroupMember.form, p.form_unslurred]

/-- What is kept of members is written as the members are. -/
theorem formsOfGroupMembers_kept (ms : List GroupMember) :
    formsOfGroupMembers (keptMembers ms) = formsOfGroupMembers ms := by
  match ms with
  | [] => rfl
  | m :: ms =>
    rw [keptMembers, formsOfGroupMembers, formsOfGroupMembers, m.form_kept,
      formsOfGroupMembers_kept ms]

end

/-- The ordering key of a group is absent or finite. -/
def PartGroup.FiniteKey (g : PartGroup) : Prop := ∀ x ∈ g.orderingKey?, x.isFinite = true

mutual

/-- Where all ordering keys are finite, only open slurs are lost of a group. -/
theorem PartGroup.kept_eq (g : PartGroup) (hfinite : ∀ n ∈ g.nodes, n.FiniteKey) :
    g.kept = g.mapParts fun p => p.mapVoices Voice.unslurred := by
  match g with
  | ⟨_, _, _, _, key?, _, _, members, _⟩ =>
    rw [PartGroup.nodes] at hfinite
    obtain ⟨hfirst, hinside⟩ := List.forall_mem_cons.mp hfinite
    have hkey : key?.filter Binary32.isFinite = key? := by
      cases key? with
      | none => rfl
      | some key => exact Option.filter_some_pos (hfirst key rfl)
    rw [PartGroup.kept, PartGroup.mapParts, hkey, keptMembers_eq members hinside]

/-- Where all ordering keys are finite, only open slurs are lost of a member. -/
theorem GroupMember.kept_eq (m : GroupMember) (hfinite : ∀ n ∈ m.nodes, n.FiniteKey) :
    m.kept = m.mapParts fun p => p.mapVoices Voice.unslurred := by
  match m with
  | .group g =>
    rw [GroupMember.nodes] at hfinite
    rw [GroupMember.kept, GroupMember.mapParts, g.kept_eq hfinite]
  | .part p => rw [GroupMember.kept, GroupMember.mapParts]

/-- Where all ordering keys are finite, only open slurs are lost of members. -/
theorem keptMembers_eq (ms : List GroupMember) (hfinite : ∀ n ∈ nodesInMembers ms, n.FiniteKey) :
    keptMembers ms = mapPartsOfMembers (fun p => p.mapVoices Voice.unslurred) ms := by
  match ms with
  | [] => rfl
  | m :: ms =>
    rw [nodesInMembers, List.forall_mem_append] at hfinite
    rw [keptMembers, mapPartsOfMembers, m.kept_eq hfinite.1, keptMembers_eq ms hfinite.2]

end

/-! ## Scores and transcripts -/

/-- What the form of a transcript keeps of it. -/
def Transcript.kept (t : Transcript) : Transcript :=
  { t with score := { t.score with groups := t.score.groups.map PartGroup.kept } }

namespace Transcript

variable {t : Transcript}

/-- What is kept of a transcript is written down like the transcript. -/
theorem text_kept (t : Transcript) : t.kept.text = t.text := by
  have hgroups : (t.score.groups.map PartGroup.kept).map PartGroup.form =
      t.score.groups.map PartGroup.form := by
    rw [List.map_map]
    exact List.map_congr_left fun g _ => g.form_kept
  show Json.render (.object [(_, .object [_, (_, .array (List.map PartGroup.form _))]), _]) = _
  rw [show t.kept.score.groups = t.score.groups.map PartGroup.kept from rfl, hgroups]
  rfl

/-- A transcript whose parts are in order is read back from its text as what its form keeps. -/
theorem ofText?_text (hparts : ∀ p ∈ t.score.parts, p.InOrder) : ofText? t.text = some t.kept := by
  have hgroups : ∀ g ∈ t.score.groups,
      g.form.isLegible = true ∧ PartGroup.ofForm? g.form = some g.kept :=
    fun g hg => g.back_form fun p hp => hparts p (List.mem_flatMap.mpr ⟨g, hg, hp⟩)
  have hlegible : (toJson t.score.groups).isLegible = true := by
    show Json.isLegible (.array (t.score.groups.map PartGroup.form)) = true
    rw [isLegible_array, List.all_map]
    exact List.all_eq_true.mpr fun g hg => (hgroups g hg).1
  have hback : ofJson? (toJson t.score.groups) = some (t.score.groups.map PartGroup.kept) :=
    mapM_eq_map fun g hg => (hgroups g hg).2
  have hscore : (toJson t.score).isLegible = true ∧ ofJson? (toJson t.score) = some t.kept.score := by
    constructor
    · show Json.isLegible (.object _) = true
      simp [isLegible_object, legible, hlegible]
    · show ofJson? (Json.object _) = some t.kept.score
      change Option.bind _ _ = _
      simp [get?_cons, back, hback, kept]
  have ht : (toJson t).isLegible = true := by
    show Json.isLegible (.object _) = true
    simp [isLegible_object, legible, hscore.1]
  rw [ofText?, text, Json.ofText?_render _ ht, Option.bind_some]
  show ofJson? (Json.object _) = some t.kept
  change Option.bind _ _ = _
  simp [get?_cons, back, hscore.2, kept]

/-- Where all ordering keys are finite, only open slurs are lost. -/
theorem kept_eq (hfinite : ∀ g ∈ t.score.nodes, g.FiniteKey) :
    t.kept = { t with score := t.score.mapParts fun p => p.mapVoices Voice.unslurred } := by
  have hgroups : t.score.groups.map PartGroup.kept =
      t.score.groups.map (PartGroup.mapParts fun p => p.mapVoices Voice.unslurred) :=
    List.map_congr_left fun g hg =>
      g.kept_eq fun n hn => hfinite n (List.mem_flatMap.mpr ⟨g, hg, hn⟩)
  rw [kept, hgroups, Score.mapParts]

end Transcript

/-- **The text of a transcript** keeps all of it. What is read back from it has the same text, and
where the ordering keys of all groups are finite it is the transcript itself, without the slurs that
are open at the end of a voice. -/
theorem Document.transcript_written {settings : Settings} {root : Element} {t : Transcript}
    (h : (Document.read settings root).transcript = .ok t) :
    ∃ t', Transcript.ofText? t.text = some t' ∧ t'.text = t.text ∧
      ((∀ g ∈ t.score.nodes, g.FiniteKey) →
        t' = { t with score := t.score.mapParts fun p => p.mapVoices Voice.unslurred }) := by
  have hparts := Document.parts_tidy (Outcome.score_of_transcript h)
  exact ⟨t.kept, Transcript.ofText?_text hparts, t.text_kept, Transcript.kept_eq⟩

/-- A part on two staves within a group that has an ordering key. A slur is still open in the
end. -/
def slurLeftOpen : Element :=
  let symbol : Element :=
    { name := "group-symbol", text? := some "brace", attributes := [("default-x", "-6.5")] }
  { name := "score-partwise"
    children :=
      [{ name := "part-list"
         children := [Document.groupElement "start" "1" [symbol], Document.partElement "P",
           Document.groupElement "stop" "1" []] },
        partElement "P" [noteElement 1 "C" "1" "4" [slurMark "start"], backupElement "4",
          noteElement 2 "E" "2" "4" [textElement "staff" "2"]]] }

/-- All but the slur is read back. -/
theorem Document.transcript_slurLeftOpen : ∃ t t',
    (Document.read {} slurLeftOpen).transcript = .ok t ∧
      t.score.nodes.map PartGroup.orderingKey? = [Binary32.read? "-6.5"] ∧
        (t.score.parts.flatMap fun p => p.voices.map Voice.slurDepth) = [1, 0] ∧
          Transcript.ofText? t.text = some t' ∧ t'.text = t.text ∧
            t' = { t with score := t.score.mapParts fun p => p.mapVoices Voice.unslurred } := by
  have hread : ((Document.read {} slurLeftOpen).score.map fun score =>
      decide (score.nodes.map PartGroup.orderingKey? = [Binary32.read? "-6.5"] ∧
        (score.parts.flatMap fun p => p.voices.map Voice.slurDepth) = [1, 0])).toOption =
          some true := by
    decide +kernel
  obtain ⟨t, ht, hscore⟩ := Outcome.exists_transcript hread
  obtain ⟨hkeys, hdepths⟩ := of_decide_eq_true hscore
  obtain ⟨t', hback, htext, hsame⟩ := Document.transcript_written ht
  refine ⟨t, t', ht, hkeys, hdepths, hback, htext, hsame fun g hg x hx => ?_⟩
  have hkey : g.orderingKey? = Binary32.read? "-6.5" :=
    List.mem_singleton.mp (hkeys ▸ List.mem_map_of_mem hg)
  rw [hkey] at hx
  revert x
  decide +kernel

end Partwise
