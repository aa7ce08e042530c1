import Partwise.Proofs.Music.Contiguity
import Partwise.Proofs.Music.Graces

/-!
# Music · Lengths: which tuplets have a length that can be computed

A tuplet does not store how long it sounds. The lengths of its members are added from zero each time
one asks (`Tuplet.sounding?`), and nothing has checked these sums before: what is checked while a
document is read are the positions where notes end, and a tuplet need not begin with its measure. So
the sum can leave the words where the positions do not (`Document.lengthless_lowTuplet`).

The sum is exact wherever it comes to an end, and it does so if and only if the lengths of its own
members, and of those of every tuplet inside it, can be added one by one
(`Tuplet.sounding?_eq_some`). In a row these partial sums are the distances of the members from the
begin of their tuplet (`Row.addsUp_iff`). A tuplet that begins with its measure and holds no other
one adds the very lengths to the very positions that were checked, so its length can be
computed. -/

namespace Partwise

open Markup

variable {settings : Settings} {site : Site} {position total x : WholeNotes}
  {ms : List TupletMember} {t : Tuplet}

/-! ## Sums -/

/-- Lengths can be added to a total, one by one, within words. -/
def WholeNotes.AddsUp (total : WholeNotes) : List WholeNotes → Prop
  | [] => True
  | x :: xs => total.Adds x ∧ AddsUp (total + x) xs

/-- The lengths of the tuplet's own members can be added up. -/
def Tuplet.AddsUp (t : Tuplet) : Prop :=
  WholeNotes.AddsUp 0 (t.members.map TupletMember.soundingWholeNotes)

/-- What two numbers that are added within words come to. -/
theorem WholeNotes.plus?_eq_some_iff {y : WholeNotes} :
    total.plus? y = some x ↔ total.Adds y ∧ total + y = x := by
  unfold Adds plus?
  split <;> simp_all

mutual

/-- **The length of a tuplet is computed** if and only if the lengths of its members can be added
up, and so can those in every tuplet inside it. It is the exact one then. -/
theorem Tuplet.sounding?_eq_some {t : Tuplet} {x : WholeNotes} :
    t.sounding? = some x ↔ t.soundingWholeNotes = x ∧ ∀ u ∈ t.nodes, u.AddsUp := by
  match t with
  | ⟨_, _, _, _, _, _, _, _, members, _⟩ =>
    rw [Tuplet.sounding?, soundingFrom?_eq_some, Tuplet.nodes, List.forall_mem_cons,
      Tuplet.soundingWholeNotes, zero_add, Tuplet.AddsUp]
    exact and_congr_right fun _ => and_comm

/-- A member has a length that can be computed if all tuplets in it add up, and it is what the
member sounds. -/
theorem TupletMember.sounding?_eq_some {m : TupletMember} {x : WholeNotes} :
    m.sounding? = some x ↔ m.soundingWholeNotes = x ∧ ∀ u ∈ m.nodes, u.AddsUp := by
  match m with
  | .note _ | .chord _ => simp [TupletMember.sounding?, TupletMember.soundingWholeNotes,
      TupletMember.nodes]
  | .tuplet t => exact Tuplet.sounding?_eq_some

/-- The lengths of members on top of a total. -/
theorem soundingFrom?_eq_some {total : WholeNotes} {ms : List TupletMember} {x : WholeNotes} :
    soundingFrom? total ms = some x ↔ total + soundingOfMembers ms = x ∧
      (∀ u ∈ nodesOfMembers ms, u.AddsUp) ∧
        total.AddsUp (ms.map TupletMember.soundingWholeNotes) := by
  match ms with
  | [] => simp [soundingFrom?, soundingOfMembers, nodesOfMembers, WholeNotes.AddsUp]
  | m :: ms =>
    have hstep : soundingFrom? total (m :: ms) = some x ↔
        (∀ u ∈ m.nodes, u.AddsUp) ∧ total.Adds m.soundingWholeNotes ∧
          soundingFrom? (total + m.soundingWholeNotes) ms = some x := by
      simp [soundingFrom?, Option.bind_eq_some_iff, TupletMember.sounding?_eq_some,
        WholeNotes.plus?_eq_some_iff, and_assoc]
    rw [hstep, soundingFrom?_eq_some, soundingOfMembers, nodesOfMembers, List.map_cons,
      WholeNotes.AddsUp, List.forall_mem_append, add_assoc]
    exact ⟨fun ⟨hnodes, hadds, hsum, hothers, hrest⟩ => ⟨hsum, ⟨hnodes, hothers⟩, hadds, hrest⟩,
      fun ⟨hsum, ⟨hnodes, hothers⟩, hadds, hrest⟩ => ⟨hnodes, hadds, hsum, hothers, hrest⟩⟩

end

/-- The length of a tuplet can be computed if and only if all tuplets in it add up. -/
theorem Tuplet.isSome_sounding? : t.sounding?.isSome = true ↔ ∀ u ∈ t.nodes, u.AddsUp := by
  simp [Option.isSome_iff_exists, sounding?_eq_some]

/-! ## Sums along a row -/

/-- In a row the partial sums are the distances of the members from where it begins. -/
theorem Row.addsUp_iff (h : Row site (position + total) ms) :
    total.AddsUp (ms.map TupletMember.soundingWholeNotes) ↔
      ∀ m ∈ ms, (m.positionInMeasure - position).Adds m.soundingWholeNotes := by
  induction ms generalizing total with
  | nil => simp [WholeNotes.AddsUp]
  | cons m ms ih =>
    obtain ⟨hbegins, -, hrest⟩ := h
    rw [add_assoc] at hrest
    rw [List.map_cons, WholeNotes.AddsUp, ih hrest, List.forall_mem_cons, hbegins,
      add_sub_cancel_left]

/-- A tuplet in a row, with the distances of its members. -/
theorem Tuplet.InRow.addsUp_iff (h : t.InRow site) :
    t.AddsUp ↔
      ∀ m ∈ t.members, (m.positionInMeasure - t.positionInMeasure).Adds m.soundingWholeNotes :=
  Row.addsUp_iff (by rw [add_zero]; exact (Tuplet.inRow_iff.mp h).2.2)

/-- Each member of a row is at its site. -/
theorem Row.inRow_of_mem {m : TupletMember} (h : Row site position ms) (hm : m ∈ ms) :
    m.InRow site := by
  obtain ⟨before, after, rfl⟩ := List.append_of_mem hm
  exact (row_append.mp h).2.2.1

/-- A member is a tuplet, or else the sum of where it begins and its length was checked. -/
theorem TupletMember.InRow.adds {m : TupletMember} (h : m.InRow site) (hnone : m.nodes = []) :
    m.positionInMeasure.Adds m.soundingWholeNotes := by
  cases m with
  | note | chord => exact h.2
  | tuplet t =>
    cases t
    cases hnone

/-- There is no tuplet in any of the members. -/
theorem nodes_of_nodesOfMembers {m : TupletMember} (h : nodesOfMembers ms = []) (hm : m ∈ ms) :
    m.nodes = [] := by
  induction ms with
  | nil => cases hm
  | cons m' ms ih =>
    obtain ⟨hfirst, hrest⟩ := List.append_eq_nil_iff.mp h
    rcases List.mem_cons.mp hm with rfl | hm
    · exact hfirst
    · exact ih hrest hm

/-! ## Whole documents -/

/-- **Which tuplets have a length that can be computed.** A length that is computed is the exact
one, and it is if and only if the lengths of the members can be added up in the tuplet and in each
one inside it. If the notes of the document are in measures, this is to add to each member's
distance from the begin of its tuplet how long it sounds. A tuplet that begins with its measure and
has none inside always has a length. -/
theorem Document.sounding_iff {root : Element} {score : Score}
    (h : (Document.read settings root).score = .ok score) :
    ∀ part ∈ score.parts, ∀ voice ∈ part.voices, ∀ t ∈ voice.tuplets,
      (∀ x, t.sounding? = some x → x = t.soundingWholeNotes) ∧
      (t.sounding?.isSome = true ↔ ∀ u ∈ t.nodes, u.AddsUp) ∧
      (root.notesInMeasures = true →
        (t.sounding?.isSome = true ↔ ∀ u ∈ t.nodes, ∀ m ∈ u.members,
          (m.positionInMeasure - u.positionInMeasure).Adds m.soundingWholeNotes) ∧
        (t.positionInMeasure = 0 → t.nodes = [t] → t.sounding?.isSome = true)) := by
  intro part hpart voice hvoice t ht
  refine ⟨fun x hx => (Tuplet.sounding?_eq_some.mp hx).1.symm, Tuplet.isSome_sounding?, fun hnotes => ?_⟩
  obtain ⟨measure, hrow⟩ := inRow_of_mem_tuplets h hnotes hpart hvoice ht
  have hdistances : t.sounding?.isSome = true ↔ ∀ u ∈ t.nodes, ∀ m ∈ u.members,
      (m.positionInMeasure - u.positionInMeasure).Adds m.soundingWholeNotes :=
    Tuplet.isSome_sounding?.trans (forall₂_congr fun u hu => (hrow.node hu).addsUp_iff)
  refine ⟨hdistances, fun hbegins hnone => hdistances.mpr fun u hu m hm => ?_⟩
  rw [hnone, List.mem_singleton] at hu
  subst hu
  have hmembers : nodesOfMembers u.members = [] := by
    cases u
    exact List.cons_inj_right _ |>.mp hnone
  rw [hbegins, sub_zero]
  exact (Row.inRow_of_mem (Tuplet.inRow_iff.mp hrow).2.2 hm).adds (nodes_of_nodesOfMembers hmembers hm)

/-- A tuplet of two notes at the begin of a measure. -/
def firstTuplet : Element :=
  singleMeasure
    [noteElement 1 "C" "1" "2" (tupletMarks [tupletMark "start" "1"]),
      noteElement 2 "D" "1" "1" (tupletMarks [tupletMark "stop" "1"])]

/-- The first tuplet of `firstTuplet` lasts three quarters of a whole note. -/
theorem Document.sounding_iff_firstTuplet : ∃ score, ∃ part ∈ score.parts,
    ∃ voice ∈ part.voices, (Document.read {} firstTuplet).score = .ok score ∧
      ∃ t ∈ voice.tuplets, t.line = 1 ∧ t.sounding? = some (3 / 4) := by
  have hthere : hasVoice firstTuplet "P" ⟨1, 1⟩ (fun voice => voice.tuplets.any fun t =>
      t.line = 1 ∧ t.positionInMeasure = 0 ∧ t.nodes = [t] ∧ t.soundingWholeNotes = 3 / 4) = true ∧
      firstTuplet.notesInMeasures = true := by
    decide +kernel
  obtain ⟨score, part, hpart, voice, hvoice, hread, -, -, hany⟩ := exists_voice hthere.1
  obtain ⟨t, ht, hcases⟩ := List.any_eq_true.mp hany
  obtain ⟨hline, hbegins, hnone, hlength⟩ := of_decide_eq_true hcases
  obtain ⟨hexact, -, hnotes⟩ := Document.sounding_iff hread part hpart voice hvoice t ht
  obtain ⟨x, hx⟩ := Option.isSome_iff_exists.mp ((hnotes hthere.2).2 hbegins hnone)
  exact ⟨score, part, hpart, voice, hvoice, hread, t, ht, hline, by rw [hx, hexact x hx, hlength]⟩

/-- A voice that begins, goes back as far as it can, and has a tuplet there of two notes, each as
long as can be. -/
def lowTuplet : Element :=
  singleMeasure
    [graceElement 1 "C" [], backupElement "9223372036854775807",
      noteElement 2 "C" "1" "9223372036854775807" (tupletMarks [tupletMark "start" "1"]),
      noteElement 3 "D" "1" "9223372036854775807" (tupletMarks [tupletMark "stop" "1"])]

/-- All positions are in the words, and the sum of the two lengths is, but it cannot be formed. -/
theorem Document.lengthless_lowTuplet : ∃ score, ∃ part ∈ score.parts, ∃ voice ∈ part.voices,
    (Document.read {} lowTuplet).score = .ok score ∧
      ∃ t ∈ voice.tuplets, t.sounding? = none ∧ t.soundingWholeNotes = 9223372036854775807 / 2 := by
  have hthere : hasVoice lowTuplet "P" ⟨1, 1⟩ (fun voice => voice.tuplets.any fun t =>
      t.sounding? = none ∧ t.soundingWholeNotes = 9223372036854775807 / 2) = true := by
    decide +kernel
  obtain ⟨score, part, hpart, voice, hvoice, hread, -, -, hany⟩ := exists_voice hthere
  obtain ⟨t, ht, hcases⟩ := List.any_eq_true.mp hany
  exact ⟨score, part, hpart, voice, hvoice, hread, t, ht, of_decide_eq_true hcases⟩

end Partwise
