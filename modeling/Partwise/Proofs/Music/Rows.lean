import Mathlib.Algebra.Order.Ring.Rat
import Partwise.Proofs.Music.Enclosing
import Partwise.Proofs.Music.Folding

/-!
# Music · Rows: members of a tuplet that follow on each other

The members of a tuplet stand in a row: the first begins where the tuplet does, and each other one
where those before it end (`Row`). A tuplet is in a row with all that it holds, at any depth, if
this is so of its own members and of those of every tuplet inside it, if all of them are of one
voice and one measure, and if the ends of its notes and chords can be formed within words
(`Tuplet.InRow`).

Tuplets that are still open are rows up to a position (`RowsUpTo`). They are so if and only if they
are a tuplet in a row once all of them have closed (`RowsUpTo.iff_within`). A note that begins there
keeps them so (`RowsUpTo.append_note`), also if tuplets open just for it (`RowsUpTo.news`), and a
member of a chord leaves all rows as they are (`Tuplet.InRow.join`).
-/

namespace Partwise

/-! ## Sites -/

/-- A voice in a measure. -/
structure Site where
  key : VoiceKey
  measure : String
deriving DecidableEq, Repr

/-- The sum of the two can be formed within words. -/
def WholeNotes.Adds (x y : WholeNotes) : Prop := combines (· + ·) x y = true

instance (x y : WholeNotes) : Decidable (x.Adds y) :=
  inferInstanceAs (Decidable (WholeNotes.combines _ x y = true))

theorem WholeNotes.adds_iff {x y : WholeNotes} : x.Adds y ↔ x.plus? y = some (x + y) := by
  unfold Adds plus?
  split <;> simp_all

/-- Where a note stands. -/
def Note.site (n : Note) : Site := ⟨⟨n.staffNumber, n.voiceNumber⟩, n.measureNumber⟩

/-- Where a tuplet stands. -/
def Tuplet.site (t : Tuplet) : Site := ⟨t.key, t.measureNumber⟩

/-- The position at which a member begins. -/
def TupletMember.positionInMeasure : TupletMember → WholeNotes
  | .note n => n.positionInMeasure
  | .chord c => c.positionInMeasure
  | .tuplet t => t.positionInMeasure

/-- Where a tuplet ends, as far as it has come. -/
def Tuplet.stop (t : Tuplet) : WholeNotes := t.positionInMeasure + t.soundingWholeNotes

/-! ## Rows -/

mutual

/-- The tuplet is at a site with all that it holds, and its members stand in a row. -/
def Tuplet.InRow (site : Site) : Tuplet → Prop
  | ⟨_, _, _, _, staff, voice, measure, position, members, _⟩ =>
    Site.mk ⟨staff, voice⟩ measure = site ∧ members ≠ [] ∧ Row site position members

/-- The member is at a site with all that it holds. -/
def TupletMember.InRow (site : Site) : TupletMember → Prop
  | .note n => n.site = site ∧ n.positionInMeasure.Adds n.soundingWholeNotes
  | .chord c =>
    (c.measureNumber = site.measure ∧ ∀ n ∈ c.notes, n.site = site) ∧
      c.positionInMeasure.Adds c.soundingWholeNotes
  | .tuplet t => t.InRow site

/-- The members begin at a position, one after the other. -/
def Row (site : Site) (position : WholeNotes) : List TupletMember → Prop
  | [] => True
  | m :: ms =>
    m.positionInMeasure = position ∧ m.InRow site ∧ Row site (position + m.soundingWholeNotes) ms

end

variable {site : Site} {position stop : WholeNotes} {m m' : TupletMember}
  {ms ms' before after : List TupletMember} {t t' : Tuplet} {outer : List Tuplet} {n : Note}
  {chordOpen : Bool}

/-- A tuplet in a row is seen as a whole. -/
theorem Tuplet.inRow_iff :
    t.InRow site ↔ t.site = site ∧ t.members ≠ [] ∧ Row site t.positionInMeasure t.members := by
  cases t
  rfl

/-- Rows behind each other are one row. -/
theorem row_append :
    Row site position (ms ++ ms') ↔
      Row site position ms ∧ Row site (position + soundingOfMembers ms) ms' := by
  induction ms generalizing position with
  | nil => simp [Row, soundingOfMembers]
  | cons m ms ih => simp [Row, soundingOfMembers, ih, add_assoc, and_assoc]

/-- A member alone stands in a row if it begins at the position and is in a row itself. -/
theorem row_singleton : Row site position [m] ↔ m.positionInMeasure = position ∧ m.InRow site := by
  simp [Row]

/-- Each member of a row begins where those before it end. -/
theorem Row.begins (h : Row site position (before ++ m :: after)) :
    m.positionInMeasure = position + soundingOfMembers before :=
  (row_append.mp h).2.1

/-! ## What stands inside -/

mutual

/-- Every tuplet inside a tuplet in a row is in a row itself. -/
theorem Tuplet.InRow.node {t u : Tuplet} (h : t.InRow site) (hu : u ∈ t.nodes) : u.InRow site := by
  match t with
  | ⟨_, _, _, _, _, _, _, _, members, _⟩ =>
    rw [Tuplet.nodes] at hu
    rcases List.mem_cons.mp hu with rfl | hu
    · exact h
    · exact Row.node h.2.2 hu

/-- Every tuplet in a member that is in a row is in a row. -/
theorem TupletMember.InRow.node {m : TupletMember} {u : Tuplet} (h : m.InRow site)
    (hu : u ∈ m.nodes) : u.InRow site := by
  match m with
  | .note _ | .chord _ => exact absurd hu List.not_mem_nil
  | .tuplet t => exact Tuplet.InRow.node h hu

/-- Every tuplet among members that stand in a row is in a row. -/
theorem Row.node {position : WholeNotes} {ms : List TupletMember} {u : Tuplet}
    (h : Row site position ms) (hu : u ∈ nodesOfMembers ms) : u.InRow site := by
  match ms with
  | [] => exact absurd hu List.not_mem_nil
  | m :: ms =>
    rw [nodesOfMembers] at hu
    rcases List.mem_append.mp hu with hu | hu
    · exact TupletMember.InRow.node h.2.1 hu
    · exact Row.node h.2.2 hu

end

mutual

/-- All notes of a tuplet in a row are at its site. -/
theorem Tuplet.InRow.site_note {t : Tuplet} {n : Note} (h : t.InRow site) (hn : n ∈ t.notes) :
    n.site = site := by
  match t with
  | ⟨_, _, _, _, _, _, _, _, members, _⟩ => exact Row.site_note h.2.2 hn

/-- The notes of a member that is in a row are at its site. -/
theorem TupletMember.InRow.site_note {m : TupletMember} {n : Note} (h : m.InRow site)
    (hn : n ∈ m.notes) : n.site = site := by
  match m with
  | .note _ =>
    rw [List.mem_singleton.mp hn]
    exact h.1
  | .chord c => exact h.1.2 n hn
  | .tuplet t => exact Tuplet.InRow.site_note h hn

/-- The notes of members that stand in a row are at their site. -/
theorem Row.site_note {position : WholeNotes} {ms : List TupletMember} {n : Note}
    (h : Row site position ms) (hn : n ∈ notesOfMembers ms) : n.site = site := by
  match ms with
  | [] => exact absurd hn List.not_mem_nil
  | m :: ms =>
    rw [notesOfMembers] at hn
    rcases List.mem_append.mp hn with hn | hn
    · exact TupletMember.InRow.site_note h.2.1 hn
    · exact Row.site_note h.2.2 hn

end

/-! ## Members of chords -/

mutual

/-- A member that is joined by a note of its voice stays in its row. -/
theorem TupletMember.InRow.join {m m' : TupletMember} (h : m.InRow site)
    (hkey : n.site.key = site.key) (hjoin : m.join n chordOpen = .ok m') :
    m'.InRow site ∧ m'.positionInMeasure = m.positionInMeasure := by
  match m with
  | .note first =>
    unfold TupletMember.join at hjoin
    split at hjoin
    · exact nomatch hjoin
    · cases hjoin
      obtain ⟨hfirst, hadds⟩ := h
      refine ⟨⟨⟨congrArg Site.measure hfirst, fun k hk => ?_⟩, hadds⟩, rfl⟩
      rcases List.mem_append.mp hk with hk | hk
      · rw [List.mem_singleton.mp hk]
        exact hfirst
      · rw [List.mem_singleton.mp hk, ← hfirst]
        exact congrArg (Site.mk · first.measureNumber) (hkey.trans (congrArg Site.key hfirst.symm))
  | .chord c =>
    unfold TupletMember.join at hjoin
    split at hjoin
    · cases hjoin
      obtain ⟨⟨hmeasure, hnotes⟩, hadds⟩ := h
      refine ⟨⟨⟨hmeasure, fun k hk => ?_⟩, hadds⟩, rfl⟩
      rcases List.mem_append.mp hk with hk | hk
      · exact hnotes k hk
      · rw [List.mem_singleton.mp hk]
        exact congrArg₂ Site.mk hkey hmeasure
    · exact nomatch hjoin
  | .tuplet t =>
    unfold TupletMember.join at hjoin
    obtain ⟨t', ht, rfl⟩ := of_map_eq_ok hjoin
    exact ⟨Tuplet.InRow.join h hkey ht, (Tuplet.of_join ht).position⟩

/-- A tuplet that is joined by a note of its voice stays in its row. -/
theorem Tuplet.InRow.join {t t' : Tuplet} (h : t.InRow site) (hkey : n.site.key = site.key)
    (hjoin : t.join n chordOpen = .ok t') : t'.InRow site := by
  match t with
  | ⟨_, _, _, _, _, _, _, _, members, _⟩ =>
    unfold Tuplet.join at hjoin
    obtain ⟨joined, hjoined, rfl⟩ := of_map_eq_ok hjoin
    exact ⟨h.1, (ne_nil_of_joinLastMember hjoined).2, Row.join h.2.2 hkey hjoined⟩

/-- Members of which the last is joined by a note stay in their row. -/
theorem Row.join {position : WholeNotes} {ms ms' : List TupletMember} (h : Row site position ms)
    (hkey : n.site.key = site.key) (hjoin : joinLastMember n chordOpen ms = .ok ms') :
    Row site position ms' := by
  match ms with
  | [] => exact nomatch hjoin
  | [m] =>
    unfold joinLastMember at hjoin
    obtain ⟨m', hm, rfl⟩ := of_map_eq_ok hjoin
    obtain ⟨hm', hposition⟩ := TupletMember.InRow.join h.2.1 hkey hm
    exact row_singleton.mpr ⟨hposition.trans h.1, hm'⟩
  | m :: next :: ms =>
    unfold joinLastMember at hjoin
    obtain ⟨rest, hrest, rfl⟩ := of_map_eq_ok hjoin
    exact ⟨h.1, h.2.1, Row.join h.2.2 hkey hrest⟩

end

/-! ## Open tuplets -/

/-- Open tuplets, the innermost first, each with its members in a row. The innermost ends at a
position, and every other one where the next inner one begins. -/
def RowsUpTo (site : Site) (stop : WholeNotes) : List Tuplet → Prop
  | [] => True
  | t :: outer =>
    t.site = site ∧ Row site t.positionInMeasure t.members ∧ t.stop = stop ∧
      RowsUpTo site t.positionInMeasure outer

/-- A tuplet with one more member at its end is in a row, if both are. -/
theorem row_members_append :
    Row site t.positionInMeasure (t.append m).members ↔
      Row site t.positionInMeasure t.members ∧ m.positionInMeasure = t.stop ∧ m.InRow site := by
  rw [Tuplet.append, row_append, row_singleton, Tuplet.stop, t.sounding_eq]

theorem Tuplet.stop_append (t : Tuplet) (m : TupletMember) :
    (t.append m).stop = t.stop + m.soundingWholeNotes := by
  rw [stop, sounding_append, stop, add_assoc]
  rfl

namespace RowsUpTo

/-- **Open tuplets are rows** if and only if they are a tuplet in a row once they have closed. -/
theorem iff_within (ht : t.members ≠ []) :
    RowsUpTo site stop (t :: outer) ↔ (t.within outer).InRow site ∧ (t.within outer).stop = stop := by
  induction outer generalizing t with
  | nil =>
    rw [Tuplet.within, Tuplet.inRow_iff, RowsUpTo]
    simp only [ht, ne_eq, not_false_eq_true, true_and, RowsUpTo, and_true]
    tauto
  | cons next outer ih =>
    have hnext : (next.append (.tuplet t)).members ≠ [] := by simp [Tuplet.append]
    have hend : next.stop = t.positionInMeasure →
        (next.append (.tuplet t)).stop = t.stop := fun heq => by
      rw [Tuplet.stop_append, heq]
      rfl
    have hrow : TupletMember.InRow site (.tuplet t) ↔
        t.site = site ∧ t.members ≠ [] ∧ Row site t.positionInMeasure t.members := t.inRow_iff
    have hposition : (next.append (.tuplet t)).positionInMeasure = next.positionInMeasure := rfl
    rw [Tuplet.within, ← ih hnext, RowsUpTo, RowsUpTo, RowsUpTo, hposition, row_members_append, hrow]
    constructor
    · rintro ⟨hsite, hmembers, hstop, hsite', hmembers', hmeets, hrest⟩
      exact ⟨hsite', ⟨hmembers', hmeets.symm, hsite, ht, hmembers⟩, (hend hmeets).trans hstop, hrest⟩
    · rintro ⟨hsite', ⟨hmembers', hmeets, hsite, -, hmembers⟩, hstop, hrest⟩
      exact ⟨hsite, hmembers, (hend hmeets.symm).symm.trans hstop, hsite', hmembers', hmeets.symm,
        hrest⟩

/-- Tuplets that have just opened at the end of the rows are rows, too. -/
theorem news {news old : List Tuplet} (h : RowsUpTo site stop old)
    (hnews : ∀ x ∈ news, x.site = site ∧ x.members = [] ∧ x.positionInMeasure = stop) :
    RowsUpTo site stop (news ++ old) := by
  induction news with
  | nil => exact h
  | cons x news ih =>
    obtain ⟨hsite, hmembers, hposition⟩ := hnews x List.mem_cons_self
    refine ⟨hsite, ?_, ?_, ?_⟩
    · rw [hmembers]
      trivial
    · rw [Tuplet.stop, x.sounding_eq, hmembers, soundingOfMembers, hposition]
      exact add_zero stop
    · rw [hposition]
      exact ih fun y hy => hnews y (List.mem_cons_of_mem _ hy)

/-- A note that begins at the end of the rows comes into the innermost tuplet. -/
theorem append_note (h : RowsUpTo site stop (t :: outer)) (hsite : n.site = site)
    (hbegins : n.positionInMeasure = stop) (hadds : stop.Adds n.soundingWholeNotes) :
    RowsUpTo site (stop + n.soundingWholeNotes) (t.append (.note n) :: outer) := by
  obtain ⟨ht, hmembers, hstop, hrest⟩ := h
  have hrow := (row_members_append (m := .note n)).mpr
    ⟨hmembers, hbegins.trans hstop.symm, hsite, hbegins ▸ hadds⟩
  refine ⟨ht, hrow, ?_, hrest⟩
  rw [Tuplet.stop_append, hstop]
  rfl

end RowsUpTo

end Partwise
