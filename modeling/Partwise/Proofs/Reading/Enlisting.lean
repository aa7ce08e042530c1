import Mathlib.Data.List.Induction
import Partwise.Proofs.Reading.Declarations

/-!
# Reading · Enlisting: what is declared comes into the score

Every move of a reading changes the part list in the three ways that `PartList.Changes` lists, and
what it declares is what `Move.declaration?` reads off its element, as far as it counts
(`Reading.Declares`). So after any number of moves the part list has what was declared by them
(`Reading.Enlisted`), and the groups that a score is assembled of are those of the part list, member
by member (`GroupDraft.Becomes`).
-/

namespace Partwise

open Markup

variable {r s : Reading} {u : Unit} {K : GroupDraft → List GroupDraft → Prop}

/-! ## Decoded groups -/

/-- A group that is started has no members yet, and it stands in the document. -/
theorem PartGroup.of_gives {e : Element} {number : String} {group : PartGroup}
    (h : Gives (PartGroup.ofElement e number) group) :
    group.members = [] ∧ group.isImplicit = false := by
  unfold PartGroup.ofElement at h
  extract_lets symbolElement assembled withSymbol at h
  clear_value symbolElement
  have hsymbol : ∀ symbol, Gives (withSymbol symbol) group →
      group.members = [] ∧ group.isImplicit = false := by
    intro symbol h
    unfold withSymbol at h
    extract_lets withKey at h
    have hkey : ∀ key?, Gives (withKey key?) group →
        group.members = [] ∧ group.isImplicit = false := by
      intro key? h
      cases Gives.pure h
      exact ⟨rfl, rfl⟩
    split at h
    · obtain ⟨key?, _, hrest⟩ := Gives.bind h
      exact hkey key? hrest
    · obtain ⟨key?, _, hrest⟩ := Gives.bind h
      exact hkey key? hrest
  split at h
  · obtain ⟨symbol, _, hrest⟩ := Gives.bind h
    exact hsymbol symbol hrest
  · obtain ⟨symbol, _, hrest⟩ := Gives.bind h
    exact hsymbol symbol hrest

/-! ## Moves -/

/-- An attribute is there if it has a value that does not stand for its absence. -/
theorem Markup.Element.attr?_of_getD {e : Element} {key word default : String}
    (h : (e.attr? key).getD default = word) (hword : word ≠ default) :
    e.attr? key = some word := by
  cases hattr : e.attr? key with
  | none =>
    rw [hattr] at h
    exact absurd h.symm hword
  | some value =>
    rw [hattr] at h
    exact congrArg some h

/-- The number of a group that an element starts or stops. -/
def Markup.Element.groupNumber (e : Element) : String := (e.attr? "number").getD "1"

/-- The element stops a group: of the open groups with its number the innermost. `outer` and `inner`
are the groups that are open around it and further inside. -/
structure PartList.Stops (l : PartList) (e : Element) (outer : List GroupDraft) (draft : GroupDraft)
    (inner : List GroupDraft) : Prop where
  name : e.name = "part-group"
  stop : e.attr? "type" = some "stop"
  split : l.openGroups = outer ++ draft :: inner
  answers : draft.answers e.groupNumber = true
  taken : l.takeGroup? e.groupNumber = some (draft, l.without outer inner)

/-- The groups that a move stops meet a condition. -/
def Move.Meets (K : GroupDraft → List GroupDraft → Prop) (m : Move) (l : PartList) : Prop :=
  ∀ e outer draft inner, m = .leaf e → l.Stops e outer draft inner → K draft inner

/-- What is declared to a reading by a move. A part that is known is not declared again, and one
that is declared outside of all groups brings an implicit group with it. -/
inductive Reading.Declares (r : Reading) (m : Move) : List Declaration → Prop
  | nothing (hmove : m.declaration? = none) : Declares r m []
  | again (id : String) (hmove : m.declaration? = some (.part id))
      (known : id ∈ r.parts.map Part.id) : Declares r m []
  | part (id : String) (hmove : m.declaration? = some (.part id))
      (new : id ∉ r.parts.map Part.id) (inside : r.partList.openGroups ≠ []) :
      Declares r m [.part id]
  | outside (id : String) (line : Nat) (hmove : m.declaration? = some (.part id))
      (new : id ∉ r.parts.map Part.id) (outside : r.partList.openGroups = []) :
      Declares r m [.group (PartGroup.implicit line), .part id]
  | group (heading : PartGroup) (hmove : m.declaration? = some (.group heading))
      (explicit : heading.isImplicit = false) : Declares r m [.group heading]

/-- How the part list and the parts of one reading become those of another. -/
structure Reading.Enlists (K : GroupDraft → List GroupDraft → Prop) (r : Reading)
    (ds : List Declaration) (s : Reading) : Prop where
  evolves : PartList.Evolves K r.partList ds s.partList
  parts : s.parts.map Part.id = r.parts.map Part.id ++ ds.filterMap Declaration.part?

namespace Reading.Enlists

/-- A step that keeps all that was declared enlists nothing. -/
theorem of_keeps {α : Type} {x : Step α} {a : α} (hx : Keeps .declared x) (h : Ends x r a s) :
    Enlists K r [] s := by
  have hsame := hx r a s h
  rw [Sight.declared, Prod.mk.injEq] at hsame
  refine ⟨hsame.1 ▸ .refl _, ?_⟩
  rw [List.filterMap_nil, List.append_nil]
  exact hsame.2

/-- A group that is stopped is moved, and so nothing is enlisted. -/
theorem stopGroup {e : Element} {draft : GroupDraft} {rest : PartList} (hname : e.name = "part-group")
    (hstop : e.attr? "type" = some "stop")
    (htaken : r.partList.takeGroup? e.groupNumber = some (draft, rest))
    (hK : (Move.leaf e).Meets K r.partList)
    (h : Ends (do
      Partwise.changePartList fun _ => rest
      Partwise.closeGroup draft) r u s) : Enlists K r [] s := by
  obtain ⟨_, r₁, htake, hclose⟩ := h.bind
  obtain ⟨_, r₂, htell, hplace⟩ := hclose.bind
  obtain ⟨outer, inner, hsplit, hanswers, _, rfl⟩ := PartList.of_takeGroup htaken
  have hstops : r.partList.Stops e outer draft inner := ⟨hname, hstop, hsplit, hanswers, htaken⟩
  have hexplicit : draft.heading.isImplicit = false := by
    simp only [GroupDraft.answers, Bool.and_eq_true, Bool.not_eq_true'] at hanswers
    exact hanswers.1
  rw [hplace.modify, htell.tell, htake.modify]
  exact ⟨PartList.Changes.evolves
    (.moved outer inner draft hsplit (.inl hexplicit) (hK e outer draft inner rfl hstops)),
    (List.append_nil _).symm⟩

/-- A start or a stop of a group enlists what it declares. -/
theorem readPartGroup {e : Element} (hname : e.name = "part-group")
    (hK : (Move.leaf e).Meets K r.partList) (h : Ends (Partwise.readPartGroup e) r u s) :
    ∃ ds, Enlists K r ds s ∧ r.Declares (.leaf e) ds := by
  have hleaf : (Move.leaf e).declaration? =
      if e.attr? "type" = some "start" then
        (result (PartGroup.ofElement e e.groupNumber)).map .group
      else none := by
    simp [Move.declaration?, Markup.Element.startsGroup, hname, Markup.Element.groupNumber]
  unfold Partwise.readPartGroup at h
  extract_lets number at h
  split at h
  · next htype =>
    have htype := Element.attr?_of_getD htype (by decide)
    obtain ⟨group, r₁, hread, hrest⟩ := h.bind
    obtain ⟨_, r₂, htell, hopen⟩ := hrest.bind
    obtain ⟨hgives, rfl⟩ := hread.lift
    obtain ⟨hbare, hexplicit⟩ := PartGroup.of_gives hgives
    rw [htell.tell] at hopen
    refine ⟨[.group group], ⟨?_, ?_⟩, .group group ?_ hexplicit⟩
    · rw [hopen.modify]
      refine PartList.Changes.evolves (.opened group hbare ?_)
      rw [hexplicit]
      exact nofun
    · rw [hopen.modify]
      exact (List.append_nil _).symm
    · rw [hleaf, if_pos htype]
      have hresult := hgives.result (PartGroup.steady e number)
      exact congrArg (Option.map Declaration.group) hresult
  · next htype =>
    have htype := Element.attr?_of_getD htype (by decide)
    have hnothing : (Move.leaf e).declaration? = none := by
      rw [hleaf, htype, if_neg (by decide)]
    obtain ⟨_, _, hget, hrest⟩ := h.bind
    obtain ⟨rfl, rfl⟩ := hget.get
    split at hrest
    · next draft rest htaken =>
      exact ⟨[], stopGroup hname htype htaken hK hrest, .nothing hnothing⟩
    · rw [hrest.find]
      exact ⟨[], ⟨.refl _, (List.append_nil _).symm⟩, .nothing hnothing⟩
  · next hstart _ =>
    rw [h.find]
    refine ⟨[], ⟨.refl _, (List.append_nil _).symm⟩, .nothing ?_⟩
    rw [hleaf, if_neg fun htype => hstart (by rw [htype]; rfl)]

/-- A part that is declared is enlisted, with an implicit group if it stands outside of all groups.
-/
theorem readScorePart {e : Element} (hname : e.name = "score-part")
    (h : Ends (Partwise.readScorePart e) r u s) :
    ∃ ds, Enlists K r ds s ∧ r.Declares (.leaf e) ds := by
  have hleaf : (Move.leaf e).declaration? = (e.attr? "id").map .part := by
    simp [Move.declaration?, hname]
  unfold Partwise.readScorePart at h
  split at h
  · next id hid =>
    have hmove : (Move.leaf e).declaration? = some (.part id) := by rw [hleaf, hid]; rfl
    obtain ⟨_, _, hget, hrest₁⟩ := h.bind
    obtain ⟨rfl, rfl⟩ := hget.get
    split at hrest₁
    · next hknown =>
      obtain ⟨part, hpart, heq⟩ := List.any_eq_true.mp hknown
      rw [hrest₁.find]
      exact ⟨[], ⟨.refl _, (List.append_nil _).symm⟩,
        .again id hmove (List.mem_map.mpr ⟨part, hpart, of_decide_eq_true heq⟩)⟩
    · next hunknown =>
      have hnew : id ∉ r.parts.map Part.id := by
        intro hmem
        obtain ⟨part, hpart, heq⟩ := List.mem_map.mp hmem
        exact hunknown (List.any_eq_true.mpr ⟨part, hpart, decide_eq_true heq⟩)
      obtain ⟨_, _, hget', hrest₂⟩ := hrest₁.bind
      obtain ⟨rfl, rfl⟩ := hget'.get
      extract_lets declare at hrest₂
      have hdeclare : ∀ {r₁ : Reading} (before : List Declaration), Enlists K r before r₁ →
          r₁.partList.openGroups ≠ [] → before.filterMap Declaration.part? = [] →
          Ends (declare ()) r₁ u s → Enlists K r (before ++ [.part id]) s := by
        intro r₁ before hbefore hopen hnone hrun
        obtain ⟨_, r₂, hlist, hrest₃⟩ := hrun.bind
        obtain ⟨_, r₃, htell, hadd⟩ := hrest₃.bind
        have hparts := hbefore.parts
        rw [hnone, List.append_nil] at hparts
        rw [hadd.modify, htell.tell, hlist.modify]
        refine ⟨hbefore.evolves.trans (PartList.Changes.declared id hopen).evolves, ?_⟩
        rw [List.filterMap_append, hnone, List.map_append]
        exact congrArg (· ++ [id]) hparts
      split at hrest₂
      · next hnone =>
        have hnone : r.partList.openGroups = [] := List.isEmpty_iff.mp hnone
        obtain ⟨_, r₁, hopen, hrun⟩ := hrest₂.bind
        have hchange : PartList.Changes K r.partList [.group (PartGroup.implicit e.line)]
            (r.partList.openGroup (PartGroup.implicit e.line)) :=
          .opened _ rfl fun _ => ⟨hnone, rfl⟩
        refine ⟨_, hdeclare [.group (PartGroup.implicit e.line)] ⟨?_, ?_⟩ ?_ rfl hrun,
          .outside id e.line hmove hnew hnone⟩
        · rw [hopen.modify]
          exact hchange.evolves
        · rw [hopen.modify]
          exact (List.append_nil _).symm
        · rw [hopen.modify]
          exact PartList.openGroup_ne_nil hnone
      · next hsome =>
        have hsome : r.partList.openGroups ≠ [] := by simpa using hsome
        exact ⟨_, hdeclare [] ⟨.refl _, (List.append_nil _).symm⟩ hsome rfl hrest₂,
          .part id hmove hnew hsome⟩
  · exact absurd h not_ends_throw

/-- That the innermost open group is closed declares nothing. -/
theorem closeInnermost (hinnermost : ∀ draft, K draft []) {line : Nat}
    (h : Ends (Partwise.closeInnermost line) r u s) :
    PartList.Evolves K r.partList [] s.partList := by
  obtain ⟨_, _, hget, hmatch⟩ := h.bind
  obtain ⟨rfl, rfl⟩ := hget.get
  dsimp only at hmatch
  split at hmatch
  · next draft hlast =>
    obtain ⟨_, r₁, hdrop, hrest⟩ := hmatch.bind
    obtain ⟨r₂, hsame, hclose⟩ : ∃ r₂, r₂ = r₁ ∧ Ends (closeGroup draft) r₂ u s := by
      split at hrest
      · obtain ⟨_, r₂, hfind, hclose⟩ := hrest.bind
        exact ⟨r₂, hfind.find, hclose⟩
      · exact ⟨r₁, rfl, hrest⟩
    obtain ⟨_, r₃, htell, hplace⟩ := hclose.bind
    have hmoved := PartList.Changes.moved (K := K) r.partList.openGroups.dropLast [] draft
      (List.dropLast_append_getLast? draft hlast).symm (.inr rfl) (hinnermost draft)
    rw [PartList.without, List.append_nil] at hmoved
    rw [hplace.modify, htell.tell, hsame, hdrop.modify]
    exact hmoved.evolves
  · rw [hmatch.pure.2]
    exact .refl _

/-- That all open groups are closed enlists nothing. -/
theorem closeGroups (hinnermost : ∀ draft, K draft []) {line : Nat}
    (h : Ends (Partwise.closeGroups line) r u s) : Enlists K r [] s := by
  refine ⟨?_, ?_⟩
  · obtain ⟨_, _, hget, hclose⟩ := h.bind
    obtain ⟨rfl, rfl⟩ := hget.get
    exact hclose.forM (P := fun s => PartList.Evolves K r.partList [] s.partList) (.refl _)
      fun _ _ _ _ hbefore hrun => hbefore.trans (closeInnermost hinnermost hrun)
  · rw [(SameMusic.closeGroups h).parts]
    exact (List.append_nil _).symm

/-- **Every move** enlists what it declares. -/
theorem perform {settings : Settings} {m : Move} (hK : m.Meets K r.partList)
    (hinnermost : ∀ line, m = .leavePartList line → ∀ draft, K draft [])
    (h : Ends (m.perform settings) r () s) : ∃ ds, Enlists K r ds s ∧ r.Declares m ds := by
  have hkeeps : Keeps .declared (m.perform settings) → m.declaration? = none →
      ∃ ds, Enlists K r ds s ∧ r.Declares m ds :=
    fun hkeeps hnothing => ⟨[], of_keeps hkeeps h, .nothing hnothing⟩
  cases m with
  | enterPart e => exact hkeeps Keeps.declared_enterPart rfl
  | leavePart e => exact hkeeps Keeps.declared_leavePart rfl
  | enterMeasure e => exact hkeeps Keeps.discipline.discipline.enterMeasure rfl
  | leaveMeasure e =>
    exact hkeeps (Keeps.discipline.discipline.leaveMeasure (.of_lift Keeps.lift)) rfl
  | leavePartList line => exact ⟨[], closeGroups (hinnermost line rfl) h, .nothing rfl⟩
  | leaf e =>
    have h : Ends (readLeaf settings e) r () s := h
    by_cases hgroup : e.name = "part-group"
    · simp only [readLeaf, hgroup] at h
      exact readPartGroup hgroup hK h
    · by_cases hpart : e.name = "score-part"
      · simp only [readLeaf, hpart] at h
        exact readScorePart hpart h
      · refine hkeeps (Keeps.declared_readLeaf hgroup hpart) ?_
        simp [Move.declaration?, Markup.Element.startsGroup, hgroup, hpart]

end Reading.Enlists

/-! ## What moves declare -/

/-- A move declares nothing, or one thing more, unless that was declared before. -/
theorem declarationsOf_append (done : List Move) (m : Move) :
    declarationsOf (done ++ [m]) = (m.declaration?).elim (declarationsOf done)
      (heed (declarationsOf done)) := by
  unfold declarationsOf
  rw [List.filterMap_append, List.foldl_append]
  cases hm : m.declaration? <;> simp [hm]

/-- What counts is all that was declared. -/
theorem mem_declarationsOf {ms : List Move} {d : Declaration} :
    d ∈ declarationsOf ms ↔ ∃ m ∈ ms, m.declaration? = some d := by
  have hheed : ∀ ds e, d ∈ heed ds e ↔ d ∈ ds ∨ d = e := by
    intro ds e
    cases e with
    | part id =>
      rw [heed]
      split
      · next hmem =>
        refine ⟨.inl, ?_⟩
        rintro (hd | rfl)
        · exact hd
        · exact hmem
      · rw [List.mem_append, List.mem_singleton]
    | group heading => rw [heed, List.mem_append, List.mem_singleton]
  induction ms using List.reverseRecOn with
  | nil => simp [declarationsOf]
  | append_singleton ms m ih =>
    rw [declarationsOf_append]
    cases hm : m.declaration? with
    | none => simp [ih, hm]
    | some e => simp [ih, hm, hheed, eq_comm]

/-- Every start of a group counts. -/
theorem groups_declarationsOf (ms : List Move) :
    (declarationsOf ms).filterMap Declaration.group? =
      ms.filterMap fun m => m.declaration?.bind Declaration.group? := by
  induction ms using List.reverseRecOn with
  | nil => rfl
  | append_singleton ms m ih =>
    rw [declarationsOf_append, List.filterMap_append, ← ih]
    cases hm : m.declaration? with
    | none => simp [hm]
    | some d =>
      cases d with
      | part id =>
        simp only [Option.elim_some, heed]
        split <;> simp [hm, Declaration.group?]
      | group heading => simp [hm, heed, Declaration.group?]

/-- Parts do stand in the document. -/
theorem parts_filter (log : List Declaration) :
    (log.filter fun d => !d.isImplicit).filterMap Declaration.part? =
      log.filterMap Declaration.part? := by
  induction log with
  | nil => rfl
  | cons d log ih =>
    cases d with
    | part id => exact congrArg (id :: ·) ih
    | group heading =>
      rw [List.filter_cons]
      split <;> exact ih

/-- After some moves, a reading has what they declare: `log` is all that the part list has, the
implicit groups included. -/
structure Reading.Enlisted (done : List Move) (log : List Declaration) (r : Reading) : Prop where
  logged : r.partList.Logged log
  parts : r.parts.map Part.id = log.filterMap Declaration.part?
  distinct : (r.parts.map Part.id).Nodup
  counts : (log.filter fun d => !d.isImplicit) = declarationsOf done

namespace Reading.Enlisted

variable {done : List Move} {log ds : List Declaration}

/-- Before any move nothing is enlisted. -/
theorem empty : Enlisted [] [] {} := ⟨.empty, rfl, .nil, rfl⟩

/-- The parts are those that were declared, in the order of their declarations. -/
theorem parts_eq (h : Enlisted done log r) :
    r.parts.map Part.id = (declarationsOf done).filterMap Declaration.part? := by
  rw [h.parts, ← h.counts, parts_filter]

/-- A part is there if and only if it was declared. -/
theorem mem_parts (h : Enlisted done log r) (id : String) :
    id ∈ r.parts.map Part.id ↔ .part id ∈ declarationsOf done := by
  rw [h.parts_eq, List.mem_filterMap]
  constructor
  · rintro ⟨d, hd, hid⟩
    cases d with
    | part id' =>
      cases hid
      exact hd
    | group heading => exact nomatch hid
  · exact fun hd => ⟨_, hd, rfl⟩

/-- One more move enlists what it declares behind what was declared before. -/
theorem move (h : Enlisted done log r) {m : Move} (henlists : Enlists K r ds s)
    (hdeclares : r.Declares m ds) : Enlisted (done ++ [m]) (log ++ ds) s where
  logged := h.logged.evolve henlists.evolves
  parts := by rw [henlists.parts, h.parts, List.filterMap_append]
  distinct := by
    have hnew : ∀ id, id ∉ r.parts.map Part.id → (r.parts.map Part.id ++ [id]).Nodup := by
      intro id hid
      exact List.nodup_append.mpr ⟨h.distinct, List.nodup_singleton id,
        fun a ha b hb hab => hid (List.mem_singleton.mp hb ▸ hab ▸ ha)⟩
    rw [henlists.parts]
    cases hdeclares with
    | nothing => simpa using h.distinct
    | again => simpa using h.distinct
    | part id _ new => exact hnew id new
    | outside id _ _ new => exact hnew id new
    | group => simpa [Declaration.part?, List.filterMap_cons] using h.distinct
  counts := by
    rw [List.filter_append, h.counts, declarationsOf_append]
    cases hdeclares with
    | nothing hmove => simp [hmove]
    | again id hmove known =>
      simp [hmove, heed, (h.mem_parts id).mp known]
    | part id hmove new =>
      simp [hmove, heed, mt (h.mem_parts id).mpr new, Declaration.isImplicit]
    | outside id _ hmove new =>
      simp [hmove, heed, mt (h.mem_parts id).mpr new, Declaration.isImplicit, PartGroup.implicit]
    | group heading hmove explicit =>
      simp [hmove, heed, Declaration.isImplicit, explicit]

end Reading.Enlisted

/-! ## Groups for parts outside all groups -/

/-- The move declares a part. -/
def Move.declaresPart (m : Move) : Bool := (m.declaration?.bind Declaration.part?).isSome

/-- Wherever a part list ends, either all declarations of parts are still to come or none is. So it
is where a document has them all in one part list. -/
def DeclaredTogether (ms : List Move) : Prop :=
  ∀ before line after, ms = before ++ .leavePartList line :: after →
    (∀ m ∈ before, m.declaresPart = false) ∨ ∀ m ∈ after, m.declaresPart = false

/-- An implicit group is open. -/
def PartList.HasImplicit (l : PartList) : Prop :=
  ∃ heading ∈ l.openGroups.map GroupDraft.heading, heading.isImplicit = true

/-- A group that stands in the document is moved. -/
def GroupDraft.IsExplicit (d : GroupDraft) (_ : List GroupDraft) : Prop :=
  d.heading.isImplicit = false

namespace PartList

variable {l l' : PartList} {ds : List Declaration}

/-- An implicit group stays open as long as only explicit ones are closed. -/
theorem HasImplicit.change (h : Changes GroupDraft.IsExplicit l ds l')
    (hl : l.HasImplicit ∨ ∃ d ∈ ds, d.isImplicit = true) : l'.HasImplicit := by
  cases h with
  | opened group _ _ =>
    obtain ⟨outer, inner, hold, hnew, _⟩ := l.openGroup_eq group
    unfold HasImplicit
    rw [hnew]
    rcases hl with ⟨heading, hheading, himplicit⟩ | ⟨d, hd, himplicit⟩
    · rw [hold] at hheading
      refine ⟨heading, ?_, himplicit⟩
      simp only [List.map_append, List.map_cons, List.mem_append, List.mem_cons] at hheading ⊢
      exact hheading.imp_right .inr
    · cases List.mem_singleton.mp hd
      exact ⟨group, by simp, himplicit⟩
  | declared id _ =>
    rcases hl with hl | ⟨d, hd, himplicit⟩
    · unfold HasImplicit declarePart
      rwa [headings_insertInnermost]
    · cases List.mem_singleton.mp hd
      exact absurd himplicit Bool.false_ne_true
  | moved outer inner draft hopen _ explicit =>
    obtain ⟨heading, hheading, himplicit⟩ := hl.resolve_right (by simp)
    have hleft : heading ∈ (outer ++ inner).map GroupDraft.heading := by
      rw [hopen] at hheading
      simp only [List.map_append, List.map_cons, List.mem_append, List.mem_cons] at hheading ⊢
      rcases hheading with houter | rfl | hinner
      · exact .inl houter
      · exact absurd himplicit (Bool.eq_false_iff.mp explicit)
      · exact .inr hinner
    refine ⟨heading, ?_, himplicit⟩
    unfold place
    split
    · exact hleft
    · rw [headings_insertInnermost]
      exact hleft

/-- There is an implicit group after some changes, if there was one before them or one was declared
by them. -/
theorem HasImplicit.evolve (h : Evolves GroupDraft.IsExplicit l ds l')
    (hl : l.HasImplicit ∨ ∃ d ∈ ds, d.isImplicit = true) : l'.HasImplicit := by
  induction h with
  | refl l => exact hl.resolve_right (by simp)
  | step first _ ih =>
    refine ih ?_
    rcases hl with hl | ⟨d, hd, himplicit⟩
    · exact .inl (.change first (.inl hl))
    · rcases List.mem_append.mp hd with hd | hd
      · exact .inl (.change first (.inr ⟨d, hd, himplicit⟩))
      · exact .inr ⟨d, hd, himplicit⟩

end PartList

/-- There was at most one implicit group: none so far, or one that is open, or one that was closed
at the end of a part list after a declaration. -/
structure Reading.Sheltered (done : List Move) (log : List Declaration) (r : Reading) : Prop where
  atMostOne : (log.filter Declaration.isImplicit).length ≤ 1
  declared : log.filter Declaration.isImplicit ≠ [] → ∃ m ∈ done, m.declaresPart = true
  here : log.filter Declaration.isImplicit = [] ∨ r.partList.HasImplicit ∨
    ∃ before line after, done = before ++ .leavePartList line :: after ∧
      ∃ m ∈ before, m.declaresPart = true

namespace Reading.Sheltered

variable {settings : Settings} {done rest : List Move} {m : Move} {log ds : List Declaration}

/-- Before any move there is no implicit group. -/
theorem empty : Sheltered [] [] {} := ⟨Nat.zero_le 1, fun h => absurd rfl h, .inl rfl⟩

/-- There was at most one implicit group also after the end of a part list. -/
theorem leavePartList (h : r.Sheltered done log) (line : Nat) (s : Reading) :
    s.Sheltered (done ++ [.leavePartList line]) log where
  atMostOne := h.atMostOne
  declared hsome := by
    obtain ⟨m, hm, hpart⟩ := h.declared hsome
    exact ⟨m, List.mem_append_left _ hm, hpart⟩
  here := by
    by_cases hnone : log.filter Declaration.isImplicit = []
    · exact .inl hnone
    · exact .inr (.inr ⟨done, line, [], rfl, h.declared hnone⟩)

/-- There was at most one implicit group also after a move that brings none. -/
theorem keep (h : r.Sheltered done log)
    (henlists : r.Enlists GroupDraft.IsExplicit ds s) (m : Move)
    (hnone : ds.filter Declaration.isImplicit = []) : s.Sheltered (done ++ [m]) (log ++ ds) where
  atMostOne := by
    rw [List.filter_append, hnone, List.append_nil]
    exact h.atMostOne
  declared hsome := by
    rw [List.filter_append, hnone, List.append_nil] at hsome
    obtain ⟨m', hm', hpart⟩ := h.declared hsome
    exact ⟨m', List.mem_append_left _ hm', hpart⟩
  here := by
    rw [List.filter_append, hnone, List.append_nil]
    rcases h.here with hold | hopen | ⟨before, line, after, rfl, hbefore⟩
    · exact .inl hold
    · exact .inr (.inl (PartList.HasImplicit.evolve henlists.evolves (.inl hopen)))
    · exact .inr (.inr ⟨before, line, after ++ [m], by simp, hbefore⟩)

/-- There was at most one implicit group also after a part was declared outside of all groups, if
all declarations are together. -/
theorem outside (h : r.Sheltered done log) {id : String} {line : Nat}
    (hmove : m.declaration? = some (.part id)) (hnone : r.partList.openGroups = [])
    (henlists : r.Enlists GroupDraft.IsExplicit [.group (PartGroup.implicit line), .part id] s)
    (htogether : DeclaredTogether (done ++ m :: rest)) :
    s.Sheltered (done ++ [m]) (log ++ [.group (PartGroup.implicit line), .part id]) := by
  have hpart : m.declaresPart = true := by
    rw [Move.declaresPart, hmove]
    rfl
  have hlog : log.filter Declaration.isImplicit = [] := by
    rcases h.here with hnew | ⟨heading, hheading, _⟩ | ⟨before, line, after, rfl, m', hm', hpart'⟩
    · exact hnew
    · rw [hnone] at hheading
      exact nomatch hheading
    · -- a part list has ended between the two declarations
      rcases htogether before line (after ++ m :: rest) (by simp) with hbefore | hafter
      · rw [hbefore m' hm'] at hpart'
        exact nomatch hpart'
      · rw [hafter m (by simp)] at hpart
        exact nomatch hpart
  refine ⟨?_, fun _ => ⟨m, by simp, hpart⟩, .inr (.inl ?_)⟩
  · rw [List.filter_append, hlog]
    exact Nat.le_refl 1
  · exact PartList.HasImplicit.evolve henlists.evolves (.inr ⟨_, List.mem_cons_self, rfl⟩)

/-- **One more move** of a document that has all declarations together. -/
theorem move (h : r.Sheltered done log) (henlisted : r.Enlisted done log)
    (htogether : DeclaredTogether (done ++ m :: rest)) (hrun : Ends (m.perform settings) r () s) :
    ∃ ds, s.Sheltered (done ++ [m]) (log ++ ds) ∧ s.Enlisted (done ++ [m]) (log ++ ds) := by
  by_cases hleave : ∃ line, m = .leavePartList line
  · obtain ⟨line, rfl⟩ := hleave
    obtain ⟨ds, henlists, hdeclares⟩ := Enlists.perform (K := fun _ _ => True)
      (fun _ _ _ _ _ _ => trivial) (fun _ _ _ => trivial) hrun
    have hnone : ds = [] := by
      cases hdeclares with
      | nothing => rfl
      | again | part | outside | group => contradiction
    subst hnone
    refine ⟨[], ?_, henlisted.move henlists hdeclares⟩
    rw [List.append_nil]
    exact h.leavePartList line s
  · have hmeets : m.Meets GroupDraft.IsExplicit r.partList := by
      intro e outer draft inner _ hstops
      have hanswers := hstops.answers
      simp only [GroupDraft.answers, Bool.and_eq_true, Bool.not_eq_true'] at hanswers
      exact hanswers.1
    obtain ⟨ds, henlists, hdeclares⟩ := Enlists.perform hmeets
      (fun line hm => absurd ⟨line, hm⟩ hleave) hrun
    refine ⟨ds, ?_, henlisted.move henlists hdeclares⟩
    cases hdeclares with
    | nothing | again => exact h.keep henlists m rfl
    | part => exact h.keep henlists m rfl
    | outside id line hmove _ hnone => exact h.outside hmove hnone henlists htogether
    | group heading _ explicit =>
      refine h.keep henlists m ?_
      simp [Declaration.isImplicit, explicit]

end Reading.Sheltered

/-- **A document** that is read enlists all that it declares. -/
theorem Follows.enlisted {settings : Settings} {ms : List Moment} {done : List Move}
    {log : List Declaration} (h : Follows settings r ms s) (hr : r.Enlisted done log) :
    ∃ log', s.Enlisted (done ++ ms.map Moment.move) log' := by
  induction h generalizing done log with
  | nil r => exact ⟨log, by simpa using hr⟩
  | @cons m ms t hstep _ ih =>
    obtain ⟨ds, henlists, hdeclares⟩ := Reading.Enlists.perform (K := fun _ _ => True)
      (fun _ _ _ _ _ _ => trivial) (fun _ _ _ => trivial) hstep
    obtain ⟨log', hlog'⟩ := ih (hr.move henlists hdeclares)
    exact ⟨log', by simpa using hlog'⟩

/-- After all moves the part list has what was declared, the implicit groups included, where all
declarations are together. -/
theorem Follows.sheltered {settings : Settings} {ms : List Moment} {done : List Move}
    {log : List Declaration} (h : Follows settings r ms s) (hr : r.Enlisted done log)
    (hsheltered : r.Sheltered done log)
    (htogether : DeclaredTogether (done ++ ms.map Moment.move)) :
    ∃ log', s.Enlisted (done ++ ms.map Moment.move) log' ∧
      s.Sheltered (done ++ ms.map Moment.move) log' := by
  induction h generalizing done log with
  | nil r => exact ⟨log, by simpa using hr, by simpa using hsheltered⟩
  | @cons m ms t hstep _ ih =>
    obtain ⟨ds, hmoved, henlisted⟩ := hsheltered.move hr htogether hstep
    obtain ⟨log', hlog'⟩ := ih henlisted hmoved (by simpa using htogether)
    exact ⟨log', by simpa using hlog'⟩

end Partwise
