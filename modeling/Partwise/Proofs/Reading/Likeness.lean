import Mathlib.Data.List.Forall2
import Partwise.Proofs.Music.Folding
import Partwise.Proofs.Reading.Deeds
import Partwise.Proofs.Reading.Limits
import Partwise.Proofs.Reading.Views

/-!
# Reading · Likeness: two readings side by side

Two documents, or one document under two settings, are read step by step. Two steps are `Parallel`
if from readings that are alike they end in readings that are alike, come to values that correspond
and find the same. By which standard failures and findings are compared is a `Standard`; a
`Likeness` adds when parts, tuplets, notes and waiting marks are alike.

Parallel steps stay so one after the other (`Parallel.bind`), so it is proved of a procedure along
its text, from the elementary steps below. A step that is parallel to itself keeps what the likeness
of a reading to itself says (`ParallelAt.ends`): an invariant is a likeness as well.
-/

namespace Partwise

variable {α β γ δ : Type}

/-! ## Standards -/

/-- By what two readings are compared. -/
structure Standard where
  /-- The diagnostics that count. -/
  heeds : Diagnostic → Bool
  /-- The second reading may fail like this where the first one fails. -/
  fails : Failure → Failure → Prop
  /-- Where the first reading fails, nothing is asked of the second. -/
  lenient : Prop

namespace Standard

variable (S : Standard)

/-- The diagnostics of a journal that count. -/
def heard (j : Journal) : List Diagnostic :=
  j.diagnostics.marks.filter S.heeds

/-- What counts of two journals, one after the other, is what counts of the earlier one and then of
the later one. -/
theorem heard_append (said j : Journal) : S.heard (said ++ j) = S.heard j ++ S.heard said := by
  simp [heard, Journal.diagnostics]

/-- An event is not heard, for it is no finding. -/
theorem heard_event (e : Event) (j : Journal) : S.heard (.event e :: j) = S.heard j := by
  rw [← List.singleton_append, heard_append]
  exact List.append_nil _

/-- Two runs agree: both end well and come to values in relation, or the first one fails and the
second one does what the standard asks of it then. -/
inductive Agree (A : α → β → Prop) :
    Except Failure α × Journal → Except Failure β × Journal → Prop
  | ends {a : α} {b : β} {j k : Journal} (values : A a b) (journals : S.heard j = S.heard k) :
      Agree A (.ok a, j) (.ok b, k)
  | fails {f g : Failure} {j k : Journal} (h : S.fails f g) : Agree A (.error f, j) (.error g, k)
  | spared {f : Failure} {j : Journal} {y : Except Failure β × Journal} (h : S.lenient) :
      Agree A (.error f, j) y

end Standard

/-! ## Decoders side by side -/

/-- Two decoders come to values in relation and find the same. -/
def Concur (S : Standard) (A : α → β → Prop) (x : Journaled α) (y : Journaled β) : Prop :=
  ∀ j k, S.heard j = S.heard k → S.Agree A (x.run.run j) (y.run.run k)

variable {S : Standard} {A : α → β → Prop} {B : γ → δ → Prop}

namespace Concur

/-- Decoders that only give values concur if these are in relation. -/
theorem pure {a : α} {b : β} (h : A a b) : Concur S A (Pure.pure a) (Pure.pure b) :=
  fun _ _ hjk => .ends h hjk

/-- Decoders that fail concur if the second one may fail as it does. -/
theorem throw {f g : Failure} (h : S.fails f g) :
    Concur S A (MonadExcept.throw f : Journaled α) (MonadExcept.throw g : Journaled β) :=
  fun _ _ _ => .fails h

/-- Two decoders, and what follows on whatever they come to. -/
theorem bind {x : Journaled α} {y : Journaled β} {f : α → Journaled γ} {g : β → Journaled δ}
    (hx : Concur S A x y) (hf : ∀ a b, A a b → Concur S B (f a) (g b)) :
    Concur S B (x >>= f) (y >>= g) := by
  intro j k hjk
  have hxy := hx j k hjk
  rw [ExceptT.run_bind, StateT.run_bind, ExceptT.run_bind, StateT.run_bind]
  generalize x.run.run j = p at hxy
  generalize y.run.run k = q at hxy
  cases hxy with
  | ends hab hjk' => exact hf _ _ hab _ _ hjk'
  | fails h => exact .fails h
  | spared h => exact .spared h

/-- What the values have in common may be said with less. -/
theorem mono {A' : α → β → Prop} {x : Journaled α} {y : Journaled β} (h : Concur S A x y)
    (hA : ∀ a b, A a b → A' a b) : Concur S A' x y := by
  intro j k hjk
  have hxy := h j k hjk
  generalize x.run.run j = p at hxy
  generalize y.run.run k = q at hxy
  cases hxy with
  | ends hab hjk' => exact .ends (hA _ _ hab) hjk'
  | fails h => exact .fails h
  | spared h => exact .spared h

/-- A decoder that does not look at the journal concurs with itself in what it comes to. -/
theorem given {x : Journaled α} (hx : Blind x) (hfails : ∀ f, S.fails f f) :
    Concur S (fun a b => a = b ∧ Gives x a) x x := by
  intro j k hjk
  obtain ⟨f | a, said, hrun⟩ := hx
  · rw [hrun, hrun]
    exact .fails (hfails f)
  · have hgives : Gives x a := ⟨j, said ++ j, hrun j⟩
    rw [hrun, hrun]
    exact .ends ⟨rfl, hgives⟩ (by rw [S.heard_append, S.heard_append, hjk])

/-- A decoder that does not look at the journal concurs with itself. -/
theorem refl {x : Journaled α} (hx : Blind x) (hfails : ∀ f, S.fails f f) : Concur S Eq x x :=
  (given hx hfails).mono fun _ _ => And.left

/-- Decoders that come to the same have the same result. -/
theorem result_eq {x y : Journaled α} (h : Concur S Eq x y) (hexacting : ¬ S.lenient) :
    result y = result x := by
  have hagree := h [] [] rfl
  unfold result
  generalize x.run.run [] = p at hagree ⊢
  generalize y.run.run [] = q at hagree ⊢
  cases hagree with
  | ends hab => rw [hab]
  | fails => rfl
  | spared hspared => exact absurd hspared hexacting

/-- Whatever is told, it is no finding. -/
theorem tell (e e' : Event) : Concur S Eq (Partwise.tell e) (Partwise.tell e') :=
  fun _ _ hjk => .ends rfl (by rw [S.heard_event, S.heard_event, hjk])

end Concur

/-! ## Steps side by side -/

/-- From the readings `r` and `s` the two steps run in parallel. -/
def ParallelAt (S : Standard) (R : Reading → Reading → Prop) (A : α → β → Prop) (r s : Reading)
    (x : Step α) (y : Step β) : Prop :=
  Concur S (fun p q => A p.1 q.1 ∧ R p.2 q.2) (x.run r) (y.run s)

/-- From readings in the first relation the two steps come to readings in the second one. -/
def Parallel (S : Standard) (Q R : Reading → Reading → Prop) (A : α → β → Prop) (x : Step α)
    (y : Step β) : Prop :=
  ∀ r s, Q r s → ParallelAt S R A r s x y

variable {Q R T : Reading → Reading → Prop} {r s : Reading}

namespace ParallelAt

/-- Steps that only give values are parallel from two readings if the values and the readings are in
relation. -/
theorem pure {a : α} {b : β} (hab : A a b) (hr : R r s) :
    ParallelAt S R A r s (Pure.pure a) (Pure.pure b) :=
  Concur.pure ⟨hab, hr⟩

/-- Steps that fail are parallel from any two readings if the second one may fail as it does. -/
theorem throw {f g : Failure} (h : S.fails f g) :
    ParallelAt S R A r s (MonadExcept.throw f : Step α) (MonadExcept.throw g : Step β) :=
  fun _ _ _ => .fails h

/-- Two steps, and what follows on whatever they come to. -/
theorem bind {x : Step α} {y : Step β} {f : α → Step γ} {g : β → Step δ}
    (hx : ParallelAt S R A r s x y)
    (hf : ∀ a b r' s', A a b → R r' s' → ParallelAt S T B r' s' (f a) (g b)) :
    ParallelAt S T B r s (x >>= f) (y >>= g) :=
  Concur.bind hx fun p q h => hf p.1 q.1 p.2 q.2 h.1 h.2

/-- What the values and readings have in common may be said with less. -/
theorem mono {A' : α → β → Prop} {x : Step α} {y : Step β} (h : ParallelAt S Q A r s x y)
    (hA : ∀ a b, A a b → A' a b) (hR : ∀ r' s', Q r' s' → R r' s') :
    ParallelAt S R A' r s x y :=
  Concur.mono h fun _ _ h => ⟨hA _ _ h.1, hR _ _ h.2⟩

/-- Decoders leave the readings as they are. -/
theorem lift {x : Journaled α} {y : Journaled β} (h : Concur S A x y) (hr : R r s) :
    ParallelAt S R A r s (liftM x) (liftM y) :=
  Concur.bind h fun _ _ hab => Concur.pure ⟨hab, hr⟩

/-- The first reading also keeps what its step keeps. -/
theorem keep {P : Reading → Prop} {x : Step α} {y : Step β} (h : ParallelAt S R A r s x y)
    (hx : ∀ a t, Ends x r a t → P t) : ParallelAt S (fun p q => R p q ∧ P p) A r s x y := by
  intro j k hjk
  have hagree := h j k hjk
  generalize (y.run s).run.run k = q at hagree ⊢
  rcases hrun : (x.run r).run.run j with ⟨_ | ⟨a, t⟩, j'⟩
  · rw [hrun] at hagree
    cases hagree with
    | fails hfails => exact .fails hfails
    | spared hspared => exact .spared hspared
  · rw [hrun] at hagree
    cases hagree with
    | ends hr hjk' => exact .ends ⟨hr.1, hr.2, hx a t ⟨j, j', hrun⟩⟩ hjk'

/-- The second reading also keeps what its step keeps. -/
theorem keep' {P : Reading → Prop} {x : Step α} {y : Step β} (h : ParallelAt S R A r s x y)
    (hy : ∀ b u, Ends y s b u → P u) : ParallelAt S (fun p q => R p q ∧ P q) A r s x y := by
  intro j k hjk
  have hagree := h j k hjk
  generalize (x.run r).run.run j = p at hagree ⊢
  rcases hrun : (y.run s).run.run k with ⟨_ | ⟨b, u⟩, k'⟩
  · rw [hrun] at hagree
    cases hagree with
    | fails hfails => exact .fails hfails
    | spared hspared => exact .spared hspared
  · rw [hrun] at hagree
    cases hagree with
    | ends hr hjk' => exact .ends ⟨hr.1, hr.2, hy b u ⟨k, k', hrun⟩⟩ hjk'
    | spared hspared => exact .spared hspared

/-- **What a step that is parallel to itself does** to a reading that is alike to itself. -/
theorem ends {A : α → α → Prop} {x : Step α} {t : Reading} {a : α}
    (h : ParallelAt S R A r r x x) (hrun : Ends x r a t) : R t t := by
  obtain ⟨j, j', hrun⟩ := hrun
  have hagree := h j j rfl
  rw [hrun] at hagree
  cases hagree with
  | ends hr _ => exact hr.2

/-- Nothing is asked where the first step never ends well. -/
theorem spared {x : Step α} {y : Step β} (h : S.lenient) (hx : ∀ a t, ¬ Ends x r a t) :
    ParallelAt S R A r s x y := by
  intro j k _
  rcases hrun : (x.run r).run.run j with ⟨_ | ⟨a, t⟩, j'⟩
  · exact .spared h
  · exact absurd ⟨j, j', hrun⟩ (hx a t)

end ParallelAt

namespace Parallel

/-- Steps that only give values are parallel if these are in relation. -/
theorem pure {a : α} {b : β} (hab : A a b) : Parallel S R R A (Pure.pure a) (Pure.pure b) :=
  fun _ _ hr => .pure hab hr

/-- Steps that fail are parallel if the second one may fail as it does. -/
theorem throw {f g : Failure} (h : S.fails f g) :
    Parallel S Q R A (MonadExcept.throw f : Step α) (MonadExcept.throw g : Step β) :=
  fun _ _ _ => .throw h

/-- Parallel steps stay parallel one after the other. -/
theorem bind {x : Step α} {y : Step β} {f : α → Step γ} {g : β → Step δ}
    (hx : Parallel S Q R A x y) (hf : ∀ a b, A a b → Parallel S R T B (f a) (g b)) :
    Parallel S Q T B (x >>= f) (y >>= g) :=
  fun r s hr => (hx r s hr).bind fun a b r' s' hab hr' => hf a b hab r' s' hr'

/-- What the values have in common may be said with less. -/
theorem mono {A' : α → β → Prop} {x : Step α} {y : Step β} (h : Parallel S Q R A x y)
    (hA : ∀ a b, A a b → A' a b) : Parallel S Q R A' x y :=
  fun r s hr => (h r s hr).mono hA fun _ _ h => h

/-- Steps that look at their readings go together, if they do for all pairs of readings. -/
theorem get {f : Reading → Step α} {g : Reading → Step β}
    (hf : ∀ r s, Q r s → ParallelAt S R A r s (f r) (g s)) :
    Parallel S Q R A (MonadState.get >>= f) (MonadState.get >>= g) :=
  hf

/-- Changes of the readings go together, if they keep the readings as they should be. -/
theorem modify {f g : Reading → Reading} (hf : ∀ r s, Q r s → R (f r) (g s)) :
    Parallel S Q R Eq (modify f : Step Unit) (modify g : Step Unit) :=
  fun r s hr _ _ hjk => .ends ⟨rfl, hf r s hr⟩ hjk

/-- Decoders that concur are parallel as steps. -/
theorem lift {x : Journaled α} {y : Journaled β} (h : Concur S A x y) :
    Parallel S R R A (liftM x) (liftM y) :=
  fun _ _ hr => .lift h hr

/-- The two steps go alike through two lists of elements in relation. -/
theorem forM₂ {f : α → Step Unit} {g : β → Step Unit} {xs : List α} {ys : List β}
    (h : List.Forall₂ (fun x y => Parallel S R R Eq (f x) (g y)) xs ys) :
    Parallel S R R Eq (xs.forM f) (ys.forM g) := by
  induction h with
  | nil => exact pure rfl
  | cons hxy _ ih => exact hxy.bind fun _ _ _ => ih

/-- The two steps do the same for each element of a list. -/
theorem forM {f g : α → Step Unit} {xs : List α}
    (hf : ∀ x ∈ xs, Parallel S R R Eq (f x) (g x)) : Parallel S R R Eq (xs.forM f) (xs.forM g) :=
  forM₂ (List.forall₂_same.mpr hf)

/-- Values are found alike for each element of a list. -/
theorem mapM {f g : α → Step β} (xs : List α) (hf : ∀ x, Parallel S R R Eq (f x) (g x)) :
    Parallel S R R Eq (xs.mapM f) (xs.mapM g) := by
  induction xs with
  | nil => exact pure rfl
  | cons x xs ih =>
    rw [List.mapM_cons, List.mapM_cons]
    refine (hf x).bind ?_
    rintro y _ rfl
    refine ih.bind ?_
    rintro ys _ rfl
    exact pure rfl

end Parallel

/-! ## Steps that go without saying -/

/-- From the reading the step comes to a value and a reading of which something holds, and finds
nothing that counts. -/
def Standard.Aside (S : Standard) (x : Step α) (r : Reading) (P : α → Reading → Prop) : Prop :=
  ∀ j, ∃ a t said, (x.run r).run.run j = (.ok (a, t), said ++ j) ∧ S.heard said = [] ∧ P a t

namespace Standard.Aside

variable {P : α → Reading → Prop} {P' : β → Reading → Prop}

/-- A step that only gives a value does so without saying anything. -/
theorem pure {a : α} (h : P a r) : S.Aside (Pure.pure a) r P :=
  fun _ => ⟨a, r, [], rfl, rfl, h⟩

/-- What is said aside by one standard is so by every standard that heeds less. -/
theorem mono {S' : Standard} {x : Step α} (h : S.Aside x r P)
    (hheeds : ∀ d, S'.heeds d = true → S.heeds d = true) : S'.Aside x r P := by
  intro j
  obtain ⟨a, t, said, hrun, hsaid, hP⟩ := h j
  refine ⟨a, t, said, hrun, ?_, hP⟩
  rw [heard, List.filter_eq_nil_iff] at hsaid ⊢
  exact fun d hd hheard => hsaid d hd (hheeds d hheard)

/-- A change of the reading is made without saying anything. -/
theorem modify {f : Reading → Reading} {P : Unit → Reading → Prop} (h : P () (f r)) :
    S.Aside (modify f) r P :=
  fun _ => ⟨(), f r, [], rfl, rfl, h⟩

/-- A step that looks at the reading goes aside, if it does for the reading it is taken from. -/
theorem get {f : Reading → Step α} (h : S.Aside (f r) r P) : S.Aside (MonadState.get >>= f) r P :=
  h

/-- An event is no finding, so it is told aside. -/
theorem tell {e : Event} {P : Unit → Reading → Prop} (h : P () r) :
    S.Aside (liftM (Partwise.tell e)) r P :=
  fun _ => ⟨(), r, [.event e], rfl, rfl, h⟩

/-- Something is found that does not count. -/
theorem find {line : Nat} {finding : Finding} {P : Unit → Reading → Prop}
    (hspared : S.heeds (finding.onLine line) = false) (h : P () r) :
    S.Aside (liftM (Partwise.find line finding)) r P :=
  fun _ => ⟨(), r, [.found line finding], rfl, by
    simp [heard, Journal.diagnostics, Entry.diagnostic?, hspared], h⟩

/-- Two steps that say nothing that counts do so one after the other. -/
theorem bind {x : Step α} {f : α → Step β} (hx : S.Aside x r P)
    (hf : ∀ a t, P a t → S.Aside (f a) t P') : S.Aside (x >>= f) r P' := by
  intro j
  obtain ⟨a, t, said, hrun, hsaid, hP⟩ := hx j
  obtain ⟨b, u, said', hrun', hsaid', hP'⟩ := hf a t hP (said ++ j)
  refine ⟨b, u, said' ++ said, ?_, by rw [heard_append, hsaid, hsaid', List.append_nil], hP'⟩
  rw [StateT.run_bind, ExceptT.run_bind, StateT.run_bind, hrun, List.append_assoc]
  exact hrun'

/-- The part that is being read is looked at without saying anything. -/
theorem currentPart {line : Nat} {p : Part} (hp : r.part? = some p) :
    S.Aside (Partwise.currentPart line) r fun q t => q = p ∧ t = r := by
  intro j
  refine ⟨p, r, [], ?_, rfl, rfl, rfl⟩
  simp only [Partwise.currentPart, StateT.run_bind, StateT.run_get, pure_bind, hp]
  rfl

/-- To look at a voice that has begun finds it and changes nothing. -/
theorem voiceAt {line : Nat} {key : VoiceKey} {p : Part} {v : Voice} (hp : r.part? = some p)
    (hv : p.voice? key = some v) :
    S.Aside (Partwise.voiceAt line key) r fun w t => w = v ∧ t = r := by
  refine (currentPart hp).bind ?_
  rintro _ _ ⟨rfl, rfl⟩
  rw [hv]
  exact pure ⟨rfl, rfl⟩

/-- A change of the part that is being read ends with the changed part put back. -/
theorem changePart {line : Nat} {p : Part} {f : Part → Part} {P : Unit → Reading → Prop}
    (hp : r.part? = some p) (h : P () (r.setPart (f p))) :
    S.Aside (Partwise.changePart line f) r P := by
  refine (currentPart hp).bind ?_
  rintro _ _ ⟨rfl, rfl⟩
  exact modify h

/-- Steps that keep something of the reading, one for each element of a list. -/
theorem forM_keeps {K : Reading → Prop} {f : α → Step Unit} (hr : K r)
    (hf : ∀ x t, K t → S.Aside (f x) t fun _ u => K u) (xs : List α) :
    S.Aside (xs.forM f) r fun _ t => K t := by
  induction xs generalizing r with
  | nil => exact pure hr
  | cons x xs ih => exact (hf x r hr).bind fun _ _ => ih

/-- Steps that leave the reading as it is, one for each element of a list. -/
theorem forM {f : α → Step Unit} (hf : ∀ x, S.Aside (f x) r fun _ t => t = r) (xs : List α) :
    S.Aside (xs.forM f) r fun _ t => t = r :=
  forM_keeps (K := fun t => t = r) rfl (fun x _ ht => ht ▸ hf x) xs

/-- Values that are found one by one, with the reading left as it is. -/
theorem mapM {f : α → Step β} {g : α → β}
    (hf : ∀ x, S.Aside (f x) r fun b t => b = g x ∧ t = r) (xs : List α) :
    S.Aside (xs.mapM f) r fun bs t => bs = xs.map g ∧ t = r := by
  induction xs with
  | nil => exact pure ⟨rfl, rfl⟩
  | cons x xs ih =>
    rw [List.mapM_cons]
    refine (hf x).bind ?_
    rintro y _ ⟨rfl, rfl⟩
    refine ih.bind ?_
    rintro ys _ ⟨rfl, rfl⟩
    exact pure ⟨rfl, rfl⟩

end Standard.Aside

/-- Two steps that find nothing that counts are parallel, if what they come to is alike. -/
theorem ParallelAt.aside {x : Step α} {y : Step β} {P : α → Reading → Prop}
    {P' : β → Reading → Prop} (hx : S.Aside x r P) (hy : S.Aside y s P')
    (h : ∀ a t b u, P a t → P' b u → A a b ∧ R t u) : ParallelAt S R A r s x y := by
  intro j k hjk
  obtain ⟨a, t, said, hrun, hsaid, hP⟩ := hx j
  obtain ⟨b, u, said', hrun', hsaid', hP'⟩ := hy k
  rw [hrun, hrun']
  exact .ends (h a t b u hP hP') (by rw [S.heard_append, S.heard_append, hsaid, hsaid', hjk])

/-! ## Likenesses -/

/-- When two readings are alike. -/
structure Likeness extends Standard where
  /-- Two parts are alike that are being read. -/
  here : Part → Part → Prop
  /-- Two parts are alike, whichever part is being read. -/
  there : Part → Part → Prop
  /-- Two open tuplets are alike. -/
  tuplet : Tuplet → Tuplet → Prop
  /-- Two notes are alike that come to their places. -/
  note : Note → Note → Prop
  /-- The marks that wait for a note are alike. -/
  marks : Attachments → Attachments → Prop
  /-- Two elements may be put at the end of voices that are alike. -/
  element : VoiceElement → VoiceElement → Prop
  /-- The ids of parts that are known to be declared. -/
  known : String → Prop := fun _ => False
  /-- Part lists, barlines, signs and lyrics are compared, too. Otherwise they may differ, but then
  nothing that is found counts. -/
  strict : Prop := True

namespace Likeness

/-- Two passages are alike: the open tuplets and the waiting marks are, and all else is the same.
The document stands where it can stand. -/
structure Passages (L : Likeness) (p q : Passage) : Prop where
  current : p.current = q.current
  markers : L.strict → p.markers = q.markers
  measureNumber : p.measureNumber = q.measureNumber
  position : p.position = q.position
  inWords : p.position.InWords
  extents : p.extents = q.extents
  unchecked : p.unchecked = q.unchecked
  chord : p.chord? = q.chord?
  tuplets : List.Forall₂ L.tuplet p.tuplets q.tuplets
  pending : L.marks p.pending q.pending

/-- Two readings are alike: their parts and passages are, and all else is the same. The parts are
told apart by their ids, and the one that is being read is among them. -/
structure Alike (L : Likeness) (r s : Reading) : Prop where
  identification : r.identification = s.identification
  partList : L.strict → r.partList = s.partList
  partId : r.partId? = s.partId?
  parts : List.Forall₂ L.there r.parts s.parts
  part : Option.Rel L.here r.part? s.part?
  declared : ∀ id, r.partId? = some id → r.part?.isSome
  distinct : (r.parts.map Part.id).Nodup
  known : ∀ id, L.known id → id ∈ r.parts.map Part.id
  passage : L.Passages r.passage s.passage

/-- Two outcomes are alike: two values are, or the fault is the same. -/
inductive Outcomes {ε : Type} (A : α → β → Prop) : Except ε α → Except ε β → Prop
  | ok {a : α} {b : β} (h : A a b) : Outcomes A (.ok a) (.ok b)
  | error {fault : ε} : Outcomes A (.error fault) (.error fault)

/-- From readings that are alike the two steps run in parallel, and the readings stay alike. -/
abbrev Parallel (L : Likeness) (A : α → β → Prop) (x : Step α) (y : Step β) : Prop :=
  Partwise.Parallel L.toStandard L.Alike L.Alike A x y

/-- The two steps go together from the two readings. -/
abbrev ParallelAt (L : Likeness) (A : α → β → Prop) (r s : Reading) (x : Step α) (y : Step β) :
    Prop :=
  Partwise.ParallelAt L.toStandard L.Alike A r s x y

/-- Two readings are alike, and something is known of the first one. -/
def With (L : Likeness) (P : Reading → Prop) (r s : Reading) : Prop :=
  L.Alike r s ∧ P r

/-- What a likeness must keep to, so that readings that are alike stay so. The changes of parts are
all those that reading music makes of the part that is being read. -/
structure Lawful (L : Likeness) : Prop where
  failure : ∀ f, L.fails f f
  deaf : ¬ L.strict → ∀ d, L.heeds d = false
  id : ∀ {p q}, L.there p q → p.id = q.id
  leave : ∀ {p q}, L.here p q → L.there p q
  keys : ∀ {p q}, L.here p q → p.voices.map Voice.key = q.voices.map Voice.key
  pending : ∀ {p q}, L.strict → L.here p q →
    p.voices.countP (fun v => v.pending?.isSome) = q.voices.countP fun v => v.pending?.isSome
  position : ∀ {p q key v w}, L.here p q → p.voice? key = some v → q.voice? key = some w →
    v.positionInMeasure = w.positionInMeasure
  ensureVoice : ∀ {p q key}, L.here p q → L.here (p.ensureVoice key) (q.ensureVoice key)
  placeVoice : ∀ {p q key} {position : WholeNotes}, position.InWords → L.here p q →
    L.here (p.modifyVoice key fun v => { v with positionInMeasure := position })
      (q.modifyVoice key fun v => { v with positionInMeasure := position })
  append : ∀ {p q key e e'}, L.here p q → L.element e e' →
    L.here (p.modifyVoice key fun v => v.append e) (q.modifyVoice key fun v => v.append e')
  addRest : ∀ {p q key duration measure line}, L.here p q →
    L.here (p.modifyVoice key fun v => v.append (.note (skipRest v duration measure line)))
      (q.modifyVoice key fun v => v.append (.note (skipRest v duration measure line)))
  joinVoice : ∀ {p q key v w n n'} (chordOpen : Bool), L.here p q → p.voice? key = some v →
    q.voice? key = some w → L.note n n' →
    Outcomes (fun v w => L.here (p.modifyVoice key fun _ => v) (q.modifyVoice key fun _ => w))
      (v.joinChord n chordOpen) (w.joinChord n' chordOpen)
  withKey : ∀ {p q key key'}, L.here p q → (L.strict → key = key') →
    L.here (p.withKey key) (q.withKey key')
  withTime : ∀ {p q time time'}, L.here p q → (L.strict → time = time') →
    L.here (p.withTime time) (q.withTime time')
  withClef : ∀ {p q clef clef'}, L.here p q → (L.strict → clef = clef') →
    clef.staffNumber = clef'.staffNumber → L.here (p.withClef clef) (q.withClef clef')
  ensureStaves : ∀ {p q count}, L.here p q → L.here (p.ensureStaves count) (q.ensureStaves count)
  restart : ∀ {p q number}, L.here p q →
    L.here ({ p with measureNumber := number }.mapVoices fun v => { v with positionInMeasure := 0 })
      ({ q with measureNumber := number }.mapVoices fun v => { v with positionInMeasure := 0 })
  takeBarline : ∀ {p q b b' explicitStart explicitStart' measure}, L.here p q →
    (L.strict → b = b' ∧ explicitStart = explicitStart') →
    L.here (p.mapVoices fun v => (v.takeBarline b explicitStart measure).1)
      (q.mapVoices fun v => (v.takeBarline b' explicitStart' measure).1)
  close : ∀ {p q explicitStart explicitStart' measure}, L.here p q →
    (L.strict → explicitStart = explicitStart') →
    L.here ((p.mapVoices fun v => (v.endRepeats explicitStart measure).1).mapVoices Voice.flush)
      ((q.mapVoices fun v => (v.endRepeats explicitStart' measure).1).mapVoices Voice.flush)
  noteSame : ∀ n, n.lyrics = [] → L.note n n
  noteLine : ∀ {n n'}, L.note n n' → n.line = n'.line
  noteLength : ∀ {n n'}, L.note n n' → n.soundingWholeNotes = n'.soundingWholeNotes
  elementNote : ∀ {n n'}, L.note n n' → L.element (.note n) (.note n')
  elementTuplet : ∀ {t t'}, L.tuplet t t' → L.element (.tuplet t) (.tuplet t')
  elementDirection : ∀ d, L.element (.direction d) (.direction d)
  tupletKey : ∀ {t t'}, L.tuplet t t' → t.key = t'.key
  tupletNumber : ∀ {t t'}, L.tuplet t t' → t.number = t'.number
  tupletEmpty : ∀ {t t'}, L.tuplet t t' → t.members.isEmpty = t'.members.isEmpty
  tupletNote : ∀ {t t' n n'}, L.tuplet t t' → L.note n n' →
    L.tuplet (t.append (.note n)) (t'.append (.note n'))
  tupletInner : ∀ {t t' u u'}, L.tuplet t t' → L.tuplet u u' →
    L.tuplet (t.append (.tuplet u)) (t'.append (.tuplet u'))
  tupletJoin : ∀ {t t' n n'} (chordOpen : Bool), L.tuplet t t' → L.note n n' →
    Outcomes L.tuplet (t.join n chordOpen) (t'.join n' chordOpen)
  queue : ∀ {a b c}, L.marks a b → L.marks (a ++ c) (b ++ c)

end Likeness

/-- Steps side by side keep what the first of them keeps. -/
theorem Parallel.of_keeps {L : Likeness} {P : Reading → Prop} {A : α → β → Prop} {x : Step α}
    {y : Step β} (h : L.Parallel A x y) (hx : ∀ r a t, P r → Ends x r a t → P t) :
    Parallel L.toStandard (L.With P) (L.With P) A x y :=
  fun r s hrs => (h r s hrs.1).keep fun a t => hx r a t hrs.2

/-! ## Readings that are alike -/

namespace Likeness

variable {L : Likeness} {p q : Part} {line : Nat} {key : VoiceKey}

/-- What is looked for in two lists that are alike is found in both or in neither. -/
theorem find?_rel {α : Type} {A : α → α → Prop} {f : α → Bool} {xs ys : List α}
    (h : List.Forall₂ A xs ys) (hf : ∀ x y, A x y → f x = f y) :
    Option.Rel A (xs.find? f) (ys.find? f) := by
  induction h with
  | nil => exact .none
  | cons hxy _ ih =>
    rw [List.find?_cons, List.find?_cons, ← hf _ _ hxy]
    split
    · exact .some hxy
    · exact ih

namespace Passages

/-- Alike passages stay so when a voice was given content. -/
theorem touch {p q : Passage} (h : L.Passages p q) : L.Passages (p.touch key) (q.touch key) :=
  { h with unchecked := by simp only [Passage.touch, h.unchecked] }

/-- Alike passages stay so when a voice came to a position. -/
theorem reach {p q : Passage} {position : WholeNotes} (h : L.Passages p q) :
    L.Passages (p.reach key position) (q.reach key position) :=
  { h with extents := by unfold Passage.reach Passage.extent; rw [h.extents] }

/-- Alike passages stay so when the document stands somewhere else. -/
theorem standing {p q : Passage} {position : WholeNotes} (hposition : position.InWords)
    (h : L.Passages p q) : L.Passages { p with position } { q with position } :=
  { h with position := rfl, inWords := hposition }

/-- Alike passages stay so when other tuplets are open that are alike. -/
theorem opening {p q : Passage} {ts us : List Tuplet} (h : L.Passages p q)
    (htuplets : List.Forall₂ L.tuplet ts us) :
    L.Passages { p with tuplets := ts } { q with tuplets := us } :=
  { h with tuplets := htuplets }

/-- Another chord goes on, or none. -/
theorem chordOf {p q : Passage} {chord? : Option VoiceKey} (h : L.Passages p q) :
    L.Passages { p with chord? } { q with chord? } :=
  { h with chord := rfl }

/-- Tuplets are open on both sides or on neither. -/
theorem isEmpty {p q : Passage} (h : L.Passages p q) : p.tuplets.isEmpty = q.tuplets.isEmpty := by
  match p.tuplets, q.tuplets, h.tuplets with
  | [], [], .nil => rfl
  | _ :: _, _ :: _, .cons _ _ => rfl

/-- Tuplets are open for the same voice. -/
theorem tupletKey? (hL : L.Lawful) {p q : Passage} (h : L.Passages p q) :
    p.tupletKey? = q.tupletKey? := by
  unfold Passage.tupletKey?
  match p.tuplets, q.tuplets, h.tuplets with
  | [], [], .nil => rfl
  | _ :: _, _ :: _, .cons ht _ => exact congrArg some (hL.tupletKey ht)

/-- Passages that are alike are so in every way that asks no more of tuplets and marks. -/
theorem mono {L' : Likeness} {p q : Passage} (h : L.Passages p q)
    (htuplet : ∀ t u, L.tuplet t u → L'.tuplet t u) (hmarks : ∀ a b, L.marks a b → L'.marks a b)
    (hstrict : L'.strict → L.strict) : L'.Passages p q :=
  ⟨h.current, fun hs => h.markers (hstrict hs), h.measureNumber, h.position, h.inWords, h.extents,
    h.unchecked, h.chord, h.tuplets.imp htuplet, hmarks _ _ h.pending⟩

end Passages

namespace Alike

variable {r s : Reading}

/-- Readings that are alike are so in every way that asks no more of the part that is being read. -/
theorem mono {L' : Likeness} (h : L.Alike r s) (hthere : ∀ p q, L.there p q → L'.there p q)
    (hhere : ∀ p q, r.part? = some p → L.here p q → L'.here p q)
    (hpassages : L'.Passages r.passage s.passage) (hknown : ∀ id, L'.known id → L.known id)
    (hstrict : L'.strict → L.strict) : L'.Alike r s := by
  refine ⟨h.identification, fun hs => h.partList (hstrict hs), h.partId, h.parts.imp hthere, ?_, h.declared, h.distinct,
    fun id hid => h.known id (hknown id hid), hpassages⟩
  have hpart := h.part
  generalize r.part? = p? at hpart hhere
  generalize s.part? = q? at hpart
  cases hpart with
  | none => exact .none
  | some hpq => exact .some (hhere _ _ rfl hpq)

/-- The part of an id is alike on both sides. -/
theorem partOf (hL : L.Lawful) (h : L.Alike r s) (id : String) :
    Option.Rel L.there (r.partOf id) (s.partOf id) :=
  find?_rel h.parts fun _ _ hpq => by simp only [hL.id hpq]

/-- The part that is being read is declared on the other side, too. -/
theorem declared' (h : L.Alike r s) (id : String) (hid : s.partId? = some id) :
    s.part?.isSome := by
  have hsome := h.declared id (h.partId.trans hid)
  have hpart := h.part
  generalize r.part? = p? at hsome hpart
  generalize s.part? = q? at hpart ⊢
  cases hpart with
  | none => exact hsome
  | some _ => rfl

/-- Alike readings have declared the same parts. -/
theorem ids (hL : L.Lawful) (h : L.Alike r s) : r.parts.map Part.id = s.parts.map Part.id := by
  rw [← List.forall₂_eq_eq_eq, List.forall₂_map_left_iff, List.forall₂_map_right_iff]
  exact h.parts.imp fun _ _ => hL.id

/-- A part of an id is declared on both sides or on neither. -/
theorem any_id (hL : L.Lawful) (h : L.Alike r s) (id : String) :
    (r.parts.any fun part => part.id = id) = s.parts.any fun part => part.id = id := by
  have hany : ∀ ps : List Part, (ps.any fun part => part.id = id) = (ps.map Part.id).any (· = id) :=
    fun ps => by rw [List.any_map]; rfl
  rw [hany, hany, h.ids hL]

/-- The part that is being read is put back in another state, in which it is alike in another
way. -/
theorem becomePart {L' : Likeness} (hL : L.Lawful) (hL' : L'.Lawful) (h : L.Alike r s) {p' q' : Part}
    (hp : r.part? = some p) (hq : s.part? = some q) (hid : p'.id = p.id) (hpq : L.here p q)
    (hpq' : L'.here p' q') (hothers : ∀ x y, x.id ≠ p.id → L.there x y → L'.there x y)
    (hknown : ∀ id, L'.known id → L.known id ∨ id = p.id)
    (hpassage : L'.Passages r.passage s.passage) (hstrict : L'.strict → L.strict) :
    L'.Alike (r.setPart p') (s.setPart q') := by
  have hid' : q'.id = q.id := by
    rw [← hL'.id (hL'.leave hpq'), hid, hL.id (hL.leave hpq)]
  have hpart' := ((Becomes.refl hp).setPart hid).part?
  refine ⟨h.identification, fun hs => h.partList (hstrict hs), h.partId, ?_, ?_, ?_, ?_, ?_,
    hpassage⟩
  · refine List.rel_map (R := L.there) (P := L'.there) ?_ h.parts
    intro x y hxy
    dsimp only
    rw [hL.id hxy, ← hL'.id (hL'.leave hpq')]
    split
    · exact hL'.leave hpq'
    · next hother => exact hothers x y (by rwa [hL.id hxy, ← hid]) hxy
  · rw [hpart', ((Becomes.refl hq).setPart hid').part?]
    exact .some hpq'
  · intro _ _
    rw [hpart']
    rfl
  · rw [((Becomes.refl hp).setPart hid).ids]
    exact h.distinct
  · intro id hid'
    rw [((Becomes.refl hp).setPart hid).ids]
    rcases hknown id hid' with hknown | rfl
    · exact h.known id hknown
    · exact List.mem_map_of_mem (List.mem_of_find?_eq_some (Becomes.refl hp).here)

/-- The part that is being read is put back in another state. -/
theorem setPart (hL : L.Lawful) (h : L.Alike r s) {p' q' : Part} (hp : r.part? = some p)
    (hq : s.part? = some q) (hid : p'.id = p.id) (hpq : L.here p q) (hpq' : L.here p' q') :
    L.Alike (r.setPart p') (s.setPart q') :=
  h.becomePart hL hL hp hq hid hpq hpq' (fun _ _ _ hxy => hxy) (fun _ => .inl) h.passage fun hs => hs

end Alike

end Likeness

/-! ## Elementary steps -/

namespace Likeness.Lawful

variable {L : Likeness} {line : Nat} {key : VoiceKey}

/-- Whatever is told, it is told alike. -/
theorem tell (e e' : Event) : L.Parallel Eq (liftM (Partwise.tell e)) (liftM (Partwise.tell e')) :=
  .lift (.tell e e')

/-- A decoder that does not look at the journal comes to the same from readings that are alike. -/
theorem lift (hL : L.Lawful) {x : Journaled α} (hx : Blind x) :
    L.Parallel Eq (liftM x) (liftM x) :=
  .lift (.refl hx hL.failure)

/-- What is decoded of one element is the same, and it is what the decoder comes to. -/
theorem given (hL : L.Lawful) {x : Journaled α} (hx : Blind x) :
    L.Parallel (fun a b => a = b ∧ Gives x a) (liftM x) (liftM x) :=
  .lift (.given hx hL.failure)

/-- What is decoded of one element is the same. -/
theorem decode (hL : L.Lawful) {x : Journaled α} (hx : Blind x) :
    Concur L.toStandard (fun a b => L.strict → a = b) x x :=
  (Concur.refl hx hL.failure).mono fun _ _ h _ => h

/-- To find the same goes together on both sides. -/
theorem find (hL : L.Lawful) (finding : Finding) :
    L.Parallel Eq (liftM (Partwise.find line finding)) (liftM (Partwise.find line finding)) :=
  hL.lift (.find line finding)

/-- To fail in the same way goes together on both sides. -/
theorem throw (hL : L.Lawful) {A : α → β → Prop} (f : Failure) :
    L.Parallel A (MonadExcept.throw f : Step α) (MonadExcept.throw f : Step β) :=
  .throw (hL.failure f)

/-- Passages that are alike change to passages that are. -/
theorem changePassage {f g : Passage → Passage}
    (hf : ∀ p q, L.Passages p q → L.Passages (f p) (g q)) :
    L.Parallel Eq (Partwise.changePassage f) (Partwise.changePassage g) :=
  .modify fun _ _ h => { h with passage := hf _ _ h.passage }

/-- Steps that look at their passages go together, if they do for all alike passages. -/
theorem passage {f g : Reading → Step α} {A : α → α → Prop} {R : Reading → Reading → Prop}
    (hf : ∀ r s, L.Passages r.passage s.passage →
      Partwise.Parallel L.toStandard L.Alike R A (f r) (g s)) :
    Partwise.Parallel L.toStandard L.Alike R A (MonadState.get >>= f) (MonadState.get >>= g) :=
  .get fun r s h => hf r s h.passage r s h

/-- From two readings a step goes on with the part that is being read. -/
theorem withPartAt (hL : L.Lawful) {r s : Reading} {R : Reading → Reading → Prop} {f : Part → Step α}
    {g : Part → Step β} {A : α → β → Prop} (h : L.Alike r s)
    (hf : ∀ p q, r.part? = some p → s.part? = some q → L.here p q →
      Partwise.ParallelAt L.toStandard R A r s (f p) (g q)) :
    Partwise.ParallelAt L.toStandard R A r s (Partwise.currentPart line >>= f)
      (Partwise.currentPart line >>= g) := by
  intro j k hjk
  have hpart := h.part
  simp only [Partwise.currentPart, StateT.run_bind, StateT.run_get, pure_bind]
  generalize hp : r.part? = p? at hpart
  generalize hq : s.part? = q? at hpart
  cases hpart with
  | none => exact .fails (hL.failure _)
  | some hpq => exact hf _ _ hp hq hpq j k hjk

/-- A step that goes on with the part that is being read. -/
theorem withPart (hL : L.Lawful) {f : Part → Step α} {g : Part → Step β} {A : α → β → Prop}
    (hf : ∀ r s p q, L.Alike r s → r.part? = some p → s.part? = some q → L.here p q →
      L.ParallelAt A r s (f p) (g q)) :
    L.Parallel A (Partwise.currentPart line >>= f) (Partwise.currentPart line >>= g) :=
  fun r s h => hL.withPartAt h fun p q => hf r s p q h

/-- The parts that are being read are alike. -/
theorem currentPart (hL : L.Lawful) :
    L.Parallel L.here (Partwise.currentPart line) (Partwise.currentPart line) := by
  rw [← bind_pure (Partwise.currentPart line)]
  exact hL.withPart fun _ _ _ _ h _ _ hpq => .pure hpq h

/-- Alike readings stay so when the parts that are being read change alike. -/
theorem changeParts (hL : L.Lawful) {r s : Reading} {p q : Part} {f g : Part → Part}
    (h : L.Alike r s) (hp : r.part? = some p) (hq : s.part? = some q) (hpq : L.here p q)
    (hid : (f p).id = p.id) (hf : L.here (f p) (g q)) :
    L.ParallelAt Eq r s (Partwise.changePart line f) (Partwise.changePart line g) := by
  intro j k hjk
  simp only [Partwise.changePart, Partwise.currentPart, StateT.run_bind, StateT.run_get, pure_bind,
    hp, hq]
  exact .ends ⟨trivial, h.setPart hL hp hq hid hpq hf⟩ hjk

/-- The parts that are being read change to parts that are alike, and keep their ids. -/
theorem changePart (hL : L.Lawful) {f g : Part → Part} (hid : ∀ p, (f p).id = p.id)
    (hf : ∀ p q, L.here p q → L.here (f p) (g q)) :
    L.Parallel Eq (Partwise.changePart line f) (Partwise.changePart line g) :=
  hL.withPart fun _ _ p q h hp hq hpq _ _ hjk =>
    .ends ⟨rfl, h.setPart hL hp hq (hid p) hpq (hf p q hpq)⟩ hjk

/-- In alike parts the same voices have begun. -/
theorem isSome_voice? (hL : L.Lawful) {p q : Part} (h : L.here p q) (key : VoiceKey) :
    (p.voice? key).isSome = (q.voice? key).isSome := by
  rw [p.isSome_voice?, q.isSome_voice?, Part.outline, Part.outline, hL.keys h]

/-- A step that goes on with a voice of the part that is being read. -/
theorem withVoice (hL : L.Lawful) {f : Voice → Step α} {g : Voice → Step β} {A : α → β → Prop}
    (hf : ∀ r s p q v w, L.Alike r s → r.part? = some p → s.part? = some q → L.here p q →
      p.voice? key = some v → q.voice? key = some w → L.ParallelAt A r s (f v) (g w)) :
    L.Parallel A (Partwise.voiceAt line key >>= f) (Partwise.voiceAt line key >>= g) := by
  unfold Partwise.voiceAt
  rw [bind_assoc, bind_assoc]
  refine hL.withPart fun r s p q h hp hq hpq => ?_
  have hsome := hL.isSome_voice? hpq key
  rcases hv : p.voice? key with _ | v <;> rcases hw : q.voice? key with _ | w <;>
    rw [hv, hw] at hsome
  · -- the voice begins on both sides, and what is told of it does not count
    have hbegun : ∀ {p : Part}, p.voice? key = none →
        (p.ensureVoice key).voice? key = some (p.newVoice key) := by
      intro p hp
      rw [Part.voice?_ensureVoice, if_pos rfl, Part.voiceOrNew, hp]
      rfl
    have hset : L.ParallelAt A (r.setPart (p.ensureVoice key)) (s.setPart (q.ensureVoice key))
        (f (p.newVoice key)) (g (q.newVoice key)) :=
      hf _ _ (p.ensureVoice key) (q.ensureVoice key) _ _
        (h.setPart hL hp hq Part.id_ensureVoice hpq (hL.ensureVoice hpq))
        ((Becomes.refl hp).setPart Part.id_ensureVoice).part?
        ((Becomes.refl hq).setPart Part.id_ensureVoice).part? (hL.ensureVoice hpq) (hbegun hv)
        (hbegun hw)
    intro j k hjk
    exact hset (.event (.voiceBegun p.id key) :: j) (.event (.voiceBegun q.id key) :: k)
      (by rw [L.heard_event, L.heard_event, hjk])
  · simp at hsome
  · simp at hsome
  · exact hf r s p q v w h hp hq hpq hv hw

end Likeness.Lawful

end Partwise
