import Partwise.Reading.State

/-!
# Reading · Ends: what is known of a step that ended well

A decoder keeps a journal and may fail; a step also changes the reading. What follows is about runs
that ended well: `Gives x a` says that the decoder `x` came to the value `a`, `Ends x r a s` that
the step `x` took the reading `r` to `s` and came to `a`. Each says so for some journal, since no
decision depends on what was said before.

The lemmas take such a run apart: a run of two steps is a run of each (`Ends.bind`), a failure is
no run (`not_ends_throw`), and what only speaks leaves the reading as it is (`Ends.tell`,
`Ends.find`). Everything later about a particular step begins with them.
-/

namespace Partwise

variable {α β : Type}

/-! ## Decoders -/

/-- The decoder comes to the value. -/
def Gives (x : Journaled α) (a : α) : Prop :=
  ∃ j j', x.run.run j = (.ok a, j')

/-- A run of two decoders is a run of each. -/
theorem Gives.bind {x : Journaled α} {f : α → Journaled β} {b : β} (h : Gives (x >>= f) b) :
    ∃ a, Gives x a ∧ Gives (f a) b := by
  obtain ⟨j, j', h⟩ := h
  rw [ExceptT.run_bind, StateT.run_bind] at h
  rcases hx : x.run.run j with ⟨_ | a, j₁⟩
  · rw [hx] at h
    exact nomatch h
  · rw [hx] at h
    exact ⟨a, ⟨j, j₁, hx⟩, ⟨j₁, j', h⟩⟩

/-- A value that is there is what is come to. -/
theorem Gives.pure {a b : α} (h : Gives (Pure.pure a) b) : b = a := by
  obtain ⟨j, j', h⟩ := h
  cases h
  rfl

/-- A decoder that fails gives no value. -/
theorem not_gives_throw {failure : Failure} {a : α} : ¬ Gives (throw failure) a := by
  rintro ⟨j, j', h⟩
  exact nomatch h

/-! ## Steps -/

/-- The step takes the reading `r` to `s` and comes to the value. -/
def Ends (x : Step α) (r : Reading) (a : α) (s : Reading) : Prop :=
  Gives (x.run r) (a, s)

variable {r s t : Reading}

/-- A run of two steps is a run of each. -/
theorem Ends.bind {x : Step α} {f : α → Step β} {b : β} (h : Ends (x >>= f) r b t) :
    ∃ a s, Ends x r a s ∧ Ends (f a) s b t := by
  obtain ⟨⟨a, s⟩, hx, hf⟩ := Gives.bind h
  exact ⟨a, s, hx, hf⟩

/-- A step that only gives a value changes nothing. -/
theorem Ends.pure {a b : α} (h : Ends (Pure.pure a) r b s) : b = a ∧ s = r := by
  have h := Gives.pure h
  exact ⟨congrArg Prod.fst h, congrArg Prod.snd h⟩

/-- A look at the reading shows it and changes nothing. -/
theorem Ends.get {a : Reading} (h : Ends MonadState.get r a s) : r = a ∧ r = s := by
  have h := Gives.pure h
  exact ⟨(congrArg Prod.fst h).symm, (congrArg Prod.snd h).symm⟩

/-- A change of the reading ends in the changed reading. -/
theorem Ends.modify {f : Reading → Reading} {u : Unit} (h : Ends (modify f) r u s) : s = f r :=
  congrArg Prod.snd (Gives.pure h)

/-- A step that fails never ends well. -/
theorem not_ends_throw {failure : Failure} {a : α} : ¬ Ends (throw failure) r a s := by
  rintro ⟨j, j', h⟩
  exact nomatch h

/-- A decoder leaves the reading as it is. -/
theorem Ends.lift {x : Journaled α} {a : α} (h : Ends (liftM x) r a s) : Gives x a ∧ s = r := by
  obtain ⟨b, hx, hb⟩ := Gives.bind h
  have hb := hb.pure
  cases hb
  exact ⟨hx, rfl⟩

/-- A step whose value is not looked at ends as the step does. -/
theorem Ends.discard {x : Step α} {u : Unit} (h : Ends (Functor.discard x) r u s) :
    ∃ a, Ends x r a s := by
  obtain ⟨⟨a, s'⟩, hx, hpure⟩ := Gives.bind h
  cases hpure.pure
  exact ⟨a, hx⟩

/-- What happens is told and changes nothing. -/
theorem Ends.tell {e : Event} {u : Unit} (h : Ends (liftM (Partwise.tell e)) r u s) : s = r :=
  h.lift.2

/-- What is found is noted and changes nothing. -/
theorem Ends.find {line : Nat} {finding : Finding} {u : Unit}
    (h : Ends (liftM (Partwise.find line finding)) r u s) : s = r :=
  h.lift.2

/-- A change of the passage leaves the rest of the reading as it is. -/
theorem Ends.changePassage {f : Passage → Passage} {u : Unit}
    (h : Ends (Partwise.changePassage f) r u s) : s = { r with passage := f r.passage } :=
  h.modify

/-- A step that is made for each element of a list keeps what each single one keeps. -/
theorem Ends.forM {γ : Type} {xs : List γ} {f : γ → Step Unit} {P : Reading → Prop} {u : Unit}
    (h : Ends (xs.forM f) r u s) (hr : P r)
    (step : ∀ x ∈ xs, ∀ {r s : Reading}, P r → Ends (f x) r () s → P s) : P s := by
  induction xs generalizing r with
  | nil =>
    have hnil : Ends (Pure.pure ()) r u s := h
    rw [hnil.pure.2]
    exact hr
  | cons x xs ih =>
    obtain ⟨_, r₁, hx, hxs⟩ := Ends.bind h
    exact ih hxs (step x List.mem_cons_self hr hx) fun y hy => step y (List.mem_cons_of_mem _ hy)

/-- Values that are each found without a change of the reading. -/
theorem Ends.mapM {γ δ : Type} {xs : List γ} {f : γ → Step δ} {ys : List δ}
    (h : Ends (xs.mapM f) r ys s)
    (step : ∀ x {r s : Reading} {y : δ}, Ends (f x) r y s → s = r) : s = r := by
  induction xs generalizing r s ys with
  | nil =>
    have hnil : Ends (Pure.pure []) r ys s := h
    exact hnil.pure.2
  | cons x xs ih =>
    rw [List.mapM_cons] at h
    obtain ⟨_, r₁, hx, hrest⟩ := h.bind
    obtain ⟨_, r₂, hxs, hpure⟩ := hrest.bind
    rw [hpure.pure.2, ih hxs, step x hx]

/-- Music outside of all parts ends the reading. -/
theorem Ends.currentPart {line : Nat} {part : Part} (h : Ends (Partwise.currentPart line) r part s) :
    r.part? = some part ∧ s = r := by
  obtain ⟨_, _, hget, hmatch⟩ := h.bind
  obtain ⟨rfl, rfl⟩ := hget.get
  split at hmatch
  · next hpart =>
    obtain ⟨rfl, rfl⟩ := hmatch.pure
    exact ⟨hpart, rfl⟩
  · exact absurd hmatch not_ends_throw

/-- The part that is being read is changed and nothing else. -/
theorem Ends.changePart {line : Nat} {f : Part → Part} {u : Unit}
    (h : Ends (Partwise.changePart line f) r u s) :
    ∃ part, r.part? = some part ∧ s = r.setPart (f part) := by
  obtain ⟨part, _, hcurrent, hset⟩ := h.bind
  obtain ⟨hpart, rfl⟩ := hcurrent.currentPart
  exact ⟨part, hpart, hset.modify⟩

end Partwise
