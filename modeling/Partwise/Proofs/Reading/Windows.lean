import Mathlib.Data.List.Nodup
import Partwise.Proofs.Reading.Decoders
import Partwise.Proofs.Reading.Views

/-!
# Reading · Windows: steps that see and touch a part of the reading only

A window shows a piece of a reading, and another piece may be put in its place. A step is
`Confined` to a window if what the window shows decides all about its run: what the step comes to,
what it leaves in the window, and what it says. The rest of the reading stays as it is and is not
looked at. Confinement is a statement about runs that fail too, so it says when a step succeeds.

Steps that are confined stay so one after the other (`Confined.bind`), so it is proved of each
procedure along its text. `Window.part` is the window on the part that is being read and its
passage; `Window.score` is the one on all that the score will be made of.
-/

namespace Partwise

variable {α β σ : Type}

/-! ## Windows -/

/-- A window on readings. -/
structure Window (σ : Type) where
  /-- What the window shows of a reading. -/
  Shows : Reading → σ → Prop
  /-- The second piece may be put in the place of the first. -/
  Keeps : σ → σ → Prop
  /-- The reading with another piece in the window. -/
  put : Reading → σ → Reading
  keeps_refl : ∀ v, Keeps v v
  keeps_trans : ∀ {u v w}, Keeps u v → Keeps v w → Keeps u w
  put_shown : ∀ {r v}, Shows r v → put r v = r
  shows_put : ∀ {r v w}, Shows r v → Keeps v w → Shows (put r w) w
  put_put : ∀ {r v w}, Keeps v w → put (put r v) w = put r w

/-- Where the window shows that piece, all about a run of the step is decided. -/
def ConfinedAt (W : Window σ) (v : σ) (x : Step α) : Prop :=
  ∃ (outcome : Except Failure (α × σ)) (said : Journal),
    (∀ a w, outcome = .ok (a, w) → W.Keeps v w) ∧
    ∀ r j, W.Shows r v →
      (x.run r).run.run j = (outcome.map fun y => (y.1, W.put r y.2), said ++ j)

/-- What the window shows decides all about a run of the step. -/
def Confined (W : Window σ) (x : Step α) : Prop :=
  ∀ v, ConfinedAt W v x

namespace Confined

variable {W : Window σ}

/-- A step that only gives a value is confined to every window. -/
theorem pure (a : α) : Confined W (Pure.pure a) := by
  refine fun v => ⟨.ok (a, v), [], ?_, ?_⟩
  · rintro _ _ ⟨⟩
    exact W.keeps_refl v
  · intro r j hr
    simp only [Except.map, W.put_shown hr]
    rfl

/-- A step that fails is confined to every window. -/
theorem throw (failure : Failure) : Confined W (throw failure : Step α) :=
  fun _ => ⟨.error failure, [], nofun, fun _ _ _ => rfl⟩

/-- A decoder does not see the reading at all. -/
theorem lift {x : Journaled α} (hx : Blind x) : Confined W (liftM x) := by
  intro v
  obtain ⟨failure | a, said, hrun⟩ := hx
  · refine ⟨.error failure, said, nofun, fun r j _ => ?_⟩
    show ((x >>= fun a => Pure.pure (a, r) : Journaled _).run.run j) = _
    rw [ExceptT.run_bind, StateT.run_bind, hrun]
    rfl
  · refine ⟨.ok (a, v), said, ?_, fun r j hr => ?_⟩
    · rintro _ _ ⟨⟩
      exact W.keeps_refl v
    · show ((x >>= fun a => Pure.pure (a, r) : Journaled _).run.run j) = _
      rw [ExceptT.run_bind, StateT.run_bind, hrun]
      simp only [Except.map, W.put_shown hr]
      rfl

/-- Two steps, the second from whatever the first may leave in the window. -/
theorem bindAt {x : Step α} {f : α → Step β} {v : σ} (hx : ConfinedAt W v x)
    (hf : ∀ a w, W.Keeps v w → ConfinedAt W w (f a)) : ConfinedAt W v (x >>= f) := by
  obtain ⟨failure | ⟨a, w⟩, said, hkeeps, hrun⟩ := hx
  · refine ⟨.error failure, said, nofun, fun r j hr => ?_⟩
    rw [StateT.run_bind, ExceptT.run_bind, StateT.run_bind, hrun r j hr]
    rfl
  · have hvw := hkeeps a w rfl
    obtain ⟨outcome, said', hkeeps', hrun'⟩ := hf a w hvw
    refine ⟨outcome, said' ++ said, fun b w' h => W.keeps_trans hvw (hkeeps' b w' h), ?_⟩
    intro r j hr
    rw [StateT.run_bind, ExceptT.run_bind, StateT.run_bind, hrun r j hr]
    show ((f a).run (W.put r w)).run.run (said ++ j) = _
    rw [hrun' _ _ (W.shows_put hr hvw), List.append_assoc]
    cases outcome with
    | error failure => rfl
    | ok y => simp only [Except.map, W.put_put (hkeeps' y.1 y.2 rfl)]

/-- Confined steps stay confined one after the other. -/
theorem bind {x : Step α} {f : α → Step β} (hx : Confined W x) (hf : ∀ a, Confined W (f a)) :
    Confined W (x >>= f) :=
  fun v => bindAt (hx v) fun a w _ => hf a w

/-- A look at the reading, of which only what the window shows matters. -/
theorem get {f : Reading → Step α}
    (hsame : ∀ {r s v}, W.Shows r v → W.Shows s v → f r = f s) (hf : ∀ r, Confined W (f r)) :
    Confined W (MonadState.get >>= f) := by
  intro v
  by_cases hv : ∃ r₀, W.Shows r₀ v
  · obtain ⟨r₀, hr₀⟩ := hv
    obtain ⟨outcome, said, hkeeps, hrun⟩ := hf r₀ v
    refine ⟨outcome, said, hkeeps, fun r j hr => ?_⟩
    show ((f r).run r).run.run j = _
    rw [hsame hr hr₀]
    exact hrun r j hr
  · exact ⟨.error (.overflow 0), [], nofun, fun r _ hr => absurd ⟨r, hr⟩ hv⟩

/-- A change of what the window shows is confined to that window. -/
theorem change {f : Reading → Reading} (g : σ → σ) (hkeeps : ∀ v, W.Keeps v (g v))
    (hf : ∀ {r v}, W.Shows r v → f r = W.put r (g v)) :
    Confined W (modify f : Step Unit) := by
  refine fun v => ⟨.ok ((), g v), [], ?_, ?_⟩
  · rintro _ _ ⟨⟩
    exact hkeeps v
  · intro r j hr
    simp only [Except.map, ← hf hr]
    rfl

/-- Confined steps for the elements of a list are confined together. -/
theorem forM {γ : Type} {f : γ → Step Unit} {cs : List γ} (hf : ∀ c ∈ cs, Confined W (f c)) :
    Confined W (cs.forM f) := by
  induction cs with
  | nil => exact pure ()
  | cons c cs ih =>
    have htail : Confined W (cs.forM f) := ih fun d hd => hf d (List.mem_cons_of_mem c hd)
    exact (hf c List.mem_cons_self).bind fun _ => htail

end Confined

/-! ## The part that is being read -/

/-- The reading stands in a part at a passage, and no two of its parts have the same id. -/
structure Reading.Stands (r : Reading) (v : Part × Passage) : Prop where
  here : r.part? = some v.1
  passage : r.passage = v.2
  distinct : (r.parts.map Part.id).Nodup

namespace Reading

variable {r : Reading} {p q : Part}

/-- A part of a reading without equal ids is the one that its id stands for. -/
theorem eq_of_mem (h : (r.parts.map Part.id).Nodup) (hp : p ∈ r.parts) (hq : q ∈ r.parts)
    (hid : p.id = q.id) : p = q :=
  List.inj_on_of_nodup_map h hp hq hid

/-- A part that is put in its own place changes nothing. -/
theorem setPart_self (h : (r.parts.map Part.id).Nodup) (hp : p ∈ r.parts) : r.setPart p = r := by
  have hmap : (r.parts.map fun q => if q.id = p.id then p else q) = r.parts := by
    refine (List.map_congr_left ?_).trans (List.map_id _)
    intro q hq
    split
    · next hid => exact eq_of_mem h hp hq hid.symm
    · rfl
  simp only [setPart, hmap]

/-- The ids of the parts stay the same when a part is put back. -/
@[simp] theorem ids_setPart : (r.setPart p).parts.map Part.id = r.parts.map Part.id := by
  simp only [setPart, List.map_map]
  apply List.map_congr_left
  intro part _
  by_cases hpart : part.id = p.id <;> simp [hpart]

/-- The part with an identifier is one of the parts that are read. -/
theorem mem_of_partOf {id : String} (h : r.partOf id = some p) : p ∈ r.parts :=
  List.mem_of_find?_eq_some h

end Reading

/-- A part that is being read and put in its own place changes nothing. -/
theorem Reading.Stands.setPart_here {r : Reading} {v : Part × Passage} (h : r.Stands v) :
    r.setPart v.1 = r := by
  have hpart := h.here
  rw [Reading.part?_eq, Option.bind_eq_some_iff] at hpart
  obtain ⟨_, _, hof⟩ := hpart
  exact Reading.setPart_self h.distinct (Reading.mem_of_partOf hof)

/-- The window on the part that is being read and its passage. -/
def Window.part : Window (Part × Passage) where
  Shows := Reading.Stands
  Keeps v w := w.1.id = v.1.id
  put r v := { r.setPart v.1 with passage := v.2 }
  keeps_refl _ := rfl
  keeps_trans h h' := h'.trans h
  put_shown := by
    intro r v h
    rw [h.setPart_here, ← h.passage]
  shows_put := by
    intro r v w h hid
    refine ⟨?_, rfl, ?_⟩
    · exact ((Becomes.refl h.here).setPart hid).part?
    · simpa using h.distinct
  put_put := by
    intro r v w hid
    have hparts := congrArg Reading.parts (Reading.setPart_setPart (r := r) hid)
    exact congrArg (fun parts => { r with parts, passage := w.2 }) hparts

namespace Confined

variable {line : Nat} {key : VoiceKey}

/-- A change of the passage is confined to the part that is being read. -/
theorem changePassage (f : Passage → Passage) : Confined .part (Partwise.changePassage f) := by
  refine change (fun v => (v.1, f v.2)) (fun _ => rfl) ?_
  intro r v h
  show { r with passage := f r.passage } = { r.setPart v.1 with passage := f v.2 }
  rw [h.setPart_here, h.passage]

/-- A step that goes on with the part that is being read. -/
theorem withPart {f : Part → Step α} (hf : ∀ v, ConfinedAt .part v (f v.1)) :
    Confined .part (Partwise.currentPart line >>= f) := by
  intro v
  obtain ⟨outcome, said, hkeeps, hrun⟩ := hf v
  refine ⟨outcome, said, hkeeps, fun r j hr => ?_⟩
  rw [← hrun r j hr, StateT.run_bind, ExceptT.run_bind, StateT.run_bind]
  have hcurrent : ((Partwise.currentPart line).run r).run.run j = (.ok (v.1, r), j) := by
    simp only [Partwise.currentPart, StateT.run_bind, StateT.run_get, pure_bind, hr.here]
    rfl
  rw [hcurrent]
  rfl

/-- To look at the part that is being read is confined to it. -/
theorem currentPart : Confined .part (Partwise.currentPart line) := by
  rw [← bind_pure (Partwise.currentPart line)]
  exact withPart fun v => pure v.1 v

/-- To put back the part that is being read is confined to it, if its id stays. -/
theorem setPart {v : Part × Passage} {p : Part} (hid : p.id = v.1.id) :
    ConfinedAt .part v (modify fun r => r.setPart p) := by
  refine ⟨.ok ((), (p, v.2)), [], ?_, ?_⟩
  · rintro _ _ ⟨⟩
    exact hid
  · intro r j hr
    simp only [Except.map, Window.part, ← hr.passage]
    rfl

/-- A change of the part that leaves it its id. -/
theorem changePart {f : Part → Part} (hf : ∀ p, (f p).id = p.id) :
    Confined .part (Partwise.changePart line f) :=
  withPart fun v => setPart (hf v.1)

/-- To find or to begin a voice is confined to the part that is being read. -/
theorem voiceAt : Confined .part (Partwise.voiceAt line key) := by
  refine withPart fun v => ?_
  split
  · exact pure _ v
  · refine bindAt (lift (Steady.tell _).blind v) fun _ w hw => ?_
    exact bindAt (setPart (Part.id_ensureVoice.trans hw.symm)) fun _ u _ => pure _ u

end Confined

end Partwise
