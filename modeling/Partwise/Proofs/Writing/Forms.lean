import Mathlib.Data.Rat.Lemmas
import Partwise.Proofs.Writing.Values
import Partwise.Report.Diagnostic
import Partwise.Score.Basic

/-!
# Writing · Forms: values that are read back from the form they are written in

Almost all that a transcript is made of is written so that it is read back as it was (`ReadsBack`);
what may be absent must not be written as null when it is there (`Present`). Both are said kind by
kind, each in terms of its parts, and of tuplets, repeats and endings by recursion.
-/

namespace Partwise

/-! ## Members of an object -/

namespace Json

variable {α : Type} {name : String} {j : Json} {members : List (String × Json)}

/-- An object is legible if all its members are. -/
theorem isLegible_object : (object members).isLegible = members.all (·.2.isLegible) := by
  show haveLegible members = _
  induction members with
  | nil => rfl
  | cons m ms ih => rw [haveLegible, ih, List.all_cons]

/-- An array is legible if all its items are. -/
theorem isLegible_array {items : List Json} : (array items).isLegible = items.all isLegible := by
  show areLegible items = _
  induction items with
  | nil => rfl
  | cons item items ih => rw [areLegible, ih, List.all_cons]

/-- A member is looked for among the others unless it comes first. -/
theorem member?_cons (other : String) : (object ((other, j) :: members)).member? name =
    if name = other then some j else (object members).member? name := by
  show List.lookup name ((other, j) :: members) = _
  rw [List.lookup_cons]
  by_cases h : name = other
  · simp [h]
  · simp [h, beq_eq_false_iff_ne.mpr h, member?]

/-- A member is read from among the others unless it comes first. -/
theorem get?_cons [OfJson α] (other : String) :
    ((object ((other, j) :: members)).get? name : Option α) =
      if name = other then ofJson? j else (object members).get? name := by
  unfold get?
  rw [member?_cons]
  split <;> rfl

/-- The items of an array that is a member are read one by one. -/
theorem exists_items {items : List Json} (h : j.member? name = some (.array items)) :
    ∃ xs, j.items? name = some xs ∧
      ∀ {β : Type} (f : Json → Option β), (xs.mapM fun item => f item.val) = items.mapM f := by
  unfold items?
  split
  · next items' h' =>
    obtain rfl : items' = items := by simpa [h'] using h
    refine ⟨_, rfl, fun f => ?_⟩
    rw [List.mapM_subtype (g := f) fun _ _ => rfl, List.unattach, List.map_map]
    exact congrArg (List.mapM f) (List.attach_map_subtype_val items')
  · next hnone => exact absurd h (hnone items)

/-- A member that is there is read. -/
theorem exists_part {value : Json} (h : j.member? name = some value) :
    ∃ part, j.part? name = some part ∧ part.val = value := by
  unfold part?
  split
  · next part h' => exact ⟨_, rfl, by simpa [h'] using h⟩
  · next h' => exact absurd (h'.symm.trans h) nofun

end Json

/-- Values that are read back from the form they are written in. -/
class ReadsBack (α : Type) [ToJson α] [OfJson α] : Prop where
  legible : ∀ x : α, (toJson x).isLegible = true
  back : ∀ x : α, ofJson? (toJson x) = some x

/-- Values that are not written as null. -/
class Present (α : Type) [ToJson α] : Prop where
  present : ∀ x : α, toJson x ≠ .null

namespace ReadsBack

open Json Present

/-! ## Plain values -/

section

variable {α β : Type}

instance [Vocabulary α] : ReadsBack α where
  legible _ := rfl
  back := Vocabulary.named?_name

instance [Vocabulary α] : Present α := ⟨fun _ h => nomatch h⟩

instance : ReadsBack Bool where
  legible _ := rfl
  back _ := rfl

instance : ReadsBack Int where
  legible _ := rfl
  back _ := rfl

instance : Present Int := ⟨fun _ h => nomatch h⟩

instance : ReadsBack Nat where
  legible _ := rfl
  back _ := rfl

instance : Present Nat := ⟨fun _ h => nomatch h⟩

instance : ReadsBack String where
  legible _ := rfl
  back _ := rfl

instance : Present String := ⟨fun _ h => nomatch h⟩

instance : ReadsBack Rat where
  legible _ := rfl
  back q := by
    show (if (q.den : Int) = 0 then none else some ((q.num : Rat) / ((q.den : Int) : Rat))) = some q
    rw [if_neg (by exact_mod_cast q.den_nz), Int.cast_natCast, Rat.num_div_den]

/-- What may be absent is read back if it is, and also if it is not. -/
instance [ToJson α] [OfJson α] [ReadsBack α] [Present α] : ReadsBack (Option α) where
  legible
    | none => rfl
    | some x => legible x
  back
    | none => rfl
    | some x => by
      have hsome : ∀ j : Json, j ≠ .null → (ofJson? j : Option (Option α)) = (ofJson? j).map some := by
        intro j hj
        cases j <;> first | exact absurd rfl hj | rfl
      show ofJson? (toJson x) = some (some x)
      rw [hsome _ (present x), back]
      rfl

/-- A list of values is read back value by value. -/
theorem mapM_back [ToJson α] [OfJson α] [ReadsBack α] (xs : List α) :
    (xs.map toJson).mapM ofJson? = some xs := by
  induction xs with
  | nil => rfl
  | cons x xs ih => simp [back, ih]

instance [ToJson α] [OfJson α] [ReadsBack α] : ReadsBack (List α) where
  legible xs := by
    show Json.isLegible (.array _) = true
    simp [isLegible_array, legible]
  back := mapM_back

instance [ToJson α] [OfJson α] [ReadsBack α] [ToJson β] [OfJson β] [ReadsBack β] :
    ReadsBack (α × β) where
  legible p := by
    show Json.isLegible (.array _) = true
    simp [isLegible_array, legible]
  back p := by
    show (do some (← ofJson? (toJson p.1), ← ofJson? (toJson p.2))) = some p
    rw [back, back]
    rfl

instance [ToJson α] [ToJson β] : Present (α × β) := ⟨fun _ h => nomatch h⟩

end

/-! ## Signs -/

instance : ReadsBack Display where
  legible d := by
    show Json.isLegible (.object _) = true
    simp [isLegible_object, legible]
  back d := by
    show ofJson? (Json.object _) = some d
    change Option.bind _ _ = _
    simp [get?_cons, back]

instance : Present Display := ⟨fun _ h => nomatch h⟩

instance : ReadsBack Clef where
  legible c := by
    show Json.isLegible (.object _) = true
    simp [isLegible_object, legible]
  back c := by
    show ofJson? (Json.object _) = some c
    change Option.bind _ _ = _
    simp [get?_cons, back]

instance : ReadsBack Key where
  legible k := by
    show Json.isLegible (.object _) = true
    simp [isLegible_object, legible]
  back k := by
    show ofJson? (Json.object _) = some k
    change Option.bind _ _ = _
    simp [get?_cons, back]

instance : Present Key := ⟨fun _ h => nomatch h⟩

instance : ReadsBack Time where
  legible t := by
    show Json.isLegible (.object _) = true
    simp [isLegible_object, legible]
  back t := by
    show ofJson? (Json.object _) = some t
    change Option.bind _ _ = _
    simp [get?_cons, back]

instance : Present Time := ⟨fun _ h => nomatch h⟩

instance : ReadsBack Tempo where
  legible t := by
    show Json.isLegible (.object _) = true
    simp [isLegible_object, legible]
  back t := by
    show ofJson? (Json.object _) = some t
    change Option.bind _ _ = _
    simp [get?_cons, back]

instance : ReadsBack Direction where
  legible
    | .tempo t => by
      show Json.isLegible (.object _) = true
      simp [isLegible_object, legible]
    | .rehearsal _ | .segno | .coda => rfl
  back
    | .tempo t => by
      show (ofJson? (toJson t)).map Direction.tempo = _
      rw [back]
      rfl
    | .rehearsal _ | .segno | .coda => rfl

instance : ReadsBack Barline where
  legible b := by
    show Json.isLegible (.object _) = true
    simp [isLegible_object, legible]
  back b := by
    show ofJson? (Json.object _) = some b
    change Option.bind _ _ = _
    simp [get?_cons, back]

/-! ## Notes -/

instance : ReadsBack Pitch where
  legible p := by
    show Json.isLegible (.object _) = true
    simp [isLegible_object, legible]
  back p := by
    show ofJson? (Json.object _) = some p
    change Option.bind _ _ = _
    simp [get?_cons, back]

instance : ReadsBack NoteContent where
  legible
    | .pitched pitch => by
      show Json.isLegible (.object _) = true
      simp [isLegible_object, legible]
    | .unpitched step? octave? => by
      show Json.isLegible (.object [(_, .object _)]) = true
      simp [isLegible_object, legible]
    | .rest _ _ => rfl
  back
    | .pitched pitch => by
      show (ofJson? (toJson pitch)).map NoteContent.pitched = _
      rw [back]
      rfl
    | .unpitched step? octave? => by
      change Option.bind (Json.get? (.object _) _) _ = _
      simp [get?_cons, back]
    | .rest _ _ => rfl

instance : ReadsBack Slur where
  legible s := by
    show Json.isLegible (.object _) = true
    simp [isLegible_object, legible]
  back s := by
    show ofJson? (Json.object _) = some s
    change Option.bind _ _ = _
    simp [get?_cons, back]

instance : ReadsBack Ornament where
  legible
    | .sign _ | .tremolo _ => rfl
  back
    | .sign s => by
      show (ofJson? (toJson s)).map Ornament.sign = _
      rw [back]
      rfl
    | .tremolo _ => rfl

instance : ReadsBack Dynamics where
  legible
    | .sign _ | .other _ => rfl
  back
    | .sign s => by
      show (ofJson? (toJson s)).map Dynamics.sign = _
      rw [back]
      rfl
    | .other _ => rfl

instance : ReadsBack Wedge where
  legible w := by
    show Json.isLegible (.object _) = true
    simp [isLegible_object, legible]
  back w := by
    show ofJson? (Json.object _) = some w
    change Option.bind _ _ = _
    simp [get?_cons, back]

instance : ReadsBack Words where
  legible w := by
    show Json.isLegible (.object _) = true
    simp [isLegible_object, legible]
  back w := by
    show ofJson? (Json.object _) = some w
    change Option.bind _ _ = _
    simp [get?_cons, back]

instance : ReadsBack Attachments where
  legible a := by
    show Json.isLegible (.object _) = true
    simp [isLegible_object, legible]
  back a := by
    show ofJson? (Json.object _) = some a
    change Option.bind _ _ = _
    simp [get?_cons, back]

instance : ReadsBack LyricChunk where
  legible c := by
    show Json.isLegible (.object _) = true
    simp [isLegible_object, legible]
  back c := by
    show ofJson? (Json.object _) = some c
    change Option.bind _ _ = _
    simp [get?_cons, back]

instance : ReadsBack Note where
  legible n := by
    show Json.isLegible (.object _) = true
    simp [isLegible_object, legible]
  back n := by
    show ofJson? (Json.object _) = some n
    change Option.bind _ _ = _
    simp [get?_cons, back]

instance : ReadsBack Chord where
  legible c := by
    show Json.isLegible (.object _) = true
    simp [isLegible_object, legible]
  back c := by
    show ofJson? (Json.object _) = some c
    change Option.bind _ _ = _
    simp [get?_cons, back]

/-! ## What is known of a document -/

instance : ReadsBack Creator where
  legible c := by
    show Json.isLegible (.object _) = true
    simp [isLegible_object, legible]
  back c := by
    show ofJson? (Json.object _) = some c
    change Option.bind _ _ = _
    simp [get?_cons, back]

instance : ReadsBack Identification where
  legible i := by
    show Json.isLegible (.object _) = true
    simp [isLegible_object, legible]
  back i := by
    show ofJson? (Json.object _) = some i
    change Option.bind _ _ = _
    simp [get?_cons, back]

instance : ReadsBack Diagnostic where
  legible d := by
    show Json.isLegible (.object _) = true
    simp [isLegible_object, legible]
  back d := by
    show ofJson? (Json.object _) = some d
    change Option.bind _ _ = _
    simp [get?_cons, back]

instance : ReadsBack Diagnostics where
  legible d := by
    show Json.isLegible (.object _) = true
    simp [isLegible_object, legible]
  back d := by
    show ofJson? (Json.object _) = some d
    change Option.bind _ _ = _
    simp [get?_cons, back]

end ReadsBack

/-! ## Tuplets -/

open Json ReadsBack

mutual

/-- A tuplet is read back. -/
theorem Tuplet.back_form (t : Tuplet) :
    t.form.isLegible = true ∧ Tuplet.ofForm? t.form = some t := by
  have hitems : t.form.member? "elements" = some (.array (formsOfMembers t.members)) := by
    cases t
    simp [Tuplet.form, member?_cons]
  obtain ⟨xs, hxs, hread⟩ := exists_items hitems
  rw [Tuplet.ofForm?, hxs, Option.bind_eq_bind, Option.bind_some, hread]
  obtain ⟨_, _, _, _, _, _, _, _, members, _⟩ := t
  obtain ⟨hlegible, hback⟩ := back_formsOfMembers members
  constructor
  · simp [Tuplet.form, isLegible_object, isLegible_array, legible, hlegible]
  · simp [Tuplet.form, hback, get?_cons, back]

/-- A member of a tuplet is read back. -/
theorem TupletMember.back_form (m : TupletMember) :
    m.form.isLegible = true ∧ TupletMember.ofForm? m.form = some m := by
  rw [TupletMember.form.eq_def, TupletMember.ofForm?.eq_def]
  match m with
  | .note n => simp [isLegible_object, legible, back]
  | .chord c => simp [isLegible_object, legible, back]
  | .tuplet t => simp [isLegible_object, t.back_form]

/-- Members of a tuplet are read back. -/
theorem back_formsOfMembers (ms : List TupletMember) :
    (formsOfMembers ms).all Json.isLegible = true ∧
      (formsOfMembers ms).mapM TupletMember.ofForm? = some ms := by
  match ms with
  | [] => exact ⟨rfl, rfl⟩
  | m :: ms => simp [formsOfMembers, m.back_form, back_formsOfMembers ms]

end

instance : ReadsBack Tuplet where
  legible t := t.back_form.1
  back t := t.back_form.2

/-! ## Elements of voices -/

/-- The elements of a chunk are read one by one. -/
theorem chunkOfForm?_eq (items : List Json) :
    chunkOfForm? (.object [("elements", .array items)]) = items.mapM VoiceElement.ofForm? := by
  obtain ⟨xs, hxs, hread⟩ :=
    @exists_items "elements" (.object [("elements", .array items)]) items (by simp [member?_cons])
  rw [chunkOfForm?, hxs, Option.bind_eq_bind, Option.bind_some, hread]

/-- An ending is read if its elements are. -/
theorem Ending.ofForm?_eq (numbers : List Nat) (kind : EndingKind) {chunk : List VoiceElement}
    {items : List Json} (hitems : items.mapM VoiceElement.ofForm? = some chunk) :
    Ending.ofForm? (.object [("numbers", toJson numbers), ("kind", toJson kind),
      ("chunk", .object [("elements", .array items)])]) = some ⟨numbers, kind, chunk⟩ := by
  obtain ⟨part, hpart, hval⟩ := @exists_part "chunk" (.object [("numbers", toJson numbers),
    ("kind", toJson kind), ("chunk", .object [("elements", .array items)])])
    (.object [("elements", .array items)]) (by simp [member?_cons])
  rw [Ending.ofForm?, hpart, Option.bind_eq_bind, Option.bind_some, hval, chunkOfForm?_eq, hitems]
  simp [get?_cons, back]

mutual

/-- An element is read back. -/
theorem VoiceElement.back_form (e : VoiceElement) :
    e.form.isLegible = true ∧ VoiceElement.ofForm? e.form = some e := by
  rw [VoiceElement.form.eq_def, VoiceElement.ofForm?.eq_def]
  match e with
  | .note _ | .chord _ | .tuplet _ | .barline _ | .clef _ | .key _ | .time _ | .direction _ =>
    simp [isLegible_object, legible, back]
  | .repeated r => simp [isLegible_object, r.back_form]
  | .barCheck next? => simp [isLegible_object, legible, get?_cons, back]

/-- A repeat is read back. -/
theorem Repeat.back_form (r : Repeat) :
    r.form.isLegible = true ∧ Repeat.ofForm? r.form = some r := by
  have hbody : r.form.member? "common_part" = some (chunkForm r.body) := by
    cases r
    simp [Repeat.form, chunkForm, member?_cons]
  have hendings : r.form.member? "endings" = some (.array (formsOfEndings r.endings)) := by
    cases r
    simp [Repeat.form, member?_cons]
  obtain ⟨part, hpart, hval⟩ := exists_part hbody
  obtain ⟨xs, hxs, hread⟩ := exists_items hendings
  rw [Repeat.ofForm?, hpart, Option.bind_eq_bind, Option.bind_some, hxs, Option.bind_eq_bind,
    Option.bind_some, hread, hval, chunkForm, chunkOfForm?_eq]
  obtain ⟨body, endings, _, _⟩ := r
  obtain ⟨hlegible, hback⟩ := back_formsOfElements body
  obtain ⟨hlegible', hback'⟩ := back_formsOfEndings endings
  constructor
  · simp [Repeat.form, isLegible_object, isLegible_array, legible, hlegible, hlegible']
  · simp [Repeat.form, hback, hback', get?_cons, back]

/-- Elements are read back. -/
theorem back_formsOfElements (es : List VoiceElement) :
    (formsOfElements es).all Json.isLegible = true ∧
      (formsOfElements es).mapM VoiceElement.ofForm? = some es := by
  match es with
  | [] => exact ⟨rfl, rfl⟩
  | e :: es => simp [formsOfElements, e.back_form, back_formsOfElements es]

/-- Endings are read back. -/
theorem back_formsOfEndings (endings : List Ending) :
    (formsOfEndings endings).all Json.isLegible = true ∧
      (formsOfEndings endings).mapM Ending.ofForm? = some endings := by
  match endings with
  | [] => exact ⟨rfl, rfl⟩
  | ⟨numbers, kind, chunk⟩ :: endings =>
    obtain ⟨hlegible, hback⟩ := back_formsOfElements chunk
    obtain ⟨hlegible', hback'⟩ := back_formsOfEndings endings
    constructor
    · simp [formsOfEndings, isLegible_object, isLegible_array, legible, hlegible, hlegible']
    · simp [formsOfEndings, Ending.ofForm?_eq numbers kind hback, hback']

end

instance : ReadsBack VoiceElement where
  legible e := e.back_form.1
  back e := e.back_form.2

instance : ReadsBack Repeat where
  legible r := r.back_form.1
  back r := r.back_form.2

instance : Present Repeat := ⟨fun ⟨_, _, _, _⟩ h => nomatch h⟩

end Partwise
