/-!
# Score · Ordered: lists in ascending order of a key

Staves, voices, clefs and stanzas are kept in ascending order, each key once. `upsert` puts an
element in its place, in the stead of one with the same key; what has another key stays as it is.
-/

namespace Partwise

variable {α κ : Type} [DecidableEq κ]

/-- The list with the element in the place of its key, before every element with a greater key. An
element with the same key is replaced. -/
def upsert (before : κ → κ → Bool) (key : α → κ) (x : α) : List α → List α
  | [] => [x]
  | y :: ys =>
    if key x = key y then x :: ys
    else if before (key x) (key y) then x :: y :: ys
    else y :: upsert before key x ys

/-- The element is in the list, and besides it only what was there. -/
theorem mem_upsert {before : κ → κ → Bool} {key : α → κ} {x z : α} {ys : List α}
    (h : z ∈ upsert before key x ys) : z = x ∨ z ∈ ys := by
  induction ys with
  | nil => simpa [upsert] using h
  | cons y ys ih =>
    unfold upsert at h
    split at h
    · rcases List.mem_cons.mp h with rfl | h
      · exact Or.inl rfl
      · exact Or.inr (List.mem_cons_of_mem _ h)
    · split at h
      · exact List.mem_cons.mp h
      · rcases List.mem_cons.mp h with rfl | h
        · exact Or.inr List.mem_cons_self
        · exact (ih h).imp_right (List.mem_cons_of_mem _)

theorem mem_upsert_self (before : κ → κ → Bool) (key : α → κ) (x : α) (ys : List α) :
    x ∈ upsert before key x ys := by
  induction ys with
  | nil => simp [upsert]
  | cons y ys ih =>
    unfold upsert
    split
    · simp
    · split <;> simp [ih]

/-- Natural numbers in ascending order. -/
def insertNumber (n : Nat) (ns : List Nat) : List Nat :=
  upsert Nat.blt id n ns

/-- Texts are ordered by the code points of their characters, a text before what it is the beginning
of. -/
def charsBefore : List Char → List Char → Bool
  | _, [] => false
  | [], _ :: _ => true
  | c :: cs, d :: ds => if c = d then charsBefore cs ds else Nat.blt c.toNat d.toNat

/-- Texts in ascending order. -/
def insertText (s : String) (ss : List String) : List String :=
  upsert (fun a b => charsBefore a.toList b.toList) id s ss

end Partwise
