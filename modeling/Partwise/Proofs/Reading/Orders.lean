import Mathlib.Tactic.Tauto
import Partwise.Score.Ordered

/-!
# Reading · Orders: what it means to be kept in ascending order

Voices and stanzas are kept in ascending order, each once, by `upsert`. Under an order (`Orders`)
keys stay so when one more comes in (`Orders.ascending_upsert`), and those that are picked out of
them are what would have come in without the others
(`Orders.filter_upsert`). -/

namespace Partwise

variable {κ : Type} [DecidableEq κ] {before : κ → κ → Bool} {key k : κ} {keys : List κ}

/-- Of two different keys one comes before the other, and none comes before itself. -/
structure Orders (before : κ → κ → Bool) : Prop where
  irrefl : ∀ a, ¬ before a a = true
  trans : ∀ {a b c}, before a b = true → before b c = true → before a c = true
  total : ∀ {a b}, a ≠ b → ¬ before a b = true → before b a = true

/-- Besides the key there is only what was there. -/
theorem mem_upsert_iff : k ∈ upsert before id key keys ↔ k = key ∨ k ∈ keys := by
  refine ⟨mem_upsert, ?_⟩
  induction keys with
  | nil => simp [upsert]
  | cons other keys ih =>
    unfold upsert
    split
    · next hsame =>
      rw [id_eq, id_eq] at hsame
      simp [hsame]
    · split
      · simp
      · simp only [List.mem_cons]
        tauto

namespace Orders

/-- A key comes first that comes before all others. -/
theorem upsert_first (ho : Orders before) (h : ∀ k ∈ keys, before key k = true) :
    upsert before id key keys = key :: keys := by
  cases keys with
  | nil => rfl
  | cons first keys =>
    have hbefore := h first List.mem_cons_self
    have hne : key ≠ first := fun heq => ho.irrefl first (heq ▸ hbefore)
    rw [upsert, id_eq, id_eq, if_neg hne, if_pos hbefore]

/-- Keys stay in ascending order when one comes in. -/
theorem ascending_upsert (ho : Orders before) (h : keys.Pairwise fun a b => before a b) :
    (upsert before id key keys).Pairwise fun a b => before a b := by
  induction keys with
  | nil => exact List.pairwise_singleton _ _
  | cons other keys ih =>
    obtain ⟨hfirst, hrest⟩ := List.pairwise_cons.mp h
    unfold upsert
    split
    · next hsame =>
      rw [id_eq, id_eq] at hsame
      rw [hsame]
      exact h
    · next hother =>
      split
      · next hbefore =>
        refine List.pairwise_cons.mpr ⟨fun k hk => ?_, h⟩
        rcases List.mem_cons.mp hk with rfl | hk
        · exact hbefore
        · exact ho.trans hbefore (hfirst k hk)
      · next hafter =>
        refine List.pairwise_cons.mpr ⟨fun k hk => ?_, ih hrest⟩
        rcases mem_upsert_iff.mp hk with rfl | hk
        · exact ho.total hother hafter
        · exact hfirst k hk

/-- **Some of the keys** are what they would be without the others. -/
theorem filter_upsert (ho : Orders before) (keep : κ → Bool)
    (h : keys.Pairwise fun a b => before a b) :
    (upsert before id key keys).filter keep =
      if keep key then upsert before id key (keys.filter keep) else keys.filter keep := by
  induction keys with
  | nil => cases hkeep : keep key <;> simp [upsert, hkeep]
  | cons other keys ih =>
    obtain ⟨hfirst, hrest⟩ := List.pairwise_cons.mp h
    rw [upsert, id_eq, id_eq]
    split
    · next hsame =>
      subst hsame
      cases hkeep : keep key <;> simp [hkeep, upsert]
    · next hother =>
      split
      · next hbefore =>
        have hall : ∀ k ∈ (other :: keys).filter keep, before key k = true := by
          intro k hk
          rcases List.mem_cons.mp (List.mem_filter.mp hk).1 with rfl | hk
          · exact hbefore
          · exact ho.trans hbefore (hfirst k hk)
        rw [ho.upsert_first hall, List.filter_cons]
      · next hafter =>
        rw [List.filter_cons, ih hrest, List.filter_cons]
        cases keep key <;> cases keep other <;> simp [upsert, hother, hafter]

end Orders

end Partwise
