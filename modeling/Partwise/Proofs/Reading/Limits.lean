import Mathlib.Algebra.Field.Rat
import Mathlib.Data.Rat.Lemmas
import Mathlib.Tactic.Linarith
import Partwise.Proofs.Music.Giving
import Partwise.Proofs.Reading.Decoders

/-!
# Reading · Limits: positions and divisions that fit

Fractions are kept in two words of 64 bits each. Sums and differences of positions are formed only
where they fit (`WholeNotes.plus?_inWords`, `WholeNotes.minus?_inWords`), so positions always do. A
negation leaves the words for the lowest of them only (`WholeNotes.neg?_eq_none`). Divisions of a
whole note that come into force fit 32 bits, and there is one of them at least
(`fit_of_gives_divisions`).
-/

namespace Partwise

theorem fitsWord_iff {n : Int} : fitsWord n = true ↔ -(wordLimit : Int) ≤ n ∧ n < wordLimit := by
  simp [fitsWord]

/-- A factor of a number that fits does so, too. -/
theorem fitsWord_of_mul {n : Int} {c : Nat} (hc : c ≠ 0) (h : fitsWord (n * c) = true) :
    fitsWord n = true := by
  rw [fitsWord_iff] at h ⊢
  have hpos : (1 : Int) ≤ c := by omega
  constructor
  · by_contra hlow
    nlinarith
  · by_contra hhigh
    nlinarith

/-! ## Fractions that fit -/

namespace WholeNotes

variable {x y z : WholeNotes}

/-- The numerator and the denominator of the fraction fit into words. -/
structure InWords (x : WholeNotes) : Prop where
  num : fitsWord x.num = true
  den : fitsWord x.den = true

theorem inWords_zero : InWords 0 := ⟨by decide, by decide⟩

/-- The terms of a fraction are those of the reduced one, times one factor. -/
theorem exists_factor (n : Int) {d : Nat} (hd : d ≠ 0) :
    ∃ c : Nat, c ≠ 0 ∧ n = (mkRat n d).num * c ∧ d = (mkRat n d).den * c :=
  Rat.mkRat_num_den hd rfl

/-- A fraction of two words fits once it is reduced. -/
theorem inWords_mkRat {n : Int} {d : Nat} (hd : d ≠ 0) (hn : fitsWord n = true)
    (hfits : fitsWord d = true) : InWords (mkRat n d) := by
  obtain ⟨c, hc, hnum, hden⟩ := exists_factor n hd
  have hbelow : (d : Int) = (mkRat n d).den * c := by exact_mod_cast hden
  exact ⟨fitsWord_of_mul hc (hnum ▸ hn), fitsWord_of_mul hc (hbelow ▸ hfits)⟩

/-- A fraction may be brought to any denominator that its own one divides. -/
theorem eq_div_common {common : Nat} (hx : x.den ∣ common) (hcommon : common ≠ 0) :
    x = ((common / x.den : Nat) * x.num : Int) / (common : Rat) := by
  obtain ⟨c, rfl⟩ := hx
  have hc : (c : Rat) ≠ 0 := Nat.cast_ne_zero.mpr (right_ne_zero_of_mul hcommon)
  have hden : (x.den : Rat) ≠ 0 := Nat.cast_ne_zero.mpr x.den_nz
  rw [Nat.mul_div_cancel_left c x.den_pos]
  push_cast
  rw [mul_comm (x.den : Rat), mul_div_mul_left _ _ hc, Rat.num_div_den]

/-- A sum that could be formed fits. -/
theorem plus?_inWords (h : x.plus? y = some z) : z.InWords := by
  unfold plus? at h
  split at h
  · next hcombines =>
    cases h
    simp only [combines, Bool.and_eq_true] at hcombines
    obtain ⟨⟨⟨hcommon, -⟩, -⟩, hsum⟩ := hcombines
    have hpos : Nat.lcm x.den y.den ≠ 0 := Nat.lcm_ne_zero x.den_nz y.den_nz
    have hall := inWords_mkRat hpos hsum hcommon
    rwa [Rat.mkRat_eq_div, Int.cast_add, add_div, ← eq_div_common (Nat.dvd_lcm_left ..) hpos,
      ← eq_div_common (Nat.dvd_lcm_right ..) hpos] at hall
  · exact nomatch h

/-- A difference that could be formed fits. -/
theorem minus?_inWords (h : x.minus? y = some z) : z.InWords := by
  unfold minus? at h
  split at h
  · next hcombines =>
    cases h
    simp only [combines, Bool.and_eq_true] at hcombines
    obtain ⟨⟨⟨hcommon, -⟩, -⟩, hdifference⟩ := hcombines
    have hpos : Nat.lcm x.den y.den ≠ 0 := Nat.lcm_ne_zero x.den_nz y.den_nz
    have hall := inWords_mkRat hpos hdifference hcommon
    rwa [Rat.mkRat_eq_div, Int.cast_sub, sub_div, ← eq_div_common (Nat.dvd_lcm_left ..) hpos,
      ← eq_div_common (Nat.dvd_lcm_right ..) hpos] at hall
  · exact nomatch h

/-- **A negation** leaves the words for the lowest of them only. -/
theorem neg?_eq_none (h : x.InWords) : x.neg? = none ↔ x.num = -(wordLimit : Int) := by
  have hnum := fitsWord_iff.mp h.num
  unfold neg?
  split
  · next hfits =>
    have hneg := fitsWord_iff.mp hfits
    simp only [reduceCtorEq, false_iff]
    omega
  · next hfits =>
    simp only [fitsWord_iff] at hfits
    simp only [true_iff]
    omega

end WholeNotes

/-! ## Values that are read -/

/-- A position that was reached forward fits. -/
theorem inWords_of_later {line : Nat} {position duration sum : WholeNotes}
    (h : Gives (later line position duration) sum) : sum.InWords :=
  WholeNotes.plus?_inWords (gives_demand h)

/-- A position that was reached backward fits. -/
theorem inWords_of_earlier {line : Nat} {position duration difference : WholeNotes}
    (h : Gives (earlier line position duration) difference) : difference.InWords :=
  WholeNotes.minus?_inWords (gives_demand h)

/-- Divisions of a whole note that may be in force. -/
def DivisionsFit (perWhole : Nat) : Prop :=
  0 < perWhole ∧ perWhole < 0x100000000

open Markup in
/-- Divisions that are read may be in force. -/
theorem fit_of_gives_divisions {e : Element} {perWhole : Nat}
    (h : Gives (divisionsOfElement e) perWhole) : DivisionsFit perWhole := by
  obtain ⟨perQuarter?, _, hrest⟩ := h.bind
  cases perQuarter? with
  | none => exact absurd hrest not_gives_throw
  | some perQuarter =>
    dsimp only at hrest
    split at hrest
    · exact absurd hrest not_gives_throw
    · split at hrest
      · exact absurd hrest not_gives_throw
      · rw [hrest.pure]
        unfold DivisionsFit
        omega

end Partwise
