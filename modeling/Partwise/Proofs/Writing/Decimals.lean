import Mathlib.Data.List.TakeWhile
import Mathlib.Tactic.Linarith
import Mathlib.Tactic.NormNum
import Mathlib.Tactic.Positivity
import Mathlib.Tactic.Ring
import Partwise.Decimal.Shortest

/-!
# Writing · Decimals: the shortest digits of a number round back to it

What a decimal number rounds to depends on its value alone: zeros at the end that the exponent makes
up for do not matter (`Binary32.ofScaled_mul_pow`). The digits that `Binary32.shortest` finds on a
grid have been tried; where there are none, the whole value stands, and it is the magnitude of the
rank. So they round to the rank in any case (`Binary32.standsFor_shortest`).
-/

namespace Partwise

open Text

namespace Binary32

/-! ## Rounding depends on the quotient alone -/

/-- A quotient is rounded alike when both its terms are multiplied. -/
theorem nearestEven_mul (n d : Nat) {k : Nat} (hk : 0 < k) :
    nearestEven (n * k) (d * k) = nearestEven n d := by
  have hless : ∀ a b : Nat, a * k < b * k ↔ a < b := fun _ _ => Nat.mul_lt_mul_right hk
  unfold nearestEven
  rw [Nat.mul_div_mul_right n d hk, Nat.mul_mod_mul_right]
  simp only [← Nat.mul_assoc, hless]

/-- The nearest rank of a quotient is the same when both its terms are multiplied. -/
theorem nearestRank_mul (n d : Nat) {k : Nat} (hk : 0 < k) :
    nearestRank (n * k) (d * k) = nearestRank n d := by
  unfold nearestRank
  rw [Nat.mul_div_mul_right n d hk]
  simp only [Nat.mul_right_comm d k, nearestEven_mul _ _ hk]

/-- A quotient is rounded to the same 32-bit number when both its terms are multiplied. -/
theorem round_mul (negative : Bool) (n d : Nat) {k : Nat} (hk : 0 < k) :
    round negative (n * k) (d * k) = round negative n d := by
  unfold round
  simp only [nearestRank_mul n d hk]

/-- Equal quotients round alike. -/
theorem round_congr (negative : Bool) {n d n' d' : Nat} (hd : 0 < d) (hd' : 0 < d')
    (h : n * d' = n' * d) : round negative n d = round negative n' d' := by
  rw [← round_mul negative n d hd', ← round_mul negative n' d' hd, h, Nat.mul_comm d' d]

/-- A whole number of units rounds to its rank. -/
theorem nearestRank_units (rank : Nat) : nearestRank (units rank) 1 = rank := by
  have heven : ∀ n, nearestEven n 1 = n := fun n => by simp [nearestEven, Nat.mod_one]
  unfold nearestRank units
  dsimp only
  rw [Nat.div_one, Nat.one_mul]
  split
  · next hsmall =>
    have hlog : Nat.log2 rank - 23 = 0 := by
      by_cases hzero : rank = 0
      · simp [hzero]
      · have := (Nat.log2_lt hzero (k := 23)).mpr hsmall
        omega
    rw [hlog, heven, Nat.zero_mul, Nat.zero_add]
  · next hlarge =>
    have hpos : 0 < binade := by decide
    have hquotient : 1 ≤ rank / binade := (Nat.one_le_div_iff hpos).mpr (by omega)
    obtain ⟨exponent, hexponent⟩ := Nat.exists_eq_add_of_le' hquotient
    have hrest : rank % binade < binade := Nat.mod_lt _ hpos
    have hlog : Nat.log2 ((binade + rank % binade) * Nat.pow 2 exponent) = 23 + exponent := by
      have hsum : (binade + rank % binade) * 2 ^ exponent ≠ 0 := by positivity
      have hbinade : binade = 2 ^ 23 := rfl
      refine (Nat.log2_eq_iff hsum).mpr ⟨?_, ?_⟩
      · rw [pow_add, ← hbinade]
        exact Nat.mul_le_mul_right _ (Nat.le_add_right _ _)
      · rw [Nat.add_right_comm, pow_add, pow_succ, ← hbinade]
        exact Nat.mul_lt_mul_of_pos_right (by omega) (by positivity)
    rw [hexponent, Nat.add_sub_cancel, hlog, Nat.add_sub_cancel_left]
    have hrank := Nat.div_add_mod' rank binade
    have hmul := nearestEven_mul (binade + rank % binade) 1 (Nat.pow_pos (n := exponent) two_pos)
    rw [Nat.one_mul, heven] at hmul
    have hpow : Nat.pow 2 exponent = 2 ^ exponent := rfl
    rw [hpow, hmul]
    rw [hexponent] at hrank
    linarith

/-! ## Rounding depends on the value alone -/

/-- A power of ten as a factor adds as many digits. -/
theorem digitCount_mul_pow {m : Nat} (hm : m ≠ 0) (k : Nat) :
    digitCount (m * 10 ^ k) = digitCount m + k := by
  induction k with
  | zero => simp
  | succ k ih =>
    have hpos : 0 < m * 10 ^ k := by positivity
    have hmore : Nat.toDigits 10 (m * 10 ^ (k + 1)) = Nat.toDigits 10 (m * 10 ^ k) ++ ['0'] := by
      have happend := Nat.toDigits_append_toDigits (d := 0) (by decide : 1 < 10) hpos (by decide)
      rw [Nat.toDigits_zero] at happend
      rw [happend, pow_succ]
      congr 1
      ring
    rw [digitCount, if_neg hpos.ne'] at ih
    rw [digitCount, if_neg (by positivity), hmore, List.length_append, ih]
    rfl

/-- Zeros at the end that the exponent makes up for do not matter. -/
theorem ofScaled_mul_pow (negative : Bool) (m k : Nat) (e : Int) :
    ofScaled negative (m * 10 ^ k) (e - k) = ofScaled negative m e := by
  unfold ofScaled
  by_cases hm : m = 0
  · simp [hm]
  have htop : e - k + digitCount (m * 10 ^ k) = e + digitCount m := by
    rw [digitCount_mul_pow hm]
    omega
  have hmore : m * 10 ^ k ≠ 0 := by positivity
  simp only [htop, hm, hmore, false_or, Nat.pow_eq]
  split
  · rfl
  split
  · rfl
  split
  · next hless =>
    split
    · -- both have places behind the point
      refine round_congr negative (by positivity) (by positivity) ?_
      have hplaces : (-(e - k)).toNat = (-e).toNat + k := by omega
      rw [hplaces, pow_add]
      ring
    · -- only the longer one has
      refine round_congr negative (by positivity) one_pos ?_
      have hpow : 10 ^ k = 10 ^ (-(e - k)).toNat * 10 ^ e.toNat := by
        rw [← pow_add]
        congr 1
        omega
      rw [hpow]
      ring
  · next hmany =>
    have hplaces : e.toNat = k + (e - k).toNat := by omega
    rw [if_neg (by omega), hplaces, pow_add, Nat.mul_assoc m]

/-! ## Shortest digits -/

/-- The sign is left to the magnitude. -/
theorem ofScaled_of_finite {m : Nat} {e : Int} {sign : Bool} {rank : Fin finiteRanks}
    (h : ofScaled false m e = .finite sign rank) (negative : Bool) :
    ofScaled negative m e = .finite negative rank := by
  have hround : ∀ n d, round false n d = .finite sign rank →
      round negative n d = .finite negative rank := by
    intro n d hfinite
    unfold round at hfinite ⊢
    split at hfinite
    · next hless =>
      cases hfinite
      rw [dif_pos hless]
    · exact nomatch hfinite
  unfold ofScaled at h ⊢
  dsimp only at h ⊢
  split at h
  · next hzero =>
    cases h
    rw [if_pos hzero]
  · next hzero =>
    rw [if_neg hzero]
    split at h
    · exact nomatch h
    · next hbounded =>
      rw [if_neg hbounded]
      split at h
      · next hless =>
        rw [if_pos hless]
        exact hround _ _ h
      · next hless =>
        rw [if_neg hless]
        exact hround _ _ h

/-- The decimal number stands for the rank, with either sign. -/
def Scientific.StandsFor (d : Scientific) (rank : Fin finiteRanks) : Prop :=
  ∀ negative, ofScaled negative d.digits d.exponent = .finite negative rank

/-- Digits that read back to a rank stand for it. -/
theorem standsFor_of_readsBack {d : Scientific} {rank : Fin finiteRanks}
    (h : readsBack rank.val d = true) : Scientific.StandsFor d rank := by
  unfold readsBack at h
  split at h
  · next sign r hfinite =>
    obtain rfl : r = rank := Fin.ext (beq_iff_eq.mp h)
    exact ofScaled_of_finite hfinite
  · exact nomatch h

/-- No finite magnitude exceeds 24 bits followed by 253 zeros. -/
theorem units_lt (rank : Fin finiteRanks) : units rank.val < 2 ^ 128 * 2 ^ 149 := by
  have hrank := rank.isLt
  have hless : rank.val / binade < 255 := (Nat.div_lt_iff_lt_mul (by decide)).mpr hrank
  unfold units
  split
  · next hsmall => exact lt_of_lt_of_le hsmall (by decide +kernel)
  · have hrest : rank.val % binade < binade := Nat.mod_lt _ (by decide)
    calc (binade + rank.val % binade) * Nat.pow 2 (rank.val / binade - 1)
        < 2 ^ 24 * 2 ^ (rank.val / binade - 1) :=
          Nat.mul_lt_mul_of_pos_right (by unfold binade at *; omega) (Nat.pow_pos two_pos)
      _ ≤ 2 ^ 24 * 2 ^ 253 := Nat.mul_le_mul_left _ (Nat.pow_le_pow_right two_pos (by omega))
      _ = 2 ^ 128 * 2 ^ 149 := by norm_num

/-- Every rank but zero is worth some units. -/
theorem units_pos {rank : Nat} (hrank : rank ≠ 0) : 0 < units rank := by
  unfold units
  split
  · omega
  · exact Nat.mul_pos (Nat.add_pos_left (by decide) _) (Nat.pow_pos two_pos)

/-- The whole value has at least 104 digits and at most 189. -/
theorem digitCount_everyDigit {rank : Fin finiteRanks} (hrank : rank.val ≠ 0) :
    103 < digitCount (units rank.val * 5 ^ 149) ∧ digitCount (units rank.val * 5 ^ 149) ≤ 189 := by
  have hsome := units_pos hrank
  rw [digitCount, if_neg (by positivity), ← Nat.not_le, Nat.length_toDigits_le_iff (by decide)
    (by decide), Nat.length_toDigits_le_iff (by decide) (by decide), Nat.not_lt]
  constructor
  · exact le_trans (by norm_num) (Nat.le_mul_of_pos_left (5 ^ 149) hsome)
  · calc units rank.val * 5 ^ 149 < 2 ^ 128 * 2 ^ 149 * 5 ^ 149 :=
          Nat.mul_lt_mul_of_pos_right (units_lt rank) (by positivity)
      _ = 2 ^ 128 * (2 * 5) ^ 149 := by rw [mul_pow, Nat.mul_assoc]
      _ < 10 ^ 40 * 10 ^ 149 := Nat.mul_lt_mul_of_pos_right (by norm_num) (by positivity)
      _ = 10 ^ 189 := by rw [← pow_add]

/-- The whole value stands for its rank. -/
theorem standsFor_everyDigit {rank : Fin finiteRanks} (hrank : rank.val ≠ 0) :
    Scientific.StandsFor (everyDigit rank.val) rank := by
  intro negative
  obtain ⟨hlow, hhigh⟩ := digitCount_everyDigit hrank
  have hsome := units_pos hrank
  have hround : round negative (units rank.val * 5 ^ 149 * unitsPerOne) (10 ^ 149) =
      round negative (units rank.val) 1 := by
    refine round_congr negative (by positivity) one_pos ?_
    rw [Nat.mul_one, Nat.mul_assoc, Nat.mul_comm (5 ^ 149), unitsPerOne, Nat.pow_eq, ← mul_pow,
      show 2 * 5 = 10 from rfl]
  unfold everyDigit ofScaled
  simp only [Nat.pow_eq]
  rw [if_neg (not_or.mpr ⟨by positivity, by omega⟩), if_neg (by omega), if_pos (by decide)]
  refine hround.trans ?_
  simp [round, nearestRank_units]

/-- Digits end in the zeros that they have at their end. -/
theorem exists_front (cs : List Char) : ∃ front,
    cs = front ++ List.replicate (cs.reverse.takeWhile (· == '0')).length '0' := by
  refine ⟨(cs.reverse.dropWhile (· == '0')).reverse, ?_⟩
  have hzeros : cs.reverse.takeWhile (· == '0') =
      List.replicate (cs.reverse.takeWhile (· == '0')).length '0' :=
    List.eq_replicate_of_mem fun c hc => by simpa using List.mem_takeWhile_imp hc
  have hall := congrArg List.reverse (List.takeWhile_append_dropWhile (l := cs.reverse)
    (p := (· == '0')))
  rw [List.reverse_append, List.reverse_reverse, hzeros, List.reverse_replicate] at hall
  exact hall.symm

/-- The zeros at the end of a number are the factors of ten that they stand for. -/
theorem Scientific.standsFor_stripped {d : Scientific} {rank : Fin finiteRanks}
    (h : Scientific.StandsFor d rank) : Scientific.StandsFor (Scientific.stripped d) rank := by
  intro negative
  unfold Scientific.stripped
  dsimp only
  split
  · exact h negative
  · next hsome =>
    obtain ⟨front, hfront⟩ := exists_front (Nat.toDigits 10 d.digits)
    set zeros := ((Nat.toDigits 10 d.digits).reverse.takeWhile (· == '0')).length
    have hvalue : Nat.ofDigitChars 10 front 0 * 10 ^ zeros = d.digits := by
      rw [← @Nat.ofDigitChars_ten_toDigits d.digits, hfront, Nat.ofDigitChars_append,
        Nat.ofDigitChars_replicate_zero, Nat.mul_comm]
    have hfewer : d.digits / 10 ^ zeros = Nat.ofDigitChars 10 front 0 := by
      rw [← hvalue, Nat.mul_div_cancel _ (by positivity)]
    have hscaled := ofScaled_mul_pow negative (Nat.ofDigitChars 10 front 0) zeros
      (d.exponent + zeros)
    rw [hvalue, Int.add_sub_cancel] at hscaled
    rw [Nat.pow_eq, hfewer, ← hscaled]
    exact h negative

/-- **The shortest digits** of a rank round to it. -/
theorem standsFor_shortest (tie : Tie) {rank : Fin finiteRanks} (hrank : rank.val ≠ 0) :
    Scientific.StandsFor (shortest tie rank.val) rank := by
  refine Scientific.standsFor_stripped ?_
  cases hfound : (List.map (fun (i : Nat) => leadingExponent rank.val - i) (List.range 9)).findSome?
      (neighbour? tie rank.val) with
  | none => exact standsFor_everyDigit hrank
  | some d =>
    obtain ⟨exponent, -, hneighbour⟩ := List.exists_of_findSome?_eq_some hfound
    exact standsFor_of_readsBack (List.find?_some hneighbour)

end Binary32

end Partwise
