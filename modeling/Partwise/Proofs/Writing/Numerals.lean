import Mathlib.Data.List.TakeWhile
import Partwise.Json.Reader
import Partwise.Proofs.Reading.Rescaling
import Partwise.Proofs.Writing.Decimals

/-!
# Writing · Numerals: the text of a number is read as that number

A `Numeral` is a magnitude as it is written, with digits before and behind the point and with an
exponent. One that is `Numeral.Proper` is read with its digits and its exponent; the layouts only
move the point and fill up with zeros, so what they write stands for the same value
(`Numeral.Writes`).

* `Numeral.Proper.numberOfWord?`: a proper numeral is read as a number;
* `Layout.numberOfWord?_text`: the text of a finite number is read as that number;
* `Json.numberOfWord?_whole`: the text of a whole number is read as that one.
-/

namespace Partwise

open Text

/-! ## Pieces of a text -/

namespace Text

variable {separates : Char → Bool} {cs ds : List Char} {c : Char}

/-- A text without separators is one piece. -/
theorem pieces_of_none (h : ∀ x ∈ cs, separates x = false) : pieces separates cs = [cs] := by
  induction cs with
  | nil => rfl
  | cons c cs ih =>
    rw [pieces, h c List.mem_cons_self, ih fun x hx => h x (List.mem_cons_of_mem _ hx)]

/-- A text ends its first piece at the first separator. -/
theorem pieces_append (h : ∀ x ∈ cs, separates x = false) (hc : separates c = true) :
    pieces separates (cs ++ c :: ds) = cs :: pieces separates ds := by
  induction cs with
  | nil => rw [List.nil_append, pieces, hc]
  | cons x cs ih =>
    rw [List.cons_append, pieces, h x List.mem_cons_self,
      ih fun y hy => h y (List.mem_cons_of_mem _ hy)]

/-- A run of characters of one kind ends before the first one that is not of the kind. -/
theorem span_append {kind : Char → Bool} (hcs : ∀ x ∈ cs, kind x = true)
    (hds : ∀ x ∈ ds.head?, kind x = false) :
    (cs ++ ds).takeWhile kind = cs ∧ (cs ++ ds).dropWhile kind = ds := by
  rw [List.takeWhile_append_of_pos hcs, List.dropWhile_append_of_pos hcs]
  cases ds with
  | nil => simp
  | cons d ds => simp [hds d rfl]

end Text

/-! ## Numbers that are written with a point or an exponent -/

/-- How a magnitude is written: the digits before the point, those behind it, if there is one, and
the exponent, if there is one. -/
structure Numeral where
  whole : List Char
  fraction : List Char := []
  power? : Option (List Char × Int) := none

namespace Numeral

/-- The point and the digits behind it. -/
def point (n : Numeral) : List Char :=
  if n.fraction = [] then [] else '.' :: n.fraction

/-- The exponent as it is written. -/
def power (n : Numeral) : List Char :=
  n.power?.elim [] fun p => 'e' :: p.1

def text (n : Numeral) : List Char := n.whole ++ (n.point ++ n.power)

/-- All digits as a number. -/
def digits (n : Numeral) : Nat := Text.valueOfDigits (n.whole ++ n.fraction)

def exponent (n : Numeral) : Int := n.power?.elim 0 Prod.snd - n.fraction.length

/-- The number is well written, and not as a whole number. -/
structure Proper (n : Numeral) : Prop where
  leads : Json.isWhole n.whole = true
  follows : ∀ c ∈ n.fraction, c.isDigit = true
  raised : ∀ p, n.power? = some p → Json.isExponent ('e' :: p.1) = true ∧
    integer? p.1 = some p.2 ∧ ∀ c ∈ p.1, c ≠ 'e' ∧ c ≠ 'E'
  broken : n.fraction ≠ [] ∨ n.power?.isSome

/-- A number with its sign. -/
def signed (negative : Bool) (cs : List Char) : List Char :=
  if negative then '-' :: cs else cs

/-- The sign can be taken off again. -/
theorem body_signed (negative : Bool) {cs : List Char} (hcs : cs.head?.any Char.isDigit = true) :
    (if (signed negative cs).head? == some '-' then (signed negative cs).drop 1
      else signed negative cs) = cs := by
  cases negative with
  | true => rfl
  | false =>
    have hplain : cs.head? ≠ some '-' := by
      intro hminus
      rw [hminus] at hcs
      exact absurd hcs (by decide)
    simp [signed, hplain]

/-- A magnitude that begins with a digit is none of the words. -/
theorem magnitude?_of_digit {c : Char} {cs : List Char} (hc : c.isDigit = true) (negative : Bool) :
    Binary32.magnitude? negative (c :: cs) =
      (Binary32.scaled? (c :: cs)).map fun p => Binary32.ofScaled negative p.1 p.2 := by
  have hlower : c.toLower = c := by
    rw [Char.isDigit, Bool.and_eq_true, decide_eq_true_eq, decide_eq_true_eq] at hc
    delta Char.toLower
    rw [dif_neg]
    exact fun hupper => absurd (UInt32.le_trans hupper.1 hc.2) (by decide)
  have hword : ∀ {w : String} {d : Char} {ds : List Char},
      String.ofList ((c :: cs).map Char.toLower) = w → w.toList = d :: ds → d.isDigit = true := by
    intro w d ds hw hd
    rw [← hw, String.toList_ofList, List.map_cons, hlower] at hd
    rw [← (List.cons.inj hd).1]
    exact hc
  unfold Binary32.magnitude?
  split
  · next h => exact absurd (hword h rfl) (by decide)
  · next h => exact absurd (hword h rfl) (by decide)
  · next h => exact absurd (hword h rfl) (by decide)
  · rfl

namespace Proper

variable {n : Numeral}

/-- The whole digits of a proper numeral are a numeral of their own. -/
theorem isNumeral (h : n.Proper) : Text.isNumeral n.whole = true :=
  (Bool.and_eq_true_iff.mp h.leads).1

/-- The whole digits of a proper numeral are digits. -/
theorem isDigit (h : n.Proper) : ∀ c ∈ n.whole, c.isDigit = true :=
  List.all_eq_true.mp (Bool.and_eq_true_iff.mp h.isNumeral).2

/-- A proper numeral begins with a digit. -/
theorem first (h : n.Proper) : ∃ c cs, n.text = c :: cs ∧ c.isDigit = true := by
  have hsome : n.whole ≠ [] := by
    simpa using (Bool.and_eq_true_iff.mp h.isNumeral).1
  obtain ⟨c, cs, hwhole⟩ := List.exists_cons_of_ne_nil hsome
  exact ⟨c, cs ++ (n.point ++ n.power), by rw [text, hwhole, List.cons_append],
    h.isDigit c (by simp [hwhole])⟩

/-- Before the exponent there are digits and the point. -/
theorem mem_mantissa (h : n.Proper) {c : Char} (hc : c ∈ n.whole ++ n.point) :
    c.isDigit = true ∨ c = '.' := by
  rcases List.mem_append.mp hc with hwhole | hpoint
  · exact Or.inl (h.isDigit c hwhole)
  · unfold point at hpoint
    split at hpoint
    · exact nomatch hpoint
    · rcases List.mem_cons.mp hpoint with hmark | hfraction
      · exact Or.inr hmark
      · exact Or.inl (h.follows c hfraction)

/-- The digits are read with the places behind the point. -/
theorem pointed? (h : n.Proper) :
    Binary32.pointed? (n.whole ++ n.point) = some (n.digits, n.fraction.length) := by
  have hplain : ∀ {cs : List Char}, (∀ c ∈ cs, c.isDigit = true) → ∀ c ∈ cs, (c == '.') = false := by
    intro cs hcs c hc
    rw [beq_eq_false_iff_ne]
    rintro rfl
    exact absurd (hcs '.' hc) (by decide)
  unfold Binary32.pointed? point Numeral.digits
  by_cases hnone : n.fraction = []
  · rw [if_pos hnone, List.append_nil, pieces_of_none (hplain h.isDigit), hnone, List.append_nil]
    simp [h.isNumeral]
  · have hall : Text.isNumeral (n.whole ++ n.fraction) = true := by
      rw [Text.isNumeral, Bool.and_eq_true, List.all_append, Bool.and_eq_true]
      exact ⟨by simp [hnone], List.all_eq_true.mpr h.isDigit, List.all_eq_true.mpr h.follows⟩
    rw [if_neg hnone, pieces_append (hplain h.isDigit) (by rfl),
      pieces_of_none (hplain h.follows)]
    simp [hall]

/-- Before the exponent there is no exponent mark. -/
theorem unmarked (h : n.Proper) {c : Char} (hc : c ∈ n.whole ++ n.point) :
    (c == 'e' || c == 'E') = false := by
  rw [Bool.or_eq_false_iff, beq_eq_false_iff_ne, beq_eq_false_iff_ne]
  constructor <;> rintro rfl <;> rcases h.mem_mantissa hc with hdigit | hpoint <;>
    exact absurd ‹_› (by decide)

/-- The digits and the exponent are read. -/
theorem scaled? (h : n.Proper) : Binary32.scaled? n.text = some (n.digits, n.exponent) := by
  have hmarks : ∀ c ∈ n.whole ++ n.point, (c == 'e' || c == 'E') = false := fun _ => h.unmarked
  unfold Binary32.scaled? Numeral.text Numeral.exponent Numeral.power
  rw [← List.append_assoc]
  cases hpower : n.power? with
  | none =>
    rw [Option.elim_none, List.append_nil, pieces_of_none hmarks]
    simp [h.pointed?]
  | some p =>
    obtain ⟨-, hread, hplain⟩ := h.raised p hpower
    rw [Option.elim_some, pieces_append hmarks (by rfl), pieces_of_none fun c hc => by
      simp [hplain c hc]]
    simp [h.pointed?, hread]

/-- The text is read with its sign. -/
theorem read? (h : n.Proper) (negative : Bool) :
    Binary32.read? (String.ofList (signed negative n.text)) =
      some (Binary32.ofScaled negative n.digits n.exponent) := by
  obtain ⟨c, cs, htext, hc⟩ := h.first
  have hmagnitude : Binary32.magnitude? negative n.text =
      some (Binary32.ofScaled negative n.digits n.exponent) := by
    have hscaled := h.scaled?
    rw [htext] at hscaled ⊢
    rw [magnitude?_of_digit hc, hscaled]
    rfl
  unfold Binary32.read?
  rw [String.toList_ofList]
  cases negative with
  | true => exact hmagnitude
  | false =>
    rw [signed, if_neg (by decide), htext]
    split
    · next heq =>
      cases heq
      exact absurd hc (by decide)
    · next heq =>
      cases heq
      exact absurd hc (by decide)
    · next heq =>
      rw [← htext]
      exact hmagnitude

/-- The digits end at the point or at the exponent, and what is behind the point at the exponent. -/
theorem parts (h : n.Proper) :
    (n.text.takeWhile Char.isDigit = n.whole ∧ n.text.dropWhile Char.isDigit = n.point ++ n.power) ∧
      (n.point ++ n.power).takeWhile (fun c => !(c == 'e' || c == 'E')) = n.point ∧
      (n.point ++ n.power).dropWhile (fun c => !(c == 'e' || c == 'E')) = n.power := by
  have hpower : ∀ c ∈ n.power.head?, c = 'e' := by
    intro c hc
    unfold Numeral.power at hc
    cases hpower : n.power? with
    | none => simp [hpower] at hc
    | some p => simpa [hpower, eq_comm] using hc
  have hpoint : ∀ c ∈ (n.point ++ n.power).head?, c = '.' ∨ c = 'e' := by
    intro c hc
    unfold point at hc
    split at hc
    · exact Or.inr (hpower c hc)
    · exact Or.inl (by simpa [eq_comm] using hc)
  constructor
  · refine span_append h.isDigit fun c hc => ?_
    rcases hpoint c hc with rfl | rfl <;> decide
  · refine span_append (fun c hc => ?_) fun c hc => ?_
    · rw [h.unmarked (List.mem_append_right _ hc), Bool.not_false]
    · rw [hpower c hc]
      rfl

/-- **A number** that is written with a point or an exponent is read as such. -/
theorem numberOfWord? (h : n.Proper) (negative : Bool) :
    Json.numberOfWord? (signed negative n.text) =
      some (.number (Binary32.ofScaled negative n.digits n.exponent)) := by
  obtain ⟨⟨hwhole, hrest⟩, hpoint, hpower⟩ := h.parts
  obtain ⟨first, rest, htext, hfirst⟩ := h.first
  have hbody := body_signed negative (htext ▸ hfirst : (n.text.head?.any Char.isDigit) = true)
  have hfraction : Json.isFraction n.point = true := by
    unfold point
    split
    · rfl
    · next hsome =>
      rw [Json.isFraction, Text.isNumeral, List.all_eq_true.mpr h.follows]
      simp [hsome]
  have hexponent : Json.isExponent n.power = true := by
    unfold Numeral.power
    cases hsome : n.power? with
    | none => rfl
    | some p => exact (h.raised p hsome).1
  have hbroken : (n.point ++ n.power).isEmpty = false := by
    unfold point Numeral.power
    rcases h.broken with hsome | hsome
    · simp [hsome]
    · obtain ⟨p, hp⟩ := Option.isSome_iff_exists.mp hsome
      simp [hp]
  unfold Json.numberOfWord?
  dsimp only
  rw [hbody, hwhole, hrest, hpoint, hpower, h.leads, hfraction, hexponent, hbroken, h.read?]
  rfl

end Proper

/-- A number with a point and without an exponent. -/
theorem text_of_fraction {w f : List Char} (hf : f ≠ []) :
    (Numeral.mk w f none).text = w ++ '.' :: f := by
  simp [text, point, power, hf]

/-- Whole digits with a fraction behind them are a proper numeral. -/
theorem Proper.of_fraction {w f : List Char} (hw : Json.isWhole w = true) (hf : f ≠ [])
    (hdigits : ∀ c ∈ f, c.isDigit = true) : (Numeral.mk w f none).Proper :=
  ⟨hw, hdigits, fun _ hp => absurd hp (by simp), Or.inl hf⟩

/-- The text writes the decimal number, up to zeros at its end. -/
structure Writes (n : Numeral) (cs : List Char) (d : Scientific) : Prop where
  proper : n.Proper
  text : n.text = cs
  value : ∀ negative, Binary32.ofScaled negative n.digits n.exponent =
    Binary32.ofScaled negative d.digits d.exponent

/-- What a number with a point writes, by its digits. -/
theorem exists_fraction {w f : List Char} {d : Scientific} (hw : Json.isWhole w = true) (hf : f ≠ [])
    (hdigits : ∀ c ∈ f, c.isDigit = true)
    (hvalue : ∀ negative, Binary32.ofScaled negative (valueOfDigits (w ++ f)) (0 - f.length) =
      Binary32.ofScaled negative d.digits d.exponent) :
    ∃ n : Numeral, n.Writes (w ++ '.' :: f) d :=
  ⟨⟨w, f, none⟩, Proper.of_fraction hw hf hdigits, text_of_fraction hf, hvalue⟩

end Numeral

/-! ## Layouts -/

namespace Text

/-- A positive number does not begin with a zero. -/
theorem head?_toDigits {n : Nat} (hn : n ≠ 0) : (Nat.toDigits 10 n).head? ≠ some '0' := by
  induction n using Nat.strongRecOn with
  | ind n ih =>
    have hone : ∀ n < 10, n ≠ 0 → [Nat.digitChar n].head? ≠ some '0' := by decide
    rcases Nat.lt_or_ge n 10 with hless | hmore
    · rw [Nat.toDigits_of_lt_base hless]
      exact hone n hless hn
    · rw [Nat.toDigits_of_base_le (by decide) hmore, List.head?_append_of_ne_nil _
        Nat.toDigits_ne_nil]
      exact ih (n / 10) (by omega) (by omega)

/-- A number is written with digits alone. -/
theorem isDigit_toDigits (n : Nat) : ∀ c ∈ Nat.toDigits 10 n, c.isDigit = true :=
  fun _ hc => Nat.isDigit_of_mem_toDigits (by decide) (by decide) hc

/-- The digits of a whole number and its sign. -/
theorem toList_toString (n : Int) :
    (toString n).toList = Numeral.signed (n < 0) (Nat.toDigits 10 n.natAbs) := by
  rw [Int.toString_eq_repr, Int.repr_eq_if, Numeral.signed]
  split
  · next hn =>
    have habs : n.toNat = n.natAbs := by omega
    rw [Nat.repr_eq_ofList_toDigits, String.toList_ofList, habs, if_neg (by simpa using hn)]
  · next hn =>
    have habs : (-n).toNat = n.natAbs := by omega
    rw [String.toList_append, Nat.repr_eq_ofList_toDigits, String.toList_ofList,
      String.toList_ofList, habs, if_pos (by simpa using hn), List.singleton_append]

/-- One digit or more are a numeral. -/
theorem isNumeral_of (cs : List Char) (hsome : cs ≠ []) (hcs : ∀ c ∈ cs, c.isDigit = true) :
    isNumeral cs = true := by
  rw [isNumeral, Bool.and_eq_true, List.all_eq_true]
  exact ⟨by simp [hsome], hcs⟩

/-- Zeros are digits. -/
theorem isDigit_zeros (k : Nat) : ∀ c ∈ List.replicate k '0', c.isDigit = true := by
  intro c hc
  rw [(List.mem_replicate.mp hc).2]
  rfl

/-- The digits of a number are read as that number. -/
theorem valueOfDigits_toDigits (n : Nat) : valueOfDigits (Nat.toDigits 10 n) = n :=
  Nat.ofDigitChars_ten_toDigits

/-- Zeros before the digits do not matter. -/
theorem valueOfDigits_zeros (k : Nat) (cs : List Char) :
    valueOfDigits (List.replicate k '0' ++ cs) = valueOfDigits cs := by
  show Nat.ofDigitChars 10 _ 0 = Nat.ofDigitChars 10 cs 0
  rw [Nat.ofDigitChars_append, Nat.ofDigitChars_replicate_zero, Nat.mul_zero]

/-- Zeros behind the digits multiply by ten. -/
theorem valueOfDigits_append_zeros (cs : List Char) (k : Nat) :
    valueOfDigits (cs ++ List.replicate k '0') = valueOfDigits cs * 10 ^ k := by
  show Nat.ofDigitChars 10 _ 0 = Nat.ofDigitChars 10 cs 0 * 10 ^ k
  rw [Nat.ofDigitChars_append, Nat.ofDigitChars_replicate_zero, Nat.mul_comm]

end Text

/-- The digits of a positive number are a whole number. -/
theorem Json.isWhole_of_head {cs zeros : List Char} {n : Nat} (hn : n ≠ 0)
    (hcs : (Nat.toDigits 10 n) = cs ++ zeros) (hsome : cs ≠ []) (k : Nat) :
    Json.isWhole (cs ++ List.replicate k '0') = true := by
  have hhead := head?_toDigits hn
  rw [hcs, List.head?_append_of_ne_nil _ hsome] at hhead
  rw [Json.isWhole, Bool.and_eq_true, Text.isNumeral_of]
  · refine ⟨rfl, ?_⟩
    rw [Bool.or_eq_true]
    right
    rw [List.head?_append_of_ne_nil _ hsome]
    simpa using hhead
  · simp [hsome]
  · intro c hc
    rcases List.mem_append.mp hc with hdigit | hzero
    · exact isDigit_toDigits n c (hcs ▸ List.mem_append_left _ hdigit)
    · exact isDigit_zeros k c hzero

/-- **The text of a whole number** is read as that number. -/
theorem Json.numberOfWord?_whole (n : Int) :
    Json.numberOfWord? (toString n).toList = some (.whole n) := by
  have hdigits := isDigit_toDigits n.natAbs
  have hhead : (Nat.toDigits 10 n.natAbs).head?.any Char.isDigit = true := by
    obtain ⟨c, cs, hcons⟩ := List.exists_cons_of_ne_nil (@Nat.toDigits_ne_nil n.natAbs 10)
    rw [hcons] at hdigits ⊢
    exact hdigits c List.mem_cons_self
  have hbody := Numeral.body_signed (decide (n < 0)) hhead
  have hwhole : Json.isWhole (Nat.toDigits 10 n.natAbs) = true := by
    by_cases hzero : n.natAbs = 0
    · rw [hzero]
      decide
    · have hpositive := Json.isWhole_of_head hzero (List.append_nil _).symm Nat.toDigits_ne_nil 0
      rwa [List.replicate_zero, List.append_nil] at hpositive
  have hminus : Numeral.signed (decide (n < 0)) (Nat.toDigits 10 n.natAbs) ≠ ['-', '0'] := by
    intro hword
    rw [Numeral.signed] at hword
    split at hword
    · next hnegative =>
      have hless := of_decide_eq_true hnegative
      have hpositive : n.natAbs ≠ 0 := by omega
      exact head?_toDigits hpositive (by rw [(List.cons.inj hword).2]; rfl)
    · exact absurd (hdigits '-' (hword ▸ List.mem_cons_self)) (by decide)
  obtain ⟨htake, hdrop⟩ := @span_append _ [] _ hdigits (by simp)
  rw [List.append_nil] at htake hdrop
  have hread := integer?_toString n
  rw [toList_toString] at hread ⊢
  unfold Json.numberOfWord?
  dsimp only
  rw [hbody, htake, hdrop, hwhole, hread]
  simp [hminus, Json.isFraction, Json.isExponent]

namespace Layout

variable {d : Scientific}

section

variable {ds : List Char} (hds : ds = Nat.toDigits 10 d.digits)

include hds

/-- All digits stand behind the point. -/
theorem exists_behind (hplaces : d.exponent + ds.length ≤ 0) : ∃ n : Numeral, n.Writes
    (['0'] ++ '.' :: (List.replicate (-(d.exponent + ds.length)).toNat '0' ++ ds)) d := by
  set zeros := (-(d.exponent + ds.length)).toNat with hzeros
  have hsome : 0 < ds.length := hds ▸ Nat.length_toDigits_pos
  have hfraction : List.replicate zeros '0' ++ ds ≠ [] := by simp [← List.length_pos_iff, hsome]
  refine Numeral.exists_fraction (by decide) hfraction (fun c hc => ?_) fun negative => ?_
  · rcases List.mem_append.mp hc with hzero | hdigit
    · exact isDigit_zeros zeros c hzero
    · exact isDigit_toDigits d.digits c (hds ▸ hdigit)
  · have hall : valueOfDigits (['0'] ++ (List.replicate zeros '0' ++ ds)) = d.digits := by
      rw [← valueOfDigits_toDigits d.digits, ← hds, ← List.append_assoc]
      exact valueOfDigits_zeros (zeros + 1) ds
    have hexponent : (0 : Int) - (List.replicate zeros '0' ++ ds).length = d.exponent := by
      rw [List.length_append, List.length_replicate]
      omega
    exact congrArg₂ (Binary32.ofScaled negative) hall hexponent

/-- All digits stand before the point. -/
theorem exists_before (hd : d.digits ≠ 0) (hplaces : ds.length ≤ (d.exponent + ds.length).toNat) :
    ∃ n : Numeral, n.Writes
      (ds ++ List.replicate ((d.exponent + ds.length).toNat - ds.length) '0' ++ ['.', '0']) d := by
  set zeros := (d.exponent + ds.length).toNat - ds.length with hzeros
  have hsome : 0 < ds.length := hds ▸ Nat.length_toDigits_pos
  refine Numeral.exists_fraction ?_ (by simp) (by simp) fun negative => ?_
  · exact Json.isWhole_of_head hd (hds.symm.trans (List.append_nil _).symm)
      (List.ne_nil_of_length_pos hsome) zeros
  · have hall : valueOfDigits (ds ++ List.replicate zeros '0' ++ ['0']) =
        d.digits * 10 ^ (zeros + 1) := by
      rw [← valueOfDigits_toDigits d.digits, ← hds, ← valueOfDigits_append_zeros,
        List.replicate_succ', List.append_assoc]
    have hexponent : (0 : Int) - ['0'].length = d.exponent - (zeros + 1 : Nat) := by
      rw [List.length_singleton]
      omega
    refine (congrArg₂ (Binary32.ofScaled negative) hall hexponent).trans ?_
    exact Binary32.ofScaled_mul_pow negative d.digits (zeros + 1) d.exponent

/-- The point stands between the digits. -/
theorem exists_between (hd : d.digits ≠ 0) (hsome : 0 < d.exponent + ds.length)
    (hplaces : (d.exponent + ds.length).toNat < ds.length) : ∃ n : Numeral, n.Writes
      (ds.take (d.exponent + ds.length).toNat ++ '.' :: ds.drop (d.exponent + ds.length).toNat) d := by
  set before := (d.exponent + ds.length).toNat with hbefore
  have hfraction : ds.drop before ≠ [] := by
    rw [← List.length_pos_iff, List.length_drop]
    omega
  refine Numeral.exists_fraction ?_ hfraction (fun c hc => ?_) fun negative => ?_
  · have hwhole := Json.isWhole_of_head hd (hds.symm.trans (List.take_append_drop before ds).symm)
      (by rw [← List.length_pos_iff, List.length_take]; omega) 0
    rwa [List.replicate_zero, List.append_nil] at hwhole
  · exact isDigit_toDigits d.digits c (hds ▸ List.mem_of_mem_drop hc)
  · have hall : valueOfDigits (ds.take before ++ ds.drop before) = d.digits := by
      rw [List.take_append_drop, hds, valueOfDigits_toDigits]
    have hexponent : (0 : Int) - (ds.drop before).length = d.exponent := by
      rw [List.length_drop]
      omega
    exact congrArg₂ (Binary32.ofScaled negative) hall hexponent

end

/-- A positional text writes its digits at their places. -/
theorem exists_positional (hd : d.digits ≠ 0) : ∃ n : Numeral,
    n.Writes (positionalText true (Nat.toDigits 10 d.digits)
      (d.exponent + (Nat.toDigits 10 d.digits).length)) d := by
  unfold positionalText
  split
  · next hplaces => exact exists_behind rfl hplaces
  · next hsome =>
    dsimp only
    split
    · next hplaces =>
      rw [if_pos rfl]
      exact exists_before rfl hd hplaces
    · next hplaces => exact exists_between rfl hd (not_le.mp hsome) (not_le.mp hplaces)

/-- The exponent of a number in a document. -/
def raised (lead : Int) : List Char :=
  (if 0 ≤ lead then ['+'] else []) ++ (toString lead).toList

/-- An exponent is its sign and the digits of its size. -/
theorem raised_eq (lead : Int) :
    raised lead = (if 0 ≤ lead then '+' else '-') :: Nat.toDigits 10 lead.natAbs := by
  unfold raised
  rw [toList_toString]
  by_cases hlead : 0 ≤ lead
  · simp [Numeral.signed, hlead]
  · simp [Numeral.signed, hlead, Int.not_le.mp hlead]

/-- An exponent with its sign is read as that number. -/
theorem exponent_raised (lead : Int) :
    Json.isExponent ('e' :: raised lead) = true ∧ integer? (raised lead) = some lead ∧
      ∀ c ∈ raised lead, c ≠ 'e' ∧ c ≠ 'E' := by
  have hdigits := isDigit_toDigits lead.natAbs
  have hnumeral := isNumeral_of _ Nat.toDigits_ne_nil hdigits
  have hmarks : ∀ c ∈ Nat.toDigits 10 lead.natAbs, c ≠ 'e' ∧ c ≠ 'E' := by
    intro c hc
    constructor <;> rintro rfl <;> exact absurd (hdigits _ hc) (by decide)
  rw [raised_eq]
  split
  · refine ⟨hnumeral, ?_, List.forall_mem_cons.mpr ⟨by decide, hmarks⟩⟩
    rw [integer?, natural?_toDigits]
    exact congrArg some (Int.natAbs_of_nonneg ‹_›)
  · refine ⟨hnumeral, ?_, List.forall_mem_cons.mpr ⟨by decide, hmarks⟩⟩
    rw [integer?, natural?_toDigits]
    exact congrArg some (show -(lead.natAbs : Int) = lead by omega)

/-- A text with an exponent writes its digits with the point after the first. -/
theorem exists_raised (hd : d.digits ≠ 0) : ∃ n : Numeral,
    n.Writes (exponentText ['+'] (Nat.toDigits 10 d.digits)
      (d.exponent + (Nat.toDigits 10 d.digits).length - 1)) d := by
  have hdigits := isDigit_toDigits d.digits
  have hvalue := valueOfDigits_toDigits d.digits
  obtain ⟨first, rest, hcons⟩ := List.exists_cons_of_ne_nil (@Nat.toDigits_ne_nil d.digits 10)
  have hwhole := @Json.isWhole_of_head [first] _ _ hd hcons (by simp) 0
  rw [hcons] at hdigits hvalue ⊢
  set lead := d.exponent + (first :: rest).length - 1 with hlead
  refine ⟨⟨[first], rest, some (raised lead, lead)⟩,
    ⟨hwhole, fun c hc => hdigits c (List.mem_cons_of_mem _ hc), ?_, Or.inr rfl⟩, ?_, ?_⟩
  · rintro p ⟨⟩
    exact exponent_raised lead
  · cases rest <;> simp [exponentText, Numeral.text, Numeral.point, Numeral.power, raised]
  · intro negative
    have hplaces : lead - rest.length = d.exponent := by
      rw [hlead, List.length_cons]
      omega
    exact congrArg₂ (Binary32.ofScaled negative) hvalue hplaces

/-- A finite magnitude is written as a number that stands for it. -/
theorem exists_rankText (rank : Fin finiteRanks) : ∃ n : Numeral, n.Proper ∧
    n.text = json.rankText rank.val ∧
    ∀ negative, Binary32.ofScaled negative n.digits n.exponent = .finite negative rank := by
  unfold rankText
  split
  · next hzero =>
    obtain rfl : rank = ⟨0, by decide⟩ := Fin.ext hzero
    exact ⟨⟨['0'], ['0'], none⟩, Numeral.Proper.of_fraction (by decide) (by decide)
      (List.forall_mem_singleton.mpr (by decide)), rfl, fun negative => rfl⟩
  · next hrank =>
    have hstands := Binary32.standsFor_shortest json.tie hrank
    have hd : (Binary32.shortest json.tie rank.val).digits ≠ 0 := by
      intro hzero
      have hfinite := hstands false
      rw [hzero, Binary32.ofScaled, if_pos (Or.inl rfl)] at hfinite
      exact hrank (congrArg Fin.val (Binary32.finite.inj hfinite).2).symm
    unfold magnitudeText
    dsimp only
    split
    · obtain ⟨n, hproper, htext, hvalue⟩ := exists_positional hd
      rw [Int.sub_add_cancel]
      exact ⟨n, hproper, htext, fun negative => (hvalue negative).trans (hstands negative)⟩
    · obtain ⟨n, hproper, htext, hvalue⟩ := exists_raised hd
      exact ⟨n, hproper, htext, fun negative => (hvalue negative).trans (hstands negative)⟩

/-- **The text of a finite number** in a document is read as that number. -/
theorem numberOfWord?_text {x : Binary32} (hx : x.isFinite = true) :
    Json.numberOfWord? (json.text x).toList = some (.number x) := by
  cases x with
  | nan => exact nomatch hx
  | infinity => exact nomatch hx
  | finite negative rank =>
    obtain ⟨n, hproper, htext, hvalue⟩ := exists_rankText rank
    have hsigned : (json.text (.finite negative rank)).toList = Numeral.signed negative n.text := by
      rw [text, String.toList_append, String.toList_ofList, htext]
      cases negative <;> rfl
    rw [hsigned, hproper.numberOfWord?, hvalue]

end Layout

end Partwise
