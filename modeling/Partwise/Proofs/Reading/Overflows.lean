import Mathlib.Tactic.FieldSimp
import Mathlib.Tactic.NormNum
import Mathlib.Tactic.Ring
import Partwise.Proofs.Reading.Assembling
import Partwise.Proofs.Reading.Invariants

/-!
# Reading · Overflows: what is reckoned without a look

A fraction is kept reduced, in two words of 64 bits. To reduce one and to multiply two takes steps
that each come to a word, or to nothing (`Fraction.reduce?`, `Fraction.times?`). Lengths are
reckoned so without a look whether they fit, and they always do: the length of a note with a
duration or without one (`Surroundings.noteWords?_eq`) and that of a movement in time
(`Surroundings.movementWords?_eq`), since divisions fit that are in force. Positions fit as well.

A position is negated without a look, too, when a movement in time has gone back beyond the start of
the measure. That is the one step that fails, if the movement leads to the lowest word
(`Document.overflows`).
-/

namespace Partwise

open Markup Text

/-- The two words of the fraction. -/
def WholeNotes.words (x : WholeNotes) : Int × Int := (x.num, x.den)

/-! ## Fractions step by step -/

namespace Fraction

/-- A number that one step has come to, if it fits. -/
def word? (n : Int) : Option Int := if fitsWord n then some n else none

theorem word?_eq {n : Int} (h : fitsWord n = true) : word? n = some n := if_pos h

/-- Two words as a reduced fraction: both are divided by their greatest common divisor, and what
stands below becomes positive. There is none with zero below. -/
def reduce? (n d : Int) : Option (Int × Int) :=
  if d = 0 then none
  else do
    let common ← word? (Int.gcd n d)
    let above ← word? (n / common)
    let below ← word? (d / common)
    if below < 0 then
      let above ← word? (-above)
      let below ← word? (-below)
      some (above, below)
    else some (above, below)

/-- The product of two reduced fractions. What stands above in one and below in the other is divided
by the greatest common divisor first. -/
def times? (x y : Int × Int) : Option (Int × Int) := do
  let first ← word? (Int.gcd x.1 y.2)
  let second ← word? (Int.gcd y.1 x.2)
  let above ← word? (x.1 / first * (y.1 / second))
  let below ← word? (x.2 / second * (y.2 / first))
  reduce? above below

/-- A divisor of a positive word fits. -/
theorem word?_gcd {n : Int} {d : Nat} (hd : d ≠ 0) (hfits : fitsWord d = true) :
    word? (Int.gcd n d) = some (Int.gcd n d : Int) := by
  have hle : Int.gcd n d ≤ d := Nat.gcd_le_right _ (Nat.pos_of_ne_zero hd)
  rw [fitsWord_iff] at hfits
  exact word?_eq (fitsWord_iff.mpr (by omega))

/-- A fraction is reduced if its terms divided by their divisor fit. -/
theorem reduce?_of {n d common above below : Int} (hd : d ≠ 0)
    (hcommon : word? (Int.gcd n d) = some common) (habove : word? (n / common) = some above)
    (hbelow : word? (d / common) = some below) (hpositive : ¬ below < 0) :
    reduce? n d = some (above, below) := by
  simp [reduce?, hd, hcommon, habove, hbelow, hpositive]

/-- **To reduce a fraction** of two words, what stands below being positive, is to find it. -/
theorem reduce?_eq {n : Int} {d : Nat} (hd : d ≠ 0) (hn : fitsWord n = true)
    (hfits : fitsWord d = true) : reduce? n d = some (WholeNotes.words (mkRat n d)) := by
  have hreduced := WholeNotes.inWords_mkRat hd hn hfits
  have hgcd : Int.gcd n d = Nat.gcd d n.natAbs := by rw [Int.gcd, Int.natAbs_natCast, Nat.gcd_comm]
  have hnum : n / (Int.gcd n d : Int) = (mkRat n d).num := by
    rw [Rat.num_mkRat, if_neg hd, hgcd]
  have hden : d / (Int.gcd n d : Int) = (mkRat n d).den := by
    rw [Rat.den_mkRat, if_neg hd, hgcd, Int.natCast_ediv]
  refine reduce?_of (Int.natCast_ne_zero.mpr hd) (word?_gcd hd hfits) ?_ ?_ (by omega)
  · rw [hnum]
    exact word?_eq hreduced.num
  · rw [hden]
    exact word?_eq hreduced.den

/-- A product is formed if its terms fit after they were divided crosswise. -/
theorem times?_of {x y : Int × Int} {first second above below : Int}
    (hfirst : word? (Int.gcd x.1 y.2) = some first)
    (hsecond : word? (Int.gcd y.1 x.2) = some second)
    (habove : word? (x.1 / first * (y.1 / second)) = some above)
    (hbelow : word? (x.2 / second * (y.2 / first)) = some below) :
    times? x y = reduce? above below := by
  simp [times?, hfirst, hsecond, habove, hbelow]

/-- **A product** is found in words, if what stands above and what stands below can be
multiplied. -/
theorem times?_eq {x y : WholeNotes} (hx : x.InWords) (hy : y.InWords)
    (hnum : fitsWord (x.num * y.num) = true) (hden : fitsWord (x.den * y.den : Nat) = true) :
    times? x.words y.words = some (WholeNotes.words (x * y)) := by
  obtain ⟨a, ha⟩ : (Int.gcd x.num y.den : Int) ∣ x.num := Int.gcd_dvd_left ..
  obtain ⟨b, hb⟩ : Int.gcd y.num x.den ∣ x.den := Nat.gcd_dvd_right ..
  obtain ⟨c, hc⟩ : (Int.gcd y.num x.den : Int) ∣ y.num := Int.gcd_dvd_left ..
  obtain ⟨d, hd⟩ : Int.gcd x.num y.den ∣ y.den := Nat.gcd_dvd_right ..
  have hfirst := word?_gcd (n := x.num) y.den_nz hy.den
  have hsecond := word?_gcd (n := y.num) x.den_nz hx.den
  set first := Int.gcd x.num y.den
  set second := Int.gcd y.num x.den
  have hfirst0 : first ≠ 0 := fun h => y.den_nz (by rw [hd, h, Nat.zero_mul])
  have hsecond0 : second ≠ 0 := fun h => x.den_nz (by rw [hb, h, Nat.zero_mul])
  have hbd : b * d ≠ 0 := fun h => (Nat.mul_ne_zero x.den_nz y.den_nz) (by
    rw [hb, hd, Nat.mul_mul_mul_comm, h, Nat.mul_zero])
  have habove : fitsWord (a * c) = true := by
    have hwhole : x.num * y.num = a * c * (first * second : Nat) := by
      rw [ha, hc]; push_cast; ring
    exact fitsWord_of_mul (Nat.mul_ne_zero hfirst0 hsecond0) (hwhole ▸ hnum)
  have hbelow : fitsWord (b * d : Nat) = true := by
    have hwhole : ((x.den * y.den : Nat) : Int) = (b * d : Nat) * (first * second : Nat) := by
      rw [hb, hd]; push_cast; ring
    exact fitsWord_of_mul (Nat.mul_ne_zero hfirst0 hsecond0) (hwhole ▸ hden)
  have hproduct : x * y = mkRat (a * c) (b * d) := by
    have hx' : x = (first * a : Int) / (second * b : Nat) := by rw [← ha, ← hb, Rat.num_div_den]
    have hy' : y = (second * c : Int) / (first * d : Nat) := by rw [← hc, ← hd, Rat.num_div_den]
    have hb0 : (b : Rat) ≠ 0 := Nat.cast_ne_zero.mpr (left_ne_zero_of_mul hbd)
    have hd0 : (d : Rat) ≠ 0 := Nat.cast_ne_zero.mpr (right_ne_zero_of_mul hbd)
    rw [Rat.mkRat_eq_div, hx', hy']
    push_cast
    field_simp
  have h1 : x.num / (first : Int) = a := by
    rw [ha, Int.mul_ediv_cancel_left _ (Int.natCast_ne_zero.mpr hfirst0)]
  have h2 : y.num / (second : Int) = c := by
    rw [hc, Int.mul_ediv_cancel_left _ (Int.natCast_ne_zero.mpr hsecond0)]
  have h3 : (x.den : Int) / second * (y.den / first) = (b * d : Nat) := by
    rw [hb, hd, Nat.cast_mul, Nat.cast_mul, Nat.cast_mul,
      Int.mul_ediv_cancel_left _ (Int.natCast_ne_zero.mpr hsecond0),
      Int.mul_ediv_cancel_left _ (Int.natCast_ne_zero.mpr hfirst0)]
  have hreduce := reduce?_eq hbd habove hbelow
  rw [← hproduct] at hreduce
  refine (times?_of (x := x.words) (y := y.words) hfirst hsecond ?_ ?_).trans hreduce
  · rw [show x.words.1 = x.num from rfl, show y.words.1 = y.num from rfl, h1, h2]
    exact word?_eq habove
  · rw [show x.words.2 = x.den from rfl, show y.words.2 = y.den from rfl, h3]
    exact word?_eq hbelow

end Fraction

/-! ## Bounds -/

namespace WholeNotes

variable {x y : WholeNotes} {a b c d : Nat}

/-- What stands above and what stands below is no greater than that. -/
def Within (x : WholeNotes) (above below : Nat) : Prop :=
  x.num.natAbs ≤ above ∧ x.den ≤ below

/-- A fraction is no greater in its words than what it is reduced from. -/
theorem within_mkRat {n : Int} (hd : d ≠ 0) : Within (mkRat n d) n.natAbs d := by
  obtain ⟨c, hc, hnum, hden⟩ := exists_factor n hd
  have hpos : 0 < c := Nat.pos_of_ne_zero hc
  have habove : n.natAbs = (mkRat n d).num.natAbs * c := by
    conv_lhs => rw [hnum, Int.natAbs_mul, Int.natAbs_natCast]
  exact ⟨habove ▸ Nat.le_mul_of_pos_right _ hpos, (Nat.le_mul_of_pos_right _ hpos).trans_eq hden.symm⟩

/-- A product is no greater than what its factors are bounded by. -/
theorem Within.mul (hx : x.Within a b) (hy : y.Within c d) : (x * y).Within (a * c) (b * d) := by
  have hmul : x * y = mkRat (x.num * y.num) (x.den * y.den) := Rat.mul_def' x y
  have hproduct := within_mkRat (n := x.num * y.num) (Nat.mul_ne_zero x.den_nz y.den_nz)
  rw [← hmul, Int.natAbs_mul] at hproduct
  exact ⟨hproduct.1.trans (Nat.mul_le_mul hx.1 hy.1), hproduct.2.trans (Nat.mul_le_mul hx.2 hy.2)⟩

/-- What is bounded below the limit of words fits. -/
theorem Within.inWords (hx : x.Within a b) (ha : a < wordLimit) (hb : b < wordLimit) :
    x.InWords := by
  obtain ⟨hnum, hden⟩ := hx
  exact ⟨fitsWord_iff.mpr (by omega), fitsWord_iff.mpr (by omega)⟩

end WholeNotes

/-- Factors are multiplied in words whose bounds can be. -/
theorem Fraction.times?_of_within {x y : WholeNotes} {a b c d : Nat} (hx : x.Within a b)
    (hy : y.Within c d) (hxWords : x.InWords) (hyWords : y.InWords) (habove : a * c < wordLimit)
    (hbelow : b * d < wordLimit) : times? x.words y.words = some (x * y).words := by
  have hnum : (x.num * y.num).natAbs ≤ a * c := by
    rw [Int.natAbs_mul]
    exact Nat.mul_le_mul hx.1 hy.1
  have hden : x.den * y.den ≤ b * d := Nat.mul_le_mul hx.2 hy.2
  exact times?_eq hxWords hyWords (fitsWord_iff.mpr (by omega)) (fitsWord_iff.mpr (by omega))

/-! ## Lengths step by step -/

/-- The length of a dotted note, reckoned in words. -/
def Display.words? (d : Display) : Option (Int × Int) :=
  let dots := min d.dots 8
  (Fraction.reduce? (Nat.pow 2 (dots + 1) - 1 : Nat) (Nat.pow 2 dots : Nat)).bind fun factor =>
    Fraction.times? d.noteType.wholeNotes.words factor

/-- The length of a note of which only the written form is known, reckoned in words. -/
def writtenWords? (display? : Option Display) (ratio? : Option Ratio) : Option (Int × Int) :=
  match display?, ratio? with
  | none, _ => some (0, 1)
  | some display, some (actual, normal) =>
    if actual = 0 then display.words?
    else
      display.words?.bind fun base =>
        (Fraction.reduce? normal actual).bind fun ratio => Fraction.times? base ratio
  | some display, none => display.words?

/-- A number of divisions as a length of time, reckoned in words. -/
def Surroundings.divisionWords? (s : Surroundings) (divisions : Int) : Option (Int × Int) :=
  s.part?.bind fun p => Fraction.reduce? divisions p.divisionsPerWhole

/-- The length of a movement in time, reckoned in words. -/
def Surroundings.movementWords? (s : Surroundings) (e : Element) : Option (Int × Int) :=
  match e.requiredChild .i64 "duration" with
  | .ok divisions => s.divisionWords? divisions
  | .error _ => none

/-- The length of a note, reckoned in words. -/
def Surroundings.noteWords? (s : Surroundings) (e : Element) : Option (Int × Int) :=
  if e.has "grace" then some (0, 1)
  else
    match e.childValue? .i64 "duration" with
    | .ok (some divisions) => s.divisionWords? divisions
    | .ok none =>
      (result (Display.ofElement e)).bind fun display? =>
        (result (ratioOfElement e)).bind fun ratio? => writtenWords? display? ratio?
    | .error _ => none

/-! ### Written lengths -/

/-- A note type lasts eight whole notes at most and divides one into no more than 1024. -/
theorem NoteType.within (t : NoteType) : t.wholeNotes.Within 8 1024 := by
  cases t <;> exact ⟨by decide, by decide⟩

/-- By dots a note becomes longer by a fraction that is less than two. -/
theorem within_dots {dots : Nat} (h : dots ≤ 8) :
    WholeNotes.Within (mkRat (Nat.pow 2 (dots + 1) - 1 : Nat) (Nat.pow 2 dots)) 511 256 := by
  have hpow : Nat.pow 2 dots ≤ 2 ^ 8 := Nat.pow_le_pow_right (by decide) h
  have hpow' : Nat.pow 2 (dots + 1) ≤ 2 ^ 9 := Nat.pow_le_pow_right (by decide) (by omega)
  have hall := WholeNotes.within_mkRat (n := (Nat.pow 2 (dots + 1) - 1 : Nat))
    (Nat.pos_iff_ne_zero.mp (Nat.pow_pos (n := dots) (by decide : 0 < 2)))
  exact ⟨hall.1.trans (by rw [Int.natAbs_natCast]; omega), hall.2.trans hpow⟩

theorem Display.within (d : Display) : d.wholeNotes.Within 4088 262144 :=
  d.noteType.within.mul (within_dots (Nat.min_le_right ..))

/-- The length of a dotted note is found in words. -/
theorem Display.words?_eq (d : Display) : d.words? = some d.wholeNotes.words := by
  have hdots := within_dots (Nat.min_le_right d.dots 8)
  have hfactor : Fraction.reduce? (Nat.pow 2 (min d.dots 8 + 1) - 1 : Nat)
      (Nat.pow 2 (min d.dots 8) : Nat) = some (WholeNotes.words
        (mkRat (Nat.pow 2 (min d.dots 8 + 1) - 1 : Nat) (Nat.pow 2 (min d.dots 8)))) := by
    have hpow : Nat.pow 2 (min d.dots 8) ≤ 2 ^ 8 :=
      Nat.pow_le_pow_right (by decide) (Nat.min_le_right ..)
    have hpow' : Nat.pow 2 (min d.dots 8 + 1) ≤ 2 ^ 9 :=
      Nat.pow_le_pow_right (by decide) (Nat.succ_le_succ (Nat.min_le_right ..))
    refine Fraction.reduce?_eq (Nat.pos_iff_ne_zero.mp (Nat.pow_pos (by decide)))
      (fitsWord_iff.mpr ?_) (fitsWord_iff.mpr ?_) <;> unfold wordLimit <;> omega
  have htimes := Fraction.times?_of_within d.noteType.within hdots
    (d.noteType.within.inWords (by decide) (by decide)) (hdots.inWords (by decide) (by decide))
    (by decide) (by decide)
  exact Option.bind_eq_some_iff.mpr ⟨_, hfactor, htimes⟩

/-- **A written length** is found in words, in whatever time a note is played. -/
theorem writtenWords?_eq {display? : Option Display} {ratio? : Option Ratio}
    (hratio : ∀ actual normal, ratio? = some (actual, normal) →
      actual < 0x100000000 ∧ normal < 0x100000000) :
    writtenWords? display? ratio? = some (writtenLength display? ratio?).words := by
  match display?, ratio? with
  | none, _ => rfl
  | some display, none => exact display.words?_eq
  | some display, some (actual, normal) =>
    obtain ⟨hactual, hnormal⟩ := hratio actual normal rfl
    unfold writtenWords? writtenLength
    dsimp only
    split
    · exact display.words?_eq
    · next hnonzero =>
      have hwithin : WholeNotes.Within (mkRat normal actual) 0x100000000 0x100000000 := by
        have hall := WholeNotes.within_mkRat (n := normal) hnonzero
        exact ⟨hall.1.trans (by rw [Int.natAbs_natCast]; omega), hall.2.trans (by omega)⟩
      have hreduce : Fraction.reduce? normal actual = some (WholeNotes.words (mkRat normal actual)) := by
        refine Fraction.reduce?_eq hnonzero (fitsWord_iff.mpr ?_) (fitsWord_iff.mpr ?_) <;>
          unfold wordLimit <;> omega
      have htimes := Fraction.times?_of_within display.within hwithin
        (display.within.inWords (by decide) (by decide)) (hwithin.inWords (by decide) (by decide))
        (by decide) (by decide)
      exact Option.bind_eq_some_iff.mpr ⟨_, display.words?_eq,
        Option.bind_eq_some_iff.mpr ⟨_, hreduce, htimes⟩⟩

/-! ### Durations -/

section

variable {α : Type} {e : Element} {format : Format α} {name : String} {value : α}

/-- A value of a child was read from some text. -/
theorem exists_read_of_childValue? (h : e.childValue? format name = .ok (some value)) :
    ∃ text, format.read text = some value := by
  unfold Element.childValue? Element.value? at h
  split at h
  · cases h
  · split at h
    · cases h
    · split at h
      · next text _ _ hread =>
        cases h
        exact ⟨_, hread⟩
      · cases h

/-- The value of a child that must be there was read from a text. -/
theorem exists_read_of_requiredChild (h : e.requiredChild format name = .ok value) :
    ∃ text, format.read text = some value := by
  unfold Element.requiredChild at h
  rcases hchild : e.childValue? format name with fault | value?
  · rw [hchild] at h
    cases h
  · rw [hchild] at h
    cases value? with
    | none => cases h
    | some found =>
      cases h
      exact exists_read_of_childValue? hchild

end

/-- The numbers of a time modification fit 32 bits. -/
theorem bounds_of_ratio {e : Element} {ratio? : Option Ratio} (h : Gives (ratioOfElement e) ratio?)
    (actual normal : Nat) (hratio : ratio? = some (actual, normal)) :
    actual < 0x100000000 ∧ normal < 0x100000000 := by
  unfold ratioOfElement at h
  split at h
  · obtain ⟨_, hactual, hrest⟩ := h.bind
    obtain ⟨_, hnormal, hpure⟩ := hrest.bind
    cases hratio.symm.trans hpure.pure
    obtain ⟨_, hreadActual⟩ := exists_read_of_requiredChild hactual.ask
    obtain ⟨_, hreadNormal⟩ := exists_read_of_requiredChild hnormal.ask
    exact ⟨Format.lt_of_read_unsigned hreadActual, Format.lt_of_read_unsigned hreadNormal⟩
  · cases hratio.symm.trans h.pure

/-- A signed number of 64 bits fits. -/
theorem fitsWord_of_read {text : String} {n : Int} (h : Format.i64.read text = some n) :
    fitsWord n = true :=
  fitsWord_iff.mpr (Format.bounds_of_read_signed h)

namespace Surroundings

variable {s : Surroundings} {e : Element}

/-- The divisions of the part that is being read may be in force. -/
def Fits (s : Surroundings) : Prop :=
  ∀ p, s.part? = some p → DivisionsFit p.divisionsPerWhole

/-- **A number of divisions** is turned into a length in words. -/
theorem divisionWords?_eq (hs : s.Fits) {line : Nat} {divisions : Int} {length : WholeNotes}
    (hdivisions : fitsWord divisions = true) (h : Gives (s.wholeNotes line divisions) length) :
    s.divisionWords? divisions = some length.words := by
  unfold wholeNotes at h
  unfold divisionWords?
  split at h
  · exact absurd h not_gives_throw
  · next p hp =>
    rw [hp, h.pure]
    obtain ⟨hpositive, hfits⟩ := hs p hp
    refine Fraction.reduce?_eq hpositive.ne' hdivisions (fitsWord_iff.mpr ?_)
    unfold wordLimit
    omega

/-- The length of a movement in time is found in words. -/
theorem movementWords?_eq (hs : s.Fits) {duration : WholeNotes} (h : Gives (s.duration e) duration) :
    s.movementWords? e = some duration.words := by
  obtain ⟨divisions, hask, hlength⟩ := h.bind
  obtain ⟨_, hread⟩ := exists_read_of_requiredChild hask.ask
  rw [movementWords?, hask.ask]
  exact divisionWords?_eq hs (fitsWord_of_read hread) hlength

/-- **The length of a note** is found in words. -/
theorem noteWords?_eq (hs : s.Fits) {input : NoteInput} (h : Gives (NoteInput.ofElement s e) input) :
    s.noteWords? e = some input.note.soundingWholeNotes.words := by
  obtain ⟨key, _, hrest⟩ := h.bind
  obtain ⟨content, _, hrest⟩ := hrest.bind
  obtain ⟨display?, hdisplay, hrest⟩ := hrest.bind
  obtain ⟨ratio?, hratio, hrest⟩ := hrest.bind
  obtain ⟨length, hlength, hrest⟩ := hrest.bind
  obtain ⟨notations, _, hrest⟩ := hrest.bind
  obtain ⟨tie?, _, hrest⟩ := hrest.bind
  rw [hrest.pure]
  show s.noteWords? e = some length.words
  unfold noteLength at hlength
  unfold noteWords?
  split at hlength
  · next hgrace =>
    rw [if_pos hgrace, hlength.pure]
    rfl
  · next hgrace =>
    rw [if_neg hgrace]
    obtain ⟨divisions?, hask, hlength⟩ := hlength.bind
    rw [hask.ask]
    cases divisions? with
    | some divisions =>
      obtain ⟨_, hread⟩ := exists_read_of_childValue? hask.ask
      exact divisionWords?_eq hs (fitsWord_of_read hread) hlength
    | none =>
      obtain ⟨_, _, hpure⟩ := hlength.bind
      rw [hpure.pure]
      have hwritten : writtenWords? display? ratio? = _ := writtenWords?_eq (bounds_of_ratio hratio)
      exact Option.bind_eq_some_iff.mpr ⟨_, hdisplay.result (Display.steady e),
        Option.bind_eq_some_iff.mpr ⟨_, hratio.result (steady_ratioOfElement e), hwritten⟩⟩

end Surroundings

/-! ## Readings in words -/

/-- Voices stand where they can stand. -/
theorem Voice.inWords_invariant : VoiceInvariant fun v => v.positionInMeasure.InWords where
  newVoice _ _ := WholeNotes.inWords_zero
  append _ h := h
  edit {v w} hedited h := by
    cases hedited with
    | place fits => exact fits
    | joinChord joined => rwa [(Voice.of_joinChord joined).2.2]
    | takeBarline => rwa [(v.like_takeBarline ..).position]
    | endRepeats => rwa [(v.like_endRepeats ..).position]
    | sing => rwa [(v.still_sing ..).1.position]
    | markSlurs => rwa [(v.still_markSlurs ..).position]
    | append | flush => exact h
  divisions _ h := h

/-- Divisions that are in force may be so. -/
theorem Part.divisionsFit_invariant : PartInvariant fun p => DivisionsFit p.divisionsPerWhole where
  declare _ _ := ⟨(by decide : 0 < 4), (by decide : 4 < 0x100000000)⟩
  ensureVoice key h := by
    unfold Part.ensureVoice
    split <;> exact h
  edit h _ := h
  ensureStaves _ h := h
  enterMeasure _ h := h
  withKey _ h := h
  withTime _ h := h
  withClef _ h := h
  withDivisions hfit _ := hfit

/-- All that is reckoned with in the reading fits: the position of the document, those of all voices
and the divisions of all parts. -/
structure Reading.InWords (r : Reading) : Prop where
  position : r.passage.position.InWords
  voices : ∀ p ∈ r.parts, ∀ v ∈ p.voices, v.positionInMeasure.InWords
  divisions : ∀ p ∈ r.parts, DivisionsFit p.divisionsPerWhole

section

variable {settings : Settings} {ms : List Moment} {r : Reading}

/-- All numbers of a reading fit into words, whatever was read. -/
theorem Follows.inWords (h : Follows settings {} ms r) : r.InWords := by
  have hvoices := Voice.inWords_invariant.part
  have hdivisions := Part.divisionsFit_invariant
  have halike := hvoices.uniform.last (hvoices.sings.policy hvoices.lawful settings) h
  exact ⟨halike.passage.inWords, PartInvariant.of_alike halike, PartInvariant.of_alike
    (hdivisions.uniform.last (hdivisions.sings.policy hdivisions.lawful settings) h)⟩

/-- Where the numbers of a reading fit into words, lengths can be reckoned in it. -/
theorem Reading.InWords.fits (h : r.InWords) : (r.surroundings settings).Fits := by
  intro p hp
  refine h.divisions p ?_
  obtain ⟨id, _, hfound⟩ := Option.bind_eq_some_iff.mp hp
  exact List.mem_of_find?_eq_some hfound

end

/-! ## Movements that overflow -/

/-- Where a movement back in time leads to: the current voice from where it stands, if it has begun,
and else the document. -/
def Reading.reachedBack (r : Reading) (duration : WholeNotes) : WholeNotes :=
  (if r.currentVoice?.isSome then r.cursor r.passage.current else r.passage.position) - duration

/-- A movement back in time reaches the same position when tuplets close before it. -/
theorem Closes.reachedBack {r s : Reading} (h : Closes r s) (duration : WholeNotes) :
    s.reachedBack duration = r.reachedBack duration := by
  unfold Reading.reachedBack
  rw [h.currentVoice, h.quiet.current, h.quiet.cursor, h.quiet.position]

section

variable {r : Reading} {j j' : Journal} {line : Nat} {failure : Failure}

/-- A decoder that fails in a step fails. -/
theorem of_failed_lift {α : Type} {x : Journaled α}
    (h : ((liftM x : Step α).run r).run.run j = (.error failure, j')) :
    (x.run.run j).1 = .error failure := by
  have hlift : ((liftM x : Step α).run r) = x >>= fun a => Pure.pure (a, r) := rfl
  rw [hlift, ExceptT.run_bind, StateT.run_bind] at h
  rcases hrun : x.run.run j with ⟨_ | a, j₁⟩
  · rw [hrun] at h
    cases h
    rfl
  · rw [hrun] at h
    exact nomatch h

/-- What is demanded and is not there fails as it is said. -/
theorem of_failed_demand {α : Type} {x? : Option α} {fault : Failure}
    (h : ((liftM (demand x? fault) : Step α).run r).run.run j = (.error failure, j')) :
    x? = none ∧ failure = fault := by
  have hfailed := of_failed_lift h
  cases x? with
  | none =>
    cases hfailed
    exact ⟨rfl, rfl⟩
  | some a => exact nomatch hfailed

/-- A change of the part that is being read never overflows. -/
theorem failsAs_changePart {f : Part → Part} : FailsAs Failure.Due (changePart line f) :=
  (FailsAs.currentPart fun _ hdue => hdue).bind fun _ => .modify _

/-- The document goes back beyond the start of the measure and cannot say how far. -/
theorem lowest_of_overflow {reached : WholeNotes} {say : WholeNotes → Finding} {line' : Nat}
    (hreached : reached.InWords)
    (h : ((if Rat.blt reached 0 then do
        let before ← demand reached.neg? (.overflow line)
        find line (say before)
      else pure () : Step Unit).run r).run.run j = (.error (.overflow line'), j')) :
    line' = line ∧ reached.num = -(wordLimit : Int) := by
  split at h
  · rcases of_failed_bind h with hdemand | ⟨_, _, _, _, hfind⟩
    · obtain ⟨hnone, hfault⟩ := of_failed_demand hdemand
      cases hfault
      exact ⟨rfl, (WholeNotes.neg?_eq_none hreached).mp hnone⟩
    · exact nomatch of_failed_lift hfind
  · exact nomatch h

/-- **A movement back in time overflows** only if it leads to the lowest word. -/
theorem reachedBack_of_overflow {duration : WholeNotes} {line' : Nat}
    (h : ((goBack line duration).run r).run.run j = (.error (.overflow line'), j')) :
    line' = line ∧ (r.reachedBack duration).num = -(wordLimit : Int) := by
  unfold goBack at h
  rcases of_failed_bind h with hget | ⟨_, _, _, hget, hrest₁⟩
  · exact nomatch hget
  cases hget
  rcases of_failed_bind hrest₁ with hearlier | ⟨position, r₁, _, hearlier, hrest₂⟩
  · exact nomatch (of_failed_demand hearlier).2
  obtain ⟨hposition, rfl⟩ := Ends.lift ⟨_, _, hearlier⟩
  rcases of_failed_bind hrest₂ with hchange | ⟨_, s, _, hchange, hrest₃⟩
  · exact nomatch hchange
  have hs := Ends.changePassage ⟨_, _, hchange⟩
  rcases of_failed_bind hrest₃ with hget | ⟨_, _, _, hget, hmatch⟩
  · exact nomatch hget
  cases hget
  have hcurrent : (s.part?.bind fun part => part.voice? r₁.passage.current) = r₁.currentVoice? := by
    rw [hs]
    rfl
  dsimp only at hmatch
  rw [hcurrent] at hmatch
  split at hmatch
  · next hnone =>
    rcases of_failed_bind hmatch with hpure | ⟨_, _, _, hpure, hsay⟩
    · exact nomatch hpure
    cases hpure
    have hreached : position = r₁.reachedBack duration := by
      rw [gives_earlier hposition, Reading.reachedBack, hnone]
      rfl
    rw [← hreached]
    exact lowest_of_overflow (inWords_of_earlier hposition) hsay
  · next v hvoice =>
    rcases of_failed_bind hmatch with hearlier | ⟨moved, _, _, hearlier, hrest₄⟩
    · exact nomatch (of_failed_demand hearlier).2
    have hmoved := (Ends.lift ⟨_, _, hearlier⟩).1
    have hreached : moved = r₁.reachedBack duration := by
      obtain ⟨part, hpart, hfound⟩ := Option.bind_eq_some_iff.mp hvoice
      have hcursor : r₁.cursor r₁.passage.current = v.positionInMeasure := by
        simp [Reading.cursor, Part.cursor, hpart, hfound]
      rw [gives_earlier hmoved, Reading.reachedBack, hvoice, hcursor]
      rfl
    rw [← hreached]
    rcases of_failed_bind hrest₄ with hchange | ⟨_, _, _, _, hrest₅⟩
    · exact (failsAs_changePart _ _ _ _ hchange : (Failure.overflow line').Due).elim
    rcases of_failed_bind hrest₅ with hpure | ⟨_, _, _, hpure, hsay⟩
    · exact nomatch hpure
    cases hpure
    exact lowest_of_overflow (inWords_of_earlier hmoved) hsay

end

namespace Document

variable {settings : Settings} {root : Element}

/-- A document has a movement back in time, on that line, that would lead from all that is read
before it to the lowest word. -/
def LeadsLowest (settings : Settings) (root : Element) (line : Nat) : Prop :=
  ∃ last e rest duration, Follows settings {} (trail settings root) last ∧
    movesOf root = (trail settings root).map Moment.move ++ .leaf e :: rest ∧
    e.name = "backup" ∧ e.line = line ∧
    Gives ((last.surroundings settings).duration e) duration ∧
    (last.reachedBack duration).num = -(wordLimit : Int)

/-- **Whatever is reckoned, it fits**, in every reading that any moves lead to: positions,
divisions, the lengths of notes and those of movements in time. So a document that is not read to
its end is to blame itself, and its journal says which sum or difference does not fit, if that is
why. There is one exception: a movement back in time that leads to the lowest word, which cannot be
negated. -/
theorem overflows (settings : Settings) (root : Element) :
    (∀ ms r, Follows settings {} ms r → r.InWords ∧
      (∀ e input, Gives (NoteInput.ofElement (r.surroundings settings) e) input →
        (r.surroundings settings).noteWords? e = some input.note.soundingWholeNotes.words) ∧
      ∀ e duration, Gives ((r.surroundings settings).duration e) duration →
        (r.surroundings settings).movementWords? e = some duration.words) ∧
    ∀ failure, (read settings root).score = .error failure →
      failure.Due ∨ ∃ line, failure = .overflow line ∧ LeadsLowest settings root line := by
  refine ⟨fun ms r h => ⟨h.inWords, fun e input => ?_, fun e duration => ?_⟩, fun failure h => ?_⟩
  · exact Surroundings.noteWords?_eq h.inWords.fits
  · exact Surroundings.movementWords?_eq h.inWords.fits
  · rcases due h with hdue | ⟨line, last, e, rest, rfl, hname, ⟨hfollows, j, j', hfailed⟩, hmoves⟩
    · exact .inl hdue
    · have hsound := hfollows.sound Reading.sound_empty
      rcases of_failed_bind hfailed with hmovement | ⟨duration, s, _, hmovement, hback⟩
      · have hdue : (Failure.overflow line).Due :=
          (FailsAs.discipline fun _ hdue => hdue).discipline.movement _ _ _ _ hmovement
        exact hdue.elim
      · obtain ⟨hcloses, _, -, hduration⟩ := Does.movement hsound ⟨_, _, hmovement⟩
        obtain ⟨rfl, hlowest⟩ := reachedBack_of_overflow hback
        rw [hcloses.reachedBack] at hlowest
        exact .inr ⟨_, rfl, last, e, rest, duration, hfollows, hmoves, hname, rfl,
          gives_of_result hduration, hlowest⟩

/-! ### A movement to the lowest word -/

/-- Movements back in time that lead to the lowest word, all together. -/
def backToLowest : Element :=
  singleMeasure (List.replicate 4 (backupElement "9223372036854775804") ++ [backupElement "16"])

/-- The reading of `backToLowest` fails with an overflow on its last movement. -/
theorem score_backToLowest : (read {} backToLowest).score = .error (.overflow 0) := by
  have hfails : (match (read {} backToLowest).score with
      | .error failure => failure == .overflow 0
      | .ok _ => false) = true := by
    decide +kernel
  split at hfails
  · next failure hscore => rw [hscore, eq_of_beq hfails]
  · exact nomatch hfails

/-- The reading of `backToLowest` ends in an overflow, for which its document gets no message. -/
theorem overflow_backToLowest : ¬ ∀ line, (read {} backToLowest).score ≠ .error (.overflow line) :=
  fun h => h 0 score_backToLowest

/-- The reading of `backToLowest` overflows where a movement leads to the lowest word. -/
theorem overflows_backToLowest : LeadsLowest {} backToLowest 0 := by
  rcases (overflows {} backToLowest).2 _ score_backToLowest with hdue | ⟨line, hline, hlowest⟩
  · exact hdue.elim
  · cases hline
    exact hlowest

end Document

end Partwise
