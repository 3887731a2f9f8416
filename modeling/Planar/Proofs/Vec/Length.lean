/-
The length of a normalized vector.

The squares of the components are what decides.  If both are rounded to zero the length
is zero, and the vector is left as it is.  If their sum is rounded to infinity so is the
length, and both components are divided down to zero.  In every other case the vector is
divided by a length whose square is off by two half units and a few times 2^-53 of
itself.

Let `H` be the computed square of the length.  Relative to it the two half units are
`2 · halfUnit / H`, and every other error on the way, six roundings to the normalized
vector and four more to its length, stays below 2^-48 (`Measures.normalized_squares`,
`measured_squares`).  For all but the shortest vectors the first term is nothing too:
from 2^-1044 on, the sum leaves a length within 10^-9 of 1.

Rational numbers have no roots, so everything is shown of squares, and only the last step
goes from the square of a length to the length itself.
-/
import Planar.Proofs.Binary64.Squares
import Planar.Vec.Geometry

namespace Planar.Vec

open Binary64 (squaredLength halfUnit unitRoundoff numEq overflow)

/-! ### Errors of squares -/

section Errors

variable {X Y p q root H : ℚ}

/-- `H` is the square of the length of `(X, Y)` and `root` the length, as they are
computed where the square neither vanishes nor overflows. -/
structure Measures (X Y H root : ℚ) : Prop where
  root_pos : 0 < root
  le_square : 2 * halfUnit ≤ H
  square_error : |H - (X ^ 2 + Y ^ 2)| ≤ 2 * halfUnit + 3 * unitRoundoff * H
  root_error : |root ^ 2 - H| ≤ 3 * unitRoundoff * H

/-- The share that the two half units have in the computed square is at most 1. -/
theorem Measures.share_bounds (h : Measures X Y H root) :
    0 ≤ 2 * halfUnit / H ∧ 2 * halfUnit / H ≤ 1 := by
  have hunit := Binary64.halfUnit_pos
  have hlow := h.le_square
  have hH : 0 < H := by linarith
  exact ⟨by positivity, (div_le_one hH).mpr hlow⟩

/-- The true squares, divided by that of the root, add up to 1 but for the errors of the
computed square and of its root. -/
theorem Measures.ratio_of_squares (h : Measures X Y H root) :
    |(X / root) ^ 2 + (Y / root) ^ 2 - 1| ≤ 2 * halfUnit / H + 11 * unitRoundoff := by
  obtain ⟨hshare, -⟩ := h.share_bounds
  obtain ⟨hroot, hlow, hsum, hsqrt⟩ := h
  have hunit := Binary64.halfUnit_pos
  have hH : 0 < H := by linarith
  have hsq : 0 < root ^ 2 := pow_pos hroot 2
  have hratio : (X / root) ^ 2 + (Y / root) ^ 2 - 1 = (X ^ 2 + Y ^ 2 - root ^ 2) / root ^ 2 := by
    field_simp
  have hscale : 2 * halfUnit / H * H = 2 * halfUnit := div_mul_cancel₀ _ hH.ne'
  rw [hratio, abs_div, abs_of_pos hsq, div_le_iff₀ hsq]
  generalize 2 * halfUnit / H = share at *
  unfold unitRoundoff at *
  obtain ⟨h1, h2⟩ := abs_le.mp hsum
  obtain ⟨h3, h4⟩ := abs_le.mp hsqrt
  have hbelow : (1 - 3 / 2 ^ 53) * H ≤ root ^ 2 := by linarith
  have hbound := mul_le_mul_of_nonneg_left hbelow
    (by positivity : 0 ≤ share + 11 * (1 / 2 ^ 53))
  have hexpand : (share + 11 * (1 / 2 ^ 53)) * ((1 - 3 / 2 ^ 53) * H)
      = (1 - 3 / 2 ^ 53) * (share * H) + 11 / 2 ^ 53 * (1 - 3 / 2 ^ 53) * H := by ring
  rw [hexpand, hscale] at hbound
  rw [abs_le]
  constructor <;> linarith

/-- Neither of those squares is large. -/
theorem Measures.squares_le_four (h : Measures X Y H root) :
    (X / root) ^ 2 ≤ 4 ∧ (Y / root) ^ 2 ≤ 4 := by
  have hratio := (abs_le.mp h.ratio_of_squares).2
  have hshare := h.share_bounds.2
  have hx := sq_nonneg (X / root)
  have hy := sq_nonneg (Y / root)
  unfold unitRoundoff at hratio
  constructor <;> linarith

/-- The error of a rounded quotient, squared. -/
theorem square_of_quotient {z : ℚ} (hz : z ^ 2 ≤ 4)
    (hp : |p - z| ≤ halfUnit + unitRoundoff * |p|) :
    |p ^ 2 - z ^ 2| ≤ 7 * halfUnit + (2 * unitRoundoff + unitRoundoff ^ 2) * p ^ 2 := by
  have hunit := Binary64.halfUnit_pos
  have hsmall := Binary64.halfUnit_le
  have hsquare := Binary64.abs_sq_sub_sq_le hp
  have hzabs : |z| ≤ 2 := by
    rw [← abs_two, ← sq_le_sq]
    linarith
  have hpabs : |p| ≤ 3 := by
    have htriangle := abs_sub_abs_le_abs_sub p z
    unfold unitRoundoff at hp
    linarith
  have hnonneg := abs_nonneg p
  rw [← sq_abs p] at hsquare ⊢
  generalize |p| = w at *
  have hexpand : (halfUnit + unitRoundoff * w) * (2 * w + (halfUnit + unitRoundoff * w))
      = halfUnit * (2 * w + halfUnit + 2 * unitRoundoff * w)
        + (2 * unitRoundoff + unitRoundoff ^ 2) * w ^ 2 := by ring
  have hfactor : 2 * w + halfUnit + 2 * unitRoundoff * w ≤ 7 := by
    unfold unitRoundoff
    linarith
  have hmul := mul_le_mul_of_nonneg_left hfactor hunit.le
  linarith

/-- **The squares of the normalized components add up to 1, but for the two half units and
16 · 2^-53.** -/
theorem Measures.normalized_squares (h : Measures X Y H root)
    (hp : |p - X / root| ≤ halfUnit + unitRoundoff * |p|)
    (hq : |q - Y / root| ≤ halfUnit + unitRoundoff * |q|) :
    |p ^ 2 + q ^ 2 - 1| ≤ 2 * halfUnit / H + 16 * unitRoundoff := by
  have hsmall := Binary64.halfUnit_le
  have hratio := h.ratio_of_squares
  obtain ⟨hx, hy⟩ := h.squares_le_four
  have hpsq := square_of_quotient hx hp
  have hqsq := square_of_quotient hy hq
  obtain ⟨hshare, hshare1⟩ := h.share_bounds
  generalize (X / root) ^ 2 = zx at *
  generalize (Y / root) ^ 2 = zy at *
  generalize p ^ 2 = a at *
  generalize q ^ 2 = b at *
  generalize 2 * halfUnit / H = share at *
  unfold unitRoundoff at *
  obtain ⟨h1, h2⟩ := abs_le.mp hratio
  obtain ⟨h3, h4⟩ := abs_le.mp hpsq
  obtain ⟨h5, h6⟩ := abs_le.mp hqsq
  rw [abs_le]
  constructor <;> linarith

/-- A length whose square is near 1 is as near to 1 itself. -/
theorem abs_sub_one_le {l : ℚ} (hl : 0 ≤ l) : |l - 1| ≤ |l ^ 2 - 1| := by
  have hfactor : l ^ 2 - 1 = (l - 1) * (l + 1) := by ring
  rw [hfactor, abs_mul, abs_of_nonneg (by linarith : 0 ≤ l + 1)]
  exact le_mul_of_one_le_right (abs_nonneg _) (by linarith)

/-- What measuring adds to the error of the normalized squares. -/
theorem measured_squares {total l share : ℚ} (hshare : share ≤ 1) (hl : 0 ≤ l)
    (hsquares : |p ^ 2 + q ^ 2 - 1| ≤ share + 16 * unitRoundoff)
    (hsum : |total - (p ^ 2 + q ^ 2)| ≤ 2 * halfUnit + 3 * unitRoundoff * total)
    (hsqrt : |l ^ 2 - total| ≤ 3 * unitRoundoff * total) :
    |l - 1| ≤ share + 1 / 2 ^ 48 := by
  have hsmall := Binary64.halfUnit_le
  refine (abs_sub_one_le hl).trans ?_
  generalize p ^ 2 + q ^ 2 = squares at *
  generalize l ^ 2 = sq at *
  unfold unitRoundoff at *
  obtain ⟨h1, h2⟩ := abs_le.mp hsquares
  obtain ⟨h3, h4⟩ := abs_le.mp hsum
  obtain ⟨h5, h6⟩ := abs_le.mp hsqrt
  rw [abs_le]
  constructor <;> linarith

end Errors

/-! ### Lengths -/

variable {v : Vec}

theorem length_eq (v : Vec) : v.length = (squaredLength v.x v.y).sqrt := rfl

theorem unsigned_length (hx : v.x ≠ .nan) (hy : v.y ≠ .nan) : Binary64.Unsigned v.length :=
  Binary64.unsigned_sqrt (Binary64.unsigned_squaredLength hx hy)

/-- The square of a length is off by 3 · 2^-53 of the computed square. -/
theorem length_error (hx : v.x.isFinite = true) (hy : v.y.isFinite = true)
    (h : (squaredLength v.x v.y).isFinite = true) :
    v.length.isFinite = true ∧
      |v.length.toRat ^ 2 - (squaredLength v.x v.y).toRat|
        ≤ 3 * unitRoundoff * (squaredLength v.x v.y).toRat := by
  have hunsigned := Binary64.unsigned_squaredLength_of_isFinite hx hy
  rw [length_eq]
  rcases hunsigned.toRat_nonneg.eq_or_lt with hzero | hpos
  · rw [hunsigned.eq_zero h hzero.symm, Binary64.sqrt_zero, Binary64.toRat_zero]
    exact ⟨rfl, by norm_num⟩
  · obtain ⟨hfinite, -, herror⟩ := Binary64.sqrt_error h hpos
    exact ⟨hfinite, herror⟩

/-- A vector whose squares nearly add up to 1 has a length near 1. -/
theorem length_of_squares (hx : v.x.isFinite = true) (hy : v.y.isFinite = true) {share : ℚ}
    (hshare : share ≤ 1)
    (hsquares : |v.x.toRat ^ 2 + v.y.toRat ^ 2 - 1| ≤ share + 16 * unitRoundoff) :
    v.length.isFinite = true ∧ |v.length.toRat - 1| ≤ share + 1 / 2 ^ 48 := by
  have hfinite : (squaredLength v.x v.y).isFinite = true := by
    refine Binary64.isFinite_squaredLength hx hy ?_
    have hpow : (2 : ℚ) ^ 2 ≤ 2 ^ 1023 := pow_le_pow_right₀ (by norm_num) (by omega)
    generalize (2 : ℚ) ^ 1023 = bound at *
    unfold unitRoundoff at hsquares
    linarith [(abs_le.mp hsquares).2]
  obtain ⟨hlength, herror⟩ := length_error hx hy hfinite
  have hnonneg := (unsigned_length (Binary64.ne_nan_of_isFinite hx)
    (Binary64.ne_nan_of_isFinite hy)).toRat_nonneg
  have hsum := Binary64.squaredLength_error hx hy hfinite
  exact ⟨hlength, measured_squares hshare hnonneg hsquares hsum herror⟩

/-! ### What normalizing does

It does one of three things, and the computed square of the length says which.
-/

/-- Both squares are rounded to zero. -/
def Vanishes (v : Vec) : Prop := v.x.toRat ^ 2 ≤ halfUnit ∧ v.y.toRat ^ 2 ≤ halfUnit

/-- The sum of the squares is rounded to infinity. -/
def Overflows (v : Vec) : Prop := (squaredLength v.x v.y).isFinite = false

theorem isFinite_of_not_overflows (h : ¬ v.Overflows) :
    (squaredLength v.x v.y).isFinite = true := by
  unfold Overflows at h
  rwa [Bool.not_eq_false] at h

theorem not_overflows_of_isFinite (h : (squaredLength v.x v.y).isFinite = true) :
    ¬ v.Overflows := by
  unfold Overflows
  rw [h]
  exact Bool.noConfusion

theorem vanishes_zero (s t : Bool) : Vanishes ⟨Binary64.zero s, Binary64.zero t⟩ := by
  unfold Vanishes
  rw [Binary64.toRat_zero, Binary64.toRat_zero, zero_pow (by omega)]
  exact ⟨Binary64.halfUnit_pos.le, Binary64.halfUnit_pos.le⟩

/-- A quotient by the length is finite, and off by one rounding. -/
theorem quotient_error {c l : Binary64} (hc : c.isFinite = true) (hl : l.isFinite = true)
    (hpos : 0 < l.toRat) (hsq : (c.toRat / l.toRat) ^ 2 ≤ 4) :
    (c / l).isFinite = true ∧
      |(c / l).toRat - c.toRat / l.toRat| ≤ halfUnit + unitRoundoff * |(c / l).toRat| := by
  have hround := Binary64.isRounding_div hc hl hpos.ne'
  have hfinite : (c / l).isFinite = true := by
    rw [hround.isFinite_iff]
    refine Binary64.lt_overflow_of_sq_le Binary64.two_lt_overflow ?_
    rw [sq_abs]
    linarith
  exact ⟨hfinite, hround.error hfinite⟩

section Finite

variable (hx : v.x.isFinite = true) (hy : v.y.isFinite = true)
include hx hy

theorem not_overflows_of_le (h : v.x.toRat ^ 2 + v.y.toRat ^ 2 ≤ 2 ^ 1023) : ¬ v.Overflows :=
  not_overflows_of_isFinite (Binary64.isFinite_squaredLength hx hy h)

theorem not_overflows_of_vanishes (h : v.Vanishes) : ¬ v.Overflows := by
  have hsmall := Binary64.halfUnit_le
  have hone : (1 : ℚ) ≤ 2 ^ 1023 := one_le_pow₀ (by norm_num)
  refine not_overflows_of_le hx hy ?_
  generalize (2 : ℚ) ^ 1023 = bound at *
  linarith [h.1, h.2]

/-- Unless it vanishes or overflows, the computed square is positive. -/
theorem squaredLength_pos (hv : ¬ v.Vanishes) (ho : ¬ v.Overflows) :
    0 < (squaredLength v.x v.y).toRat := by
  have hne : (squaredLength v.x v.y).toRat ≠ 0 :=
    (Binary64.squaredLength_eq_zero_iff hx hy (isFinite_of_not_overflows ho)).not.mpr hv
  exact (Binary64.unsigned_squaredLength_of_isFinite hx hy).toRat_nonneg.lt_of_ne' hne

theorem length_of_vanishes (h : v.Vanishes) : v.length = Binary64.zero false := by
  have hfinite := isFinite_of_not_overflows (not_overflows_of_vanishes hx hy h)
  have hzero := (Binary64.squaredLength_eq_zero_iff hx hy hfinite).mpr h
  rw [length_eq, (Binary64.unsigned_squaredLength_of_isFinite hx hy).eq_zero hfinite hzero,
    Binary64.sqrt_zero]

theorem length_of_overflows (h : v.Overflows) : v.length = Binary64.infinite false := by
  rw [length_eq, (Binary64.unsigned_squaredLength_of_isFinite hx hy).eq_infinite h]
  rfl

/-- A length of zero leaves the vector as it is, with a note. -/
theorem normalize_of_vanishes (h : v.Vanishes) : v.normalize = .noting .zeroLength v := by
  have heq : numEq (Binary64.zero false) 0.0 = true := by decide +kernel
  unfold normalize
  rw [length_of_vanishes hx hy h, if_pos heq]

/-- Any other length divides the components. -/
theorem normalize_of_not_vanishes (h : ¬ v.Vanishes) :
    v.normalize = pure ⟨v.x / v.length, v.y / v.length⟩ := by
  have hne : numEq v.length 0.0 ≠ true := by
    by_cases ho : v.Overflows
    · have hinf : numEq (Binary64.infinite false) 0.0 = false := by decide +kernel
      rw [length_of_overflows hx hy ho, hinf]
      exact Bool.false_ne_true
    · obtain ⟨hfinite, hpos, -⟩ := Binary64.sqrt_error (isFinite_of_not_overflows ho)
        (squaredLength_pos hx hy h ho)
      have hzero : (0.0 : Binary64) = Binary64.zero false := Binary64.positiveZero_eq
      intro heq
      rw [hzero, length_eq, Binary64.numEq_iff hfinite rfl, Binary64.toRat_zero] at heq
      exact hpos.ne' heq
  unfold normalize
  rw [if_neg hne]

/-- An infinite length divides the components down to zero. -/
theorem length_normalize_of_overflows (h : v.Overflows) :
    v.normalize.value.length = Binary64.zero false := by
  have hv : ¬ v.Vanishes := fun hvanishes => not_overflows_of_vanishes hx hy hvanishes h
  obtain ⟨s, hs⟩ := Binary64.exists_div_infinite hx
  obtain ⟨t, ht⟩ := Binary64.exists_div_infinite hy
  rw [normalize_of_not_vanishes hx hy hv, length_of_overflows hx hy h, hs, ht]
  exact length_of_vanishes rfl rfl (vanishes_zero s t)

/-- A length that is neither zero nor infinite measures the vector. -/
theorem measures_length (hv : ¬ v.Vanishes) (ho : ¬ v.Overflows) :
    v.length.isFinite = true ∧
      Measures v.x.toRat v.y.toRat (squaredLength v.x v.y).toRat v.length.toRat := by
  have hfinite := isFinite_of_not_overflows ho
  have hpos := squaredLength_pos hx hy hv ho
  obtain ⟨hl, hroot, herror⟩ := Binary64.sqrt_error hfinite hpos
  exact ⟨hl, {
    root_pos := hroot
    le_square := Binary64.two_mul_halfUnit_le hfinite hpos
    square_error := Binary64.squaredLength_error hx hy hfinite
    root_error := herror }⟩

/-- **Any other length gives a vector of finite components whose squares add up to 1, but
for the share of two half units in the computed square and for 16 · 2^-53.** -/
theorem exists_normalize (hv : ¬ v.Vanishes) (ho : ¬ v.Overflows) :
    ∃ w : Vec, v.normalize = pure w ∧ w.x.isFinite = true ∧ w.y.isFinite = true ∧
      |w.x.toRat ^ 2 + w.y.toRat ^ 2 - 1|
        ≤ 2 * halfUnit / (squaredLength v.x v.y).toRat + 16 * unitRoundoff := by
  obtain ⟨hl, hmeasures⟩ := measures_length hx hy hv ho
  obtain ⟨hx4, hy4⟩ := hmeasures.squares_le_four
  obtain ⟨hp, hperror⟩ := quotient_error hx hl hmeasures.root_pos hx4
  obtain ⟨hq, hqerror⟩ := quotient_error hy hl hmeasures.root_pos hy4
  exact ⟨_, normalize_of_not_vanishes hx hy hv, hp, hq,
    hmeasures.normalized_squares hperror hqerror⟩

/-- Its length is near 1. -/
theorem length_near_one (hv : ¬ v.Vanishes) (ho : ¬ v.Overflows) :
    v.normalize.value.length.isFinite = true ∧
      |v.normalize.value.length.toRat - 1|
        ≤ 2 * halfUnit / (squaredLength v.x v.y).toRat + 1 / 2 ^ 48 := by
  obtain ⟨w, hw, hwx, hwy, hsquares⟩ := exists_normalize hx hy hv ho
  rw [hw]
  exact length_of_squares hwx hwy (measures_length hx hy hv ho).2.share_bounds.2 hsquares

/-! ### Where the share is small

A half unit is 2^-1075, so 2^31 of them are 2^-1044.
-/

/-- From squares of 2^-1044 on, the share of the two half units is within the tolerance. -/
theorem share_le (ho : ¬ v.Overflows)
    (h : 2 ^ 31 * halfUnit ≤ v.x.toRat ^ 2 + v.y.toRat ^ 2) :
    ¬ v.Vanishes ∧
      2 * halfUnit / (squaredLength v.x v.y).toRat + 1 / 2 ^ 48 ≤ 1 / 10 ^ 9 := by
  have hunit := Binary64.halfUnit_pos
  have herror := Binary64.squaredLength_error hx hy (isFinite_of_not_overflows ho)
  constructor
  · rintro ⟨hvx, hvy⟩
    linarith
  · have hlow := (abs_le.mp herror).1
    generalize (squaredLength v.x v.y).toRat = H at *
    unfold unitRoundoff at hlow
    have hH : 999 / 1000 * (2 ^ 31 * halfUnit) ≤ H := by linarith
    have hshare : 2 * halfUnit / H ≤ 1001 / 1000 / 2 ^ 30 := by
      rw [div_le_iff₀ (by linarith)]
      linarith
    linarith

end Finite

/-! ### Finite vectors -/

/-- What normalizing a finite vector gives, and when. -/
structure Normalizes (v : Vec) : Prop where
  /-- A vector is left as it is, with a note, exactly if both squares vanish. -/
  noted_iff : v.normalize.notes ≠ [] ↔ v.Vanishes
  unchanged : v.Vanishes → v.normalize.value = v ∧ v.normalize.notes = [.zeroLength]
  /-- If the sum of the squares overflows, no length is left. -/
  collapsed : v.Overflows → v.normalize.value.length = Binary64.zero false
  overflows : overflow ≤ v.x.toRat ^ 2 ∨ overflow ≤ v.y.toRat ^ 2 → v.Overflows
  not_overflows : v.x.toRat ^ 2 + v.y.toRat ^ 2 ≤ 2 ^ 1023 → ¬ v.Overflows
  /-- If neither happens, the length is near 1. -/
  near_one : ¬ v.Vanishes → ¬ v.Overflows → v.normalize.value.length.isFinite = true ∧
    |v.normalize.value.length.toRat - 1|
      ≤ 2 * halfUnit / (squaredLength v.x v.y).toRat + 1 / 2 ^ 48
  within_tolerance : 2 ^ 31 * halfUnit ≤ v.x.toRat ^ 2 + v.y.toRat ^ 2 → ¬ v.Overflows →
    v.normalize.value.length.isFinite = true ∧
      |v.normalize.value.length.toRat - 1| ≤ 1 / 10 ^ 9

/-- **A finite vector is normalized to a length of 1, within 2^-48 and the share that two
half units have in the computed square, unless that square is rounded to zero or to
infinity.** -/
theorem length_normalize (v : Vec) (hv : v.isFinite = true) : Normalizes v := by
  obtain ⟨hx, hy⟩ := Bool.and_eq_true_iff.mp hv
  exact {
    noted_iff := by
      constructor
      · intro hnotes
        by_contra hvanishes
        rw [normalize_of_not_vanishes hx hy hvanishes] at hnotes
        exact hnotes rfl
      · intro hvanishes
        rw [normalize_of_vanishes hx hy hvanishes]
        exact List.cons_ne_nil _ _
    unchanged := by
      intro hvanishes
      rw [normalize_of_vanishes hx hy hvanishes]
      exact ⟨rfl, rfl⟩
    collapsed := length_normalize_of_overflows hx hy
    overflows := Binary64.not_isFinite_squaredLength hx hy
    not_overflows := not_overflows_of_le hx hy
    near_one := length_near_one hx hy
    within_tolerance := by
      intro hlarge ho
      obtain ⟨hvanishes, hshare⟩ := share_le hx hy ho hlarge
      obtain ⟨hfinite, hnear⟩ := length_near_one hx hy hvanishes ho
      exact ⟨hfinite, hnear.trans hshare⟩ }

/-- A vector of one long and one very short component. -/
theorem length_normalize_uneven :
    (⟨-1e150, 1e-300⟩ : Vec).isFinite = true ∧ Normalizes ⟨-1e150, 1e-300⟩ := by
  have hfinite : (⟨-1e150, 1e-300⟩ : Vec).isFinite = true := by decide +kernel
  exact ⟨hfinite, length_normalize _ hfinite⟩

/-- Neither a vector whose squares overflow nor one whose squares vanish gets the length 1,
and the latter is left as it is although it is not the origin. -/
theorem length_normalize_ne_one :
    ((⟨1e200, 0.0⟩ : Vec).isFinite = true ∧ equal ⟨1e200, 0.0⟩ zero = false ∧
      (normalize ⟨1e200, 0.0⟩).value.length = Binary64.zero false) ∧
    ((⟨1e-200, 0.0⟩ : Vec).isFinite = true ∧ equal ⟨1e-200, 0.0⟩ zero = false ∧
      (normalize ⟨1e-200, 0.0⟩).value.length = Binary64.zero false ∧
      (normalize ⟨1e-200, 0.0⟩).value = ⟨1e-200, 0.0⟩ ∧
      (normalize ⟨1e-200, 0.0⟩).notes.map Note.level = [.trace]) ∧
    1 / 10 ^ 9 < |(Binary64.zero false).toRat - 1| := by
  refine ⟨by decide +kernel, by decide +kernel, ?_⟩
  rw [Binary64.toRat_zero]
  norm_num

end Planar.Vec
