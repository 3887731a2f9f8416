/-
The computed square of a length.

Squares have no sign, and sums and roots of numbers without a sign have none either
(`Unsigned`).  So nothing cancels: the errors of the two squares and of the sum are each
relative to the sum, but for half a unit from each square (`squaredLength_error`), and
the sum is zero exactly if both squares are (`squaredLength_eq_zero_iff`), infinite
exactly if it does not stay below the overflow.

Two half units are nothing beside most sums and everything beside the least ones.  That
is why they are kept apart from the relative error in all that follows.
-/
import Planar.Proofs.Binary64.Order
import Planar.Proofs.Binary64.Root
import Planar.Scalar

namespace Planar.Binary64

variable {x y : Binary64}

/-! ### Numbers without a sign -/

/-- A number without a sign: not NaN, and not below or at the negative zero. -/
def Unsigned (x : Binary64) : Prop := x = infinite false ∨ ∃ r, x = finite false r

theorem Unsigned.toRat_nonneg (h : Unsigned x) : 0 ≤ x.toRat := by
  rcases h with rfl | ⟨r, rfl⟩
  · exact le_refl _
  · rw [toRat_finite, signFactor_false, one_mul]
    exact div_nonneg (Nat.cast_nonneg _) unitsInOne_cast_pos.le

/-- Such a number is either finite or infinite. -/
theorem Unsigned.eq_infinite (h : Unsigned x) (hx : x.isFinite = false) : x = infinite false := by
  rcases h with rfl | ⟨r, rfl⟩
  · rfl
  · simp [isFinite] at hx

theorem sqrt_zero (s : Bool) : (zero s).sqrt = zero s := rfl

/-- A finite number divided by infinity is a zero. -/
theorem exists_div_infinite (hx : x.isFinite = true) : ∃ s, x / infinite false = zero s := by
  obtain ⟨s, r, rfl⟩ := exists_of_isFinite hx
  exact ⟨s ^^ false, rfl⟩

theorem Unsigned.eq_zero (h : Unsigned x) (hx : x.isFinite = true) (hzero : x.toRat = 0) :
    x = zero false := by
  obtain ⟨s, rfl⟩ := (toRat_eq_zero_iff hx).mp hzero
  rcases h with hinf | ⟨r, hr⟩
  · simp [zero] at hinf
  · injection hr with hs _
    rw [hs]

theorem unsigned_ofUnits (n d : Nat) : Unsigned (ofUnits false n d) := by
  unfold ofUnits ofRank
  split
  · exact Or.inr ⟨_, rfl⟩
  · exact Or.inl rfl

theorem unsigned_mul_self (hx : x ≠ nan) : Unsigned (x * x) := by
  cases x with
  | nan => exact absurd rfl hx
  | infinite s =>
      refine Or.inl ?_
      show infinite (s ^^ s) = _
      rw [Bool.xor_self]
  | finite s r =>
      rw [mul_finite, Bool.xor_self]
      exact unsigned_ofUnits _ _

theorem unsigned_add (hx : Unsigned x) (hy : Unsigned y) : Unsigned (x + y) := by
  rcases hx with rfl | ⟨a, rfl⟩
  · rcases hy with rfl | ⟨b, rfl⟩
    · exact Or.inl rfl
    · exact Or.inl rfl
  · rcases hy with rfl | ⟨b, rfl⟩
    · exact Or.inl rfl
    · have hsum : 0 ≤ signedUnits false a + signedUnits false b := by
        unfold signedUnits
        simp only [Bool.false_eq_true, if_false]
        omega
      rw [add_finite]
      split
      · exact Or.inr ⟨_, rfl⟩
      · rw [decide_eq_false (not_lt.mpr hsum)]
        exact unsigned_ofUnits _ _

theorem unsigned_sqrt (hx : Unsigned x) : Unsigned x.sqrt := by
  rcases hx with rfl | ⟨r, rfl⟩
  · exact Or.inl rfl
  · by_cases hr : r.val = 0
    · refine Or.inr ⟨r, ?_⟩
      show (if r.val = 0 then _ else _) = _
      rw [if_pos hr]
    · rw [sqrt_finite hr]
      exact unsigned_ofUnits _ _

/-! ### The sum of two squares -/

theorem ne_nan_of_isFinite (hx : x.isFinite = true) : x ≠ nan := by
  obtain ⟨s, r, rfl⟩ := exists_of_isFinite hx
  exact Binary64.noConfusion

theorem squaredLength_eq (x y : Binary64) : squaredLength x y = x * x + y * y := rfl

theorem unsigned_squaredLength (hx : x ≠ nan) (hy : y ≠ nan) : Unsigned (squaredLength x y) :=
  unsigned_add (unsigned_mul_self hx) (unsigned_mul_self hy)

theorem unsigned_squaredLength_of_isFinite (hx : x.isFinite = true) (hy : y.isFinite = true) :
    Unsigned (squaredLength x y) :=
  unsigned_squaredLength (ne_nan_of_isFinite hx) (ne_nan_of_isFinite hy)

/-- A sum is finite only if its terms are. -/
theorem isFinite_of_isFinite_add (h : (x + y).isFinite = true) :
    x.isFinite = true ∧ y.isFinite = true := by
  cases x with
  | nan => simp [HAdd.hAdd, Add.add, add, isFinite] at h
  | infinite s =>
      cases y with
      | nan => simp [HAdd.hAdd, Add.add, add, isFinite] at h
      | infinite t =>
          by_cases hst : s = t <;> simp [HAdd.hAdd, Add.add, add, isFinite, hst] at h
      | finite t b => simp [HAdd.hAdd, Add.add, add, isFinite] at h
  | finite s a =>
      cases y with
      | nan => simp [HAdd.hAdd, Add.add, add, isFinite] at h
      | infinite t => simp [HAdd.hAdd, Add.add, add, isFinite] at h
      | finite t b => exact ⟨rfl, rfl⟩

/-- What a square and its error are, without a sign. -/
theorem square_error (hx : x.isFinite = true) (h : (x * x).isFinite = true) :
    0 ≤ (x * x).toRat ∧
      |(x * x).toRat - x.toRat ^ 2| ≤ halfUnit + unitRoundoff * (x * x).toRat := by
  have hnonneg := (unsigned_mul_self (ne_nan_of_isFinite hx)).toRat_nonneg
  have herror := (isRounding_mul hx hx).error h
  rw [abs_of_nonneg hnonneg, ← pow_two] at herror
  exact ⟨hnonneg, herror⟩

theorem add_error (hx : x.isFinite = true) (hy : y.isFinite = true)
    (h : (x + y).isFinite = true) :
    |(x + y).toRat - (x.toRat + y.toRat)| ≤ unitRoundoff * |(x + y).toRat| := by
  obtain ⟨hround, z, hz⟩ := isRounding_add hx hy
  exact hround.error_of_whole h hz

/-- **The computed square of a length is off by two half units and 3 · 2^-53 of itself.** -/
theorem squaredLength_error (hx : x.isFinite = true) (hy : y.isFinite = true)
    (h : (squaredLength x y).isFinite = true) :
    |(squaredLength x y).toRat - (x.toRat ^ 2 + y.toRat ^ 2)|
      ≤ 2 * halfUnit + 3 * unitRoundoff * (squaredLength x y).toRat := by
  have hnonneg := (unsigned_squaredLength_of_isFinite hx hy).toRat_nonneg
  rw [squaredLength_eq] at *
  obtain ⟨hfx, hfy⟩ := isFinite_of_isFinite_add h
  obtain ⟨hx0, hxe⟩ := square_error hx hfx
  obtain ⟨hy0, hye⟩ := square_error hy hfy
  have hsum := add_error hfx hfy h
  rw [abs_of_nonneg hnonneg] at hsum
  generalize (x * x + y * y).toRat = total at *
  generalize (x * x).toRat = a at *
  generalize (y * y).toRat = b at *
  unfold unitRoundoff at *
  obtain ⟨h1, h2⟩ := abs_le.mp hxe
  obtain ⟨h3, h4⟩ := abs_le.mp hye
  obtain ⟨h5, h6⟩ := abs_le.mp hsum
  rw [abs_le]
  constructor <;> linarith

/-- A square is rounded to zero up to half a unit. -/
theorem square_eq_zero_iff (hx : x.isFinite = true) (h : (x * x).isFinite = true) :
    (x * x).toRat = 0 ↔ x.toRat ^ 2 ≤ halfUnit := by
  rw [toRat_eq_zero_iff h, (isRounding_mul hx hx).eq_zero_iff, ← pow_two,
    abs_of_nonneg (sq_nonneg _)]

/-- The sum vanishes exactly if both squares do. -/
theorem squaredLength_eq_zero_iff (hx : x.isFinite = true) (hy : y.isFinite = true)
    (h : (squaredLength x y).isFinite = true) :
    (squaredLength x y).toRat = 0 ↔ x.toRat ^ 2 ≤ halfUnit ∧ y.toRat ^ 2 ≤ halfUnit := by
  rw [squaredLength_eq] at *
  obtain ⟨hfx, hfy⟩ := isFinite_of_isFinite_add h
  obtain ⟨hx0, -⟩ := square_error hx hfx
  obtain ⟨hy0, -⟩ := square_error hy hfy
  have hsum := add_error hfx hfy h
  rw [← square_eq_zero_iff hx hfx, ← square_eq_zero_iff hy hfy]
  unfold unitRoundoff at hsum
  constructor
  · intro hzero
    rw [hzero, abs_zero, mul_zero, zero_sub, abs_neg] at hsum
    have := (abs_le.mp hsum).2
    constructor <;> linarith
  · rintro ⟨ha, hb⟩
    rw [ha, hb, add_zero, sub_zero] at hsum
    by_contra hne
    have := abs_pos.mpr hne
    linarith

/-! ### Where the sum overflows -/

/-- The square of a number of 2^512 or more is infinite. -/
theorem not_isFinite_squaredLength (hx : x.isFinite = true) (hy : y.isFinite = true)
    (h : overflow ≤ x.toRat ^ 2 ∨ overflow ≤ y.toRat ^ 2) :
    (squaredLength x y).isFinite = false := by
  by_contra hfinite
  rw [Bool.not_eq_false, squaredLength_eq] at hfinite
  obtain ⟨hfx, hfy⟩ := isFinite_of_isFinite_add hfinite
  rw [(isRounding_mul hx hx).isFinite_iff, ← pow_two, abs_of_nonneg (sq_nonneg _)] at hfx
  rw [(isRounding_mul hy hy).isFinite_iff, ← pow_two, abs_of_nonneg (sq_nonneg _)] at hfy
  rcases h with h | h
  · exact absurd hfx (not_lt.mpr h)
  · exact absurd hfy (not_lt.mpr h)

/-- There is room for rounding between the greatest power of two and the overflow. -/
theorem room_below_overflow : (2 : ℚ) ^ 1023 * (3 / 2) ≤ overflow := by
  have hpow (k : Nat) : (2 : ℚ) ^ (k + 53) * (3 / 2) ≤ 2 ^ (k + 54) - 2 ^ k := by
    have hpos : (0 : ℚ) < 2 ^ k := pow_pos (by norm_num) k
    rw [pow_add, pow_add]
    linarith
  exact hpow 970

/-- A sum of squares of up to 2^1023 is finite. -/
theorem isFinite_squaredLength (hx : x.isFinite = true) (hy : y.isFinite = true)
    (h : x.toRat ^ 2 + y.toRat ^ 2 ≤ 2 ^ 1023) : (squaredLength x y).isFinite = true := by
  have hroom := room_below_overflow
  have hone : (1 : ℚ) ≤ 2 ^ 1023 := one_le_pow₀ (by norm_num)
  have hhalf := halfUnit_le
  have hxsq := sq_nonneg x.toRat
  have hysq := sq_nonneg y.toRat
  generalize (2 : ℚ) ^ 1023 = bound at *
  have hfx : (x * x).isFinite = true := by
    rw [(isRounding_mul hx hx).isFinite_iff, ← pow_two, abs_of_nonneg hxsq]
    linarith
  have hfy : (y * y).isFinite = true := by
    rw [(isRounding_mul hy hy).isFinite_iff, ← pow_two, abs_of_nonneg hysq]
    linarith
  obtain ⟨hx0, hxe⟩ := square_error hx hfx
  obtain ⟨hy0, hye⟩ := square_error hy hfy
  rw [squaredLength_eq, (isRounding_add hfx hfy).1.isFinite_iff, abs_of_nonneg (add_nonneg hx0 hy0)]
  generalize (x * x).toRat = a at *
  generalize (y * y).toRat = b at *
  have ha := (abs_le.mp hxe).2
  have hb := (abs_le.mp hye).2
  unfold unitRoundoff at ha hb
  linarith

end Planar.Binary64
