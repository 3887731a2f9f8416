/-
Rounding to whole numbers and to the grid.

Rounding half up takes the whole number below and adds one if the fraction is at least
one half.  The whole number is exact; the fraction is rounded, but stays on its side of
one half; and one is only added to a number that has a fraction, which is small enough
for the next whole number to be exact too.  So what is computed is `⌊x + 1/2⌋`, without
an error, for every finite number (`roundHalfUp_exact`).

Snapping to the grid multiplies by 10^8 first, and that can overflow: the grid ends at
about 1.8 · 10^300.  Below the end a snapped number is finite, because rounding to a
whole number and dividing keep it so, and from the end on it is infinite, because
infinity is rounded to itself and stays infinite when it is divided (`snap_onGrid`).
-/
import Planar.Proofs.Binary64.Whole
import Planar.Scalar

namespace Planar.Binary64

variable {x y : Binary64}

/-! ### Literals -/

/-- The literal of a whole number, written with one decimal. -/
theorem whole_exact {c : Nat} (hc : c ≤ 2 ^ 53) :
    (ofDecimal false (10 * c) (-1)).isFinite = true ∧
      (ofDecimal false (10 * c) (-1)).toRat = c := by
  have hwhole := representable_int (z := c) (by rwa [Int.natAbs_natCast])
  rw [Int.cast_natCast] at hwhole
  refine ofDecimal_exact ?_ hwhole
  rw [zpow_neg_one, Nat.cast_mul, Nat.cast_ofNat, mul_right_comm, mul_inv_cancel₀ (by norm_num),
    one_mul]

theorem one_exact : (1.0 : Binary64).isFinite = true ∧ (1.0 : Binary64).toRat = 1 := by
  have h := whole_exact (c := 1) (by decide)
  rwa [Nat.cast_one] at h

theorem gridScale_eq : gridScale = ofDecimal false 1000000000 (-1) := rfl

theorem isNegative_gridScale : gridScale.isNegative = false := by
  rw [gridScale_eq]
  exact isNegative_ofDecimal _ _ _

theorem gridScale_exact : gridScale.isFinite = true ∧ gridScale.toRat = 10 ^ 8 := by
  have h := whole_exact (c := 10 ^ 8) (by decide)
  rw [Nat.cast_pow, Nat.cast_ofNat] at h
  rw [gridScale_eq]
  exact h

/-! ### Halves up -/

/-- The whole number nearest to a ratio, halves up, by the ratio's fraction. -/
theorem floor_add_half_of_le {q : ℚ} (h : 1 / 2 ≤ Int.fract q) : ⌊q + 1 / 2⌋ = ⌊q⌋ + 1 := by
  have hlt := Int.fract_lt_one q
  have hsplit := Int.floor_add_fract q
  rw [Int.floor_eq_iff]
  push_cast
  constructor <;> linarith

theorem floor_add_half_of_lt {q : ℚ} (h : Int.fract q < 1 / 2) : ⌊q + 1 / 2⌋ = ⌊q⌋ := by
  have hge := Int.fract_nonneg q
  have hsplit := Int.floor_add_fract q
  rw [Int.floor_eq_iff]
  constructor <;> linarith

theorem roundHalfUp_of_le (hx : x.isFinite = true) (h : 1 / 2 ≤ Int.fract x.toRat) :
    roundHalfUp x = x.floor + 1.0 := by
  unfold roundHalfUp
  exact if_pos ((numLe_half_iff hx).mpr h)

theorem roundHalfUp_of_lt (hx : x.isFinite = true) (h : Int.fract x.toRat < 1 / 2) :
    roundHalfUp x = x.floor := by
  unfold roundHalfUp
  exact if_neg fun hle => not_le.mpr h ((numLe_half_iff hx).mp hle)

/-- Halves up, a finite number is rounded without an error. -/
theorem toRat_roundHalfUp (hx : x.isFinite = true) :
    (roundHalfUp x).isFinite = true ∧ (roundHalfUp x).toRat = ⌊x.toRat + 1 / 2⌋ := by
  obtain ⟨hfloor, hvalue⟩ := floor_exact hx
  rcases le_or_gt (1 / 2) (Int.fract x.toRat) with hle | hlt
  · obtain ⟨hone, honevalue⟩ := one_exact
    have hround := (isRounding_add hfloor hone).1
    rw [hvalue, honevalue] at hround
    rw [roundHalfUp_of_le hx hle, floor_add_half_of_le hle, Int.cast_add, Int.cast_one]
    exact hround.exact (representable_floor_add_one hx (by linarith))
  · rw [roundHalfUp_of_lt hx hlt, floor_add_half_of_lt hlt]
    exact ⟨hfloor, hvalue⟩

/-- What is not finite has no fraction to compare, and stays as it is. -/
theorem roundHalfUp_of_not_isFinite (hx : x.isFinite = false) : roundHalfUp x = x := by
  have hself : x - x.floor = nan ∧ x.floor = x := by
    cases x with
    | nan => exact ⟨rfl, rfl⟩
    | infinite s => cases s <;> exact ⟨rfl, rfl⟩
    | finite s r => exact Bool.noConfusion hx
  unfold roundHalfUp
  dsimp only
  rw [hself.1, numLe_nan, hself.2]
  rfl

/-! ### The negative zero -/

/-- An exact sum of zero is negative only if both terms are. -/
theorem add_of_toRat_eq_zero (hx : x.isFinite = true) (hy : y.isFinite = true)
    (h : x.toRat + y.toRat = 0) : x + y = zero (x.isNegative && y.isNegative) := by
  obtain ⟨s, a, rfl⟩ := exists_of_isFinite hx
  obtain ⟨t, b, rfl⟩ := exists_of_isFinite hy
  have hsum : ((signedUnits s a + signedUnits t b : Int) : ℚ) / unitsInOne = 0 := by
    rw [Int.cast_add, add_div]
    exact h
  rw [div_eq_zero_iff, or_iff_left unitsInOne_cast_pos.ne', Int.cast_eq_zero] at hsum
  rw [add_finite, if_pos hsum]
  rfl

/-- Only the negative zero is rounded to itself: from below zero halves go up to the zero
without a sign. -/
theorem roundHalfUp_eq_negativeZero_iff (x : Binary64) :
    roundHalfUp x = zero true ↔ x = zero true := by
  constructor
  · intro hzero
    have hx : x.isFinite = true := by
      by_contra hnot
      rw [Bool.not_eq_true] at hnot
      rw [roundHalfUp_of_not_isFinite hnot] at hzero
      rw [hzero] at hnot
      exact Bool.noConfusion hnot
    obtain ⟨hfloor, hvalue⟩ := floor_exact hx
    rcases le_or_gt (1 / 2) (Int.fract x.toRat) with hle | hlt
    · obtain ⟨hone, honevalue⟩ := one_exact
      have hsum := (toRat_roundHalfUp hx).2
      rw [hzero, toRat_zero, floor_add_half_of_le hle, Int.cast_add, Int.cast_one] at hsum
      have hexact : x.floor.toRat + (1.0 : Binary64).toRat = 0 := by
        rw [hvalue, honevalue, ← hsum]
      have hsign : (1.0 : Binary64).isNegative = false := isNegative_ofDecimal false 10 (-1)
      rw [roundHalfUp_of_le hx hle, add_of_toRat_eq_zero hfloor hone hexact, hsign,
        Bool.and_false] at hzero
      exact absurd hzero (by decide)
    · rw [roundHalfUp_of_lt hx hlt] at hzero
      have hnegative : x.isNegative = true := by
        rw [← (isRounding_floor hx).2, hzero]
        rfl
      have hnonneg : 0 ≤ x.toRat := by
        rw [hzero, toRat_zero] at hvalue
        have := Int.floor_le x.toRat
        rwa [← hvalue] at this
      have hvaluezero := le_antisymm (toRat_nonpos_of_isNegative hx hnegative) hnonneg
      obtain ⟨s, rfl⟩ := (toRat_eq_zero_iff hx).mp hvaluezero
      exact congrArg zero hnegative
  · rintro rfl
    decide +kernel

/-- **Rounding half up is exact:** a finite number becomes `⌊x + 1/2⌋`, only the negative
zero becomes the negative zero, and what is not finite stays as it is. -/
theorem roundHalfUp_exact (x : Binary64) :
    (x.isFinite = true → (roundHalfUp x).isFinite = true ∧
      (roundHalfUp x).toRat = ⌊x.toRat + 1 / 2⌋) ∧
    (roundHalfUp x = zero true ↔ x = zero true) ∧
    (x.isFinite = false → roundHalfUp x = x) :=
  ⟨toRat_roundHalfUp, roundHalfUp_eq_negativeZero_iff x, roundHalfUp_of_not_isFinite⟩

/-- The number just below one half, and an infinity. -/
theorem roundHalfUp_exact_belowHalf :
    ((0.49999999999999994 : Binary64).isFinite = true ∧
      (roundHalfUp 0.49999999999999994).isFinite = true ∧
      (roundHalfUp 0.49999999999999994).toRat
        = ⌊(0.49999999999999994 : Binary64).toRat + 1 / 2⌋) ∧
    ((infinite true).isFinite = false ∧ roundHalfUp (infinite true) = infinite true) := by
  have hfinite : (0.49999999999999994 : Binary64).isFinite = true := by decide +kernel
  exact ⟨⟨hfinite, (roundHalfUp_exact _).1 hfinite⟩, rfl, (roundHalfUp_exact _).2.2 rfl⟩

/-! ### The end of the grid -/

/-- What becomes of a finite number on the grid: it stays finite below the end of the grid,
and from there on it is the infinity of its sign. -/
structure OnGrid (x snapped : Binary64) : Prop where
  isFinite_iff : snapped.isFinite = true ↔ |x.toRat| * 10 ^ 8 < overflow
  eq_infinite : overflow ≤ |x.toRat| * 10 ^ 8 → snapped = infinite x.isNegative

/-- A finite number of grid steps is a finite number. -/
theorem isFinite_div_gridScale (hx : x.isFinite = true) : (x / gridScale).isFinite = true := by
  obtain ⟨hscale, hvalue⟩ := gridScale_exact
  have hround := isRounding_div hx hscale (by rw [hvalue]; norm_num)
  have hle : |x.toRat| / 10 ^ 8 ≤ |x.toRat| := div_le_self (abs_nonneg _) (by norm_num)
  rw [hround.isFinite_iff, hvalue, abs_div, abs_of_pos (by norm_num : (0 : ℚ) < 10 ^ 8)]
  exact hle.trans_lt (abs_toRat_lt_overflow hx)

theorem infinite_div_gridScale (s : Bool) : infinite s / gridScale = infinite s := by
  obtain ⟨t, r, hscale⟩ := exists_of_isFinite gridScale_exact.1
  have hsign := isNegative_gridScale
  rw [hscale] at hsign ⊢
  have ht : t = false := hsign
  show infinite (s ^^ t) = infinite s
  rw [ht, Bool.xor_false]

/-- **Snapping keeps a finite number finite exactly below the end of the grid.** -/
theorem snap_onGrid (hx : x.isFinite = true) : OnGrid x x.snap := by
  obtain ⟨hscale, hvalue⟩ := gridScale_exact
  have hround := isRounding_mul hx hscale
  have hscaled : |x.toRat * gridScale.toRat| = |x.toRat| * 10 ^ 8 := by
    rw [hvalue, abs_mul, abs_of_pos (by norm_num : (0 : ℚ) < 10 ^ 8)]
  have hinfinite : overflow ≤ |x.toRat| * 10 ^ 8 → x.snap = infinite x.isNegative := by
    intro hover
    unfold snap
    rw [mul_of_overflow hx hscale (hscaled ▸ hover), isNegative_gridScale, Bool.xor_false,
      roundHalfUp_of_not_isFinite rfl, infinite_div_gridScale]
  refine ⟨⟨?_, ?_⟩, hinfinite⟩
  · intro hfinite
    by_contra hover
    rw [hinfinite (not_lt.mp hover)] at hfinite
    exact Bool.noConfusion hfinite
  · intro hlt
    rw [← hscaled, ← hround.isFinite_iff] at hlt
    exact isFinite_div_gridScale (toRat_roundHalfUp hlt).1

end Planar.Binary64
