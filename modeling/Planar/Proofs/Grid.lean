/-
Snapping to the grid of hundred-millionths.

Snapping rounds three times: the product with 10^8, the product to a whole number `n` of
steps, and the quotient `n / 10^8`.  Half a step is lost by the second rounding, and each
of the others is off by 2^-53 of what it gives; so a number is moved by half a step and
2^-51 of itself at most, as long as the product does not overflow (`snap_error`).

Whether a number on the grid stays there is not a matter of that error but of the margin
that is left to the next half.  What lies within a quarter of a step of `n` steps is put on
`n` steps, because up to 2^51 - 1 the quarters beside `n` are numbers of the format, and
the product is not rounded past them (`isNearest_snap`).  The number nearest to `n` steps is
less than 2^-53 · n steps away from them, which up to 2^51 - 1 is less than a quarter.  So
it is a fixed point (`snap_eq_self`), and the range cannot be stretched: it ends where the
quarters do.
-/
import Mathlib.Algebra.Order.Round
import Planar.Proofs.Scalar

namespace Planar.Binary64

variable {x : Binary64} {n : Int}

/-! ### The three roundings -/

theorem isRounding_scaled (hx : x.isFinite = true) :
    IsRounding (x.toRat * 10 ^ 8) (x * gridScale) := by
  obtain ⟨hscale, hvalue⟩ := gridScale_exact
  have hround := isRounding_mul hx hscale
  rwa [hvalue] at hround

/-- The whole number of steps that a number is put on. -/
def gridSteps (x : Binary64) : Int := ⌊(x * gridScale).toRat + 1 / 2⌋

theorem abs_gridSteps_sub (x : Binary64) : |(gridSteps x : ℚ) - (x * gridScale).toRat| ≤ 1 / 2 := by
  have h := abs_sub_round (x * gridScale).toRat
  rw [round_eq, abs_sub_comm] at h
  exact h

theorem isRounding_snap (h : (x * gridScale).isFinite = true) :
    IsRounding (gridSteps x / 10 ^ 8) x.snap := by
  obtain ⟨hscale, hvalue⟩ := gridScale_exact
  obtain ⟨hwhole, hsteps⟩ := toRat_roundHalfUp h
  have hround := isRounding_div hwhole hscale (by rw [hvalue]; norm_num)
  rw [hsteps, hvalue] at hround
  exact hround

/-- Only a finite number has a finite product. -/
theorem isFinite_of_scaled (h : (x * gridScale).isFinite = true) : x.isFinite = true := by
  obtain ⟨t, r, hscale⟩ := exists_of_isFinite gridScale_exact.1
  rw [hscale] at h
  cases x with
  | nan => exact h
  | infinite s =>
      have hproduct : infinite s * finite t r = if r.val = 0 then nan else infinite (s ^^ t) := rfl
      rw [hproduct] at h
      split at h <;> exact h
  | finite s r => rfl

/-! ### Accuracy -/

/-- The product with the scale is off by one rounding. -/
theorem scaled_error (h : (x * gridScale).isFinite = true) :
    |(x * gridScale).toRat - x.toRat * 10 ^ 8|
      ≤ halfUnit + unitRoundoff * |(x * gridScale).toRat| :=
  (isRounding_scaled (isFinite_of_scaled h)).error h

/-- The steps divided by the scale are off by 2^-53 of the quotient. -/
theorem quotient_error (h : (x * gridScale).isFinite = true) :
    x.snap.isFinite = true ∧
      |x.snap.toRat - gridSteps x / 10 ^ 8| ≤ unitRoundoff * |x.snap.toRat| := by
  have hround := isRounding_snap h
  have hfinite : x.snap.isFinite = true := isFinite_div_gridScale (toRat_roundHalfUp h).1
  refine ⟨hfinite, ?_⟩
  by_cases hzero : gridSteps x = 0
  · rw [hzero, Int.cast_zero, zero_div] at hround ⊢
    rw [(hround.exact representable_zero).2, sub_zero, abs_zero, mul_zero]
  · refine hround.error_of_large hfinite ?_
    have hone : (1 : ℚ) ≤ |(gridSteps x : ℚ)| := by
      exact_mod_cast Int.one_le_abs hzero
    have hunit := halfUnit_le
    have hblock : (2 : ℚ) ^ 52 / unitsInOne = 2 ^ 52 * (2 * halfUnit) := by
      rw [two_mul_halfUnit, mul_one_div]
    rw [hblock, abs_div, abs_of_pos (by norm_num : (0 : ℚ) < 10 ^ 8), le_div_iff₀ (by norm_num)]
    linarith

/-- The errors of the three roundings of `f` steps, to `p`, `n` and `s`, taken together. -/
theorem sum_of_errors {f p n s : ℚ} (hp : |p - f| ≤ halfUnit + unitRoundoff * |p|)
    (hn : |n - p| ≤ 1 / 2) (hzero : n = 0 ∨ 1 ≤ |n|) (hs : |s - n| ≤ unitRoundoff * |s|) :
    |s - f| ≤ 1 / 2 + |f| / 2 ^ 51 := by
  have hunit := halfUnit_le
  have hpf := abs_sub_abs_le_abs_sub p f
  have hsn := abs_sub_abs_le_abs_sub s n
  unfold unitRoundoff at *
  rcases hzero with rfl | hone
  · -- Nothing is left of `f`, and `f` was not above half a step to speak of.
    have hs0 : |s| ≤ 0 := by
      rw [sub_zero] at hs
      linarith
    have hfp := abs_sub_abs_le_abs_sub f p
    rw [zero_sub, abs_neg] at hn
    rw [abs_nonpos_iff.mp hs0, zero_sub, abs_neg]
    rw [abs_sub_comm f] at hfp
    linarith
  · have hnp := abs_sub_abs_le_abs_sub n p
    have htriangle : |s - f| ≤ |s - n| + |n - p| + |p - f| := by
      have := abs_sub_le s n f
      have := abs_sub_le n p f
      linarith
    linarith

/-- **Snapping moves a number by at most half a step and 2^-51 of itself.** -/
theorem snap_error (h : (x * gridScale).isFinite = true) :
    |x.snap.toRat - x.toRat| ≤ 1 / 2 / 10 ^ 8 + |x.toRat| / 2 ^ 51 := by
  have hten : (0 : ℚ) < 10 ^ 8 := by norm_num
  have hzero : (gridSteps x : ℚ) = 0 ∨ 1 ≤ |(gridSteps x : ℚ)| := by
    rcases eq_or_ne (gridSteps x) 0 with heq | hne
    · exact Or.inl (by rw [heq, Int.cast_zero])
    · exact Or.inr (by exact_mod_cast Int.one_le_abs hne)
  have hquotient : |x.snap.toRat * 10 ^ 8 - gridSteps x|
      ≤ unitRoundoff * |x.snap.toRat * 10 ^ 8| := by
    have herror := mul_le_mul_of_nonneg_right (quotient_error h).2 hten.le
    rw [← abs_of_pos hten, ← abs_mul, mul_assoc, ← abs_mul, abs_of_pos hten, sub_mul,
      div_mul_cancel₀ _ hten.ne'] at herror
    exact herror
  have hsum := sum_of_errors (scaled_error h) (abs_gridSteps_sub x) hzero hquotient
  rw [← sub_mul, abs_mul, abs_mul, abs_of_pos hten] at hsum
  linarith

/-! ### Grid points -/

theorem floor_add_half_eq {q : ℚ} (h : |q - n| ≤ 1 / 4) : ⌊q + 1 / 2⌋ = n := by
  obtain ⟨hlow, hhigh⟩ := abs_le.mp h
  rw [Int.floor_eq_iff]
  constructor <;> linarith

/-- Rounding a value within a quarter of `n` does not take it out of the quarter. -/
theorem IsNearest.within_quarter {q : ℚ} {y : Binary64} (h : IsNearest q y) (hn : n.natAbs < 2 ^ 51)
    (hq : |q - n| ≤ 1 / 4) : |y.toRat - n| ≤ 1 / 4 := by
  have hquarter (w : Int) (hw : w.natAbs ≤ 2 ^ 53) : Representable (w / 4) := by
    have hdiv := representable_div (j := 2) hw (by decide)
    norm_num at hdiv
    exact hdiv
  have hlow := hquarter (4 * n - 1) (by omega)
  have hhigh := hquarter (4 * n + 1) (by omega)
  push_cast at hlow hhigh
  obtain ⟨hge, hle⟩ := abs_le.mp hq
  have hlower := h.ge_of_ge hlow (by linarith)
  have hupper := h.le_of_le hhigh (by linarith)
  rw [abs_le]
  constructor <;> linarith

theorem abs_steps_le {b : Nat} (hn : n.natAbs ≤ b) : |(n / 10 ^ 8 : ℚ)| ≤ b / 10 ^ 8 := by
  rw [abs_div, abs_of_pos (by norm_num : (0 : ℚ) < 10 ^ 8)]
  exact div_le_div_of_nonneg_right (abs_cast_le hn) (by norm_num)

theorem abs_steps_lt_overflow (hn : n.natAbs < 2 ^ 51) : |(n / 10 ^ 8 : ℚ)| < overflow := by
  refine (abs_steps_le hn.le).trans_lt ?_
  rw [Nat.cast_pow, Nat.cast_ofNat]
  exact (div_le_self (by positivity) (by norm_num)).trans_lt (two_pow_lt_overflow (by omega))

/-- **What lies within a quarter of a step of `n` steps is put on `n` steps.** -/
theorem isNearest_snap (hx : x.isFinite = true) (hn : n.natAbs < 2 ^ 51)
    (h : |x.toRat * 10 ^ 8 - n| ≤ 1 / 4) : IsNearest (n / 10 ^ 8) x.snap := by
  have hsize : |(n : ℚ)| ≤ 2 ^ 51 := by exact_mod_cast abs_cast_le hn.le
  have hover : (2 : ℚ) ^ 52 < overflow := two_pow_lt_overflow (by omega)
  have hproduct : |x.toRat * 10 ^ 8| < overflow := by
    have := abs_sub_abs_le_abs_sub (x.toRat * 10 ^ 8) (n : ℚ)
    generalize x.toRat * 10 ^ 8 = f at *
    linarith
  have hnear := (isRounding_scaled hx).isNearest hproduct
  have hround := isRounding_snap hnear.isFinite
  have hsteps : gridSteps x = n := floor_add_half_eq (hnear.within_quarter hn h)
  rw [hsteps] at hround
  exact hround.isNearest (abs_steps_lt_overflow hn)

/-- **The number nearest to `n` steps is within a quarter of a step of them.** -/
theorem IsNearest.near_steps (h : IsNearest (n / 10 ^ 8) x) (hn : n.natAbs < 2 ^ 51) :
    |x.toRat * 10 ^ 8 - n| ≤ 1 / 4 := by
  have hten : (0 : ℚ) < 10 ^ 8 := by norm_num
  have hsize : |(n : ℚ)| ≤ 2 ^ 51 - 1 := by
    have hle : |n| ≤ 2 ^ 51 - 1 := by
      rw [Int.abs_eq_natAbs]
      omega
    exact_mod_cast hle
  have hunit := halfUnit_le
  have herror := mul_le_mul_of_nonneg_right (h.error (abs_steps_lt_overflow hn)) hten.le
  rw [← abs_of_pos hten, ← abs_mul, abs_of_pos hten, sub_mul, div_mul_cancel₀ _ hten.ne',
    add_mul, mul_assoc unitRoundoff, ← abs_of_pos hten, ← abs_mul, abs_of_pos hten] at herror
  have hreach := abs_sub_abs_le_abs_sub (x.toRat * 10 ^ 8) (n : ℚ)
  generalize x.toRat * 10 ^ 8 = f at *
  unfold unitRoundoff at herror
  linarith

theorem snap_zero (s : Bool) : (zero s).snap = zero s := by
  cases s <;> decide +kernel

/-- **The number nearest to `n` steps is left as it is.** -/
theorem snap_eq_self (h : IsNearest (n / 10 ^ 8) x) (hn : n.natAbs < 2 ^ 51) : x.snap = x := by
  by_cases hzero : x.toRat = 0
  · obtain ⟨s, rfl⟩ := (toRat_eq_zero_iff h.isFinite).mp hzero
    exact snap_zero s
  · have hsnap := isNearest_snap h.isFinite hn (h.near_steps hn)
    exact (eq_of_toRat_eq h.isFinite hsnap.isFinite (h.toRat_unique hsnap) hzero).symm

/-- Up to 2^51 - 1 steps a number is put on the nearest number to a whole number of them. -/
theorem exists_steps_snap (hx : x.isFinite = true) (h : |x.toRat| * 10 ^ 8 ≤ 2 ^ 51 - 1) :
    ∃ n : Int, n.natAbs < 2 ^ 51 ∧ IsNearest (n / 10 ^ 8) x.snap := by
  have hproduct : |x.toRat * 10 ^ 8| ≤ 2 ^ 51 - 1 := by
    rwa [abs_mul, abs_of_pos (by norm_num : (0 : ℚ) < 10 ^ 8)]
  have hnear := (isRounding_scaled hx).isNearest
    (hproduct.trans_lt ((sub_one_lt _).trans (two_pow_lt_overflow (by omega))))
  have hend := representable_int (z := 2 ^ 51 - 1) (by decide)
  rw [Int.cast_sub, Int.cast_pow, Int.cast_ofNat, Int.cast_one] at hend
  obtain ⟨hlower, hupper⟩ := abs_le.mp (hnear.abs_toRat_le hend hproduct)
  have hsteps : (gridSteps x).natAbs < 2 ^ 51 := by
    have hfloor : -(2 ^ 51 - 1) ≤ gridSteps x := Int.le_floor.mpr (by push_cast; linarith)
    have hceil : gridSteps x < 2 ^ 51 := Int.floor_lt.mpr (by push_cast; linarith)
    omega
  exact ⟨gridSteps x, hsteps,
    (isRounding_snap hnear.isFinite).isNearest (abs_steps_lt_overflow hsteps)⟩

/-- **Snapping is accurate, and up to 2^51 - 1 steps it snaps nothing twice:** below the
overflow of the product it moves a number by half a step and 2^-51 of itself at most, and
within that range the result is the number nearest to a whole number of steps, which
snapping leaves as it is. -/
theorem snap_accurate_stable (x : Binary64) :
    ((x * gridScale).isFinite = true → x.snap.isFinite = true ∧
      |x.snap.toRat - x.toRat| ≤ 1 / 2 / 10 ^ 8 + |x.toRat| / 2 ^ 51) ∧
    (x.isFinite = true → |x.toRat| * 10 ^ 8 ≤ 2 ^ 51 - 1 →
      (∃ n : Int, IsNearest (n / 10 ^ 8) x.snap) ∧ x.snap.snap = x.snap) := by
  constructor
  · intro h
    exact ⟨(quotient_error h).1, snap_error h⟩
  · intro hx hrange
    obtain ⟨n, hn, hnear⟩ := exists_steps_snap hx hrange
    exact ⟨⟨n, hnear⟩, snap_eq_self hnear hn⟩

/-- A number near the end of the range, halfway between two grid points. -/
theorem snap_accurate_stable_far :
    ((-22517997.123456785 * gridScale : Binary64).isFinite = true ∧
      (snap (-22517997.123456785)).isFinite = true ∧
      |(snap (-22517997.123456785)).toRat - (-22517997.123456785 : Binary64).toRat|
        ≤ 1 / 2 / 10 ^ 8 + |(-22517997.123456785 : Binary64).toRat| / 2 ^ 51) ∧
    ((-22517997.123456785 : Binary64).isFinite = true ∧
      |(-22517997.123456785 : Binary64).toRat| * 10 ^ 8 ≤ 2 ^ 51 - 1 ∧
      (∃ n : Int, IsNearest (n / 10 ^ 8) (snap (-22517997.123456785))) ∧
      (snap (-22517997.123456785)).snap = snap (-22517997.123456785)) := by
  have hfinite : (-22517997.123456785 : Binary64).isFinite = true := by decide +kernel
  have hproduct : (-22517997.123456785 * gridScale : Binary64).isFinite = true := by
    decide +kernel
  have hrange : |(-22517997.123456785 : Binary64).toRat| * 10 ^ 8 ≤ 2 ^ 51 - 1 := by
    obtain ⟨hwhole, hvalue⟩ := whole_exact (c := 22517998) (by decide)
    have hle : numLe 22517997.123456785 22517998.0 = true := by decide +kernel
    have hpos : numLe (zero false) 22517997.123456785 = true := by decide +kernel
    have hfinite' : (22517997.123456785 : Binary64).isFinite = true := by decide +kernel
    have hle' := (numLe_iff hfinite' hwhole).mp hle
    rw [numLe_iff rfl hfinite', toRat_zero] at hpos
    rw [hvalue] at hle'
    rw [toRat_neg hfinite', abs_neg, abs_of_nonneg hpos]
    push_cast at hle'
    linarith
  obtain ⟨haccurate, hstable⟩ := snap_accurate_stable (-22517997.123456785)
  exact ⟨⟨hproduct, haccurate hproduct⟩, hfinite, hrange, hstable hfinite hrange⟩

end Planar.Binary64
