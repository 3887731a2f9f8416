/-
How far rounding moves a value.

Every operation on finite numbers is its exact result `q`, rounded once.  `IsRounding q x`
says so without naming the operation, and what is known of rounding is said of it: when
the result is finite, when it is zero, and how far it lies from `q`.

In a block of step 2^k units a ratio moves by at most half a step.  In the first block
that is half a unit.  In every other block a magnitude is at least 2^52 steps, so half a
step is at most 2^-53 of the result.  Both at once:

    |x - q| ≤ 2^-1075 + 2^-53 · |x|

The error is measured against the result and not against the exact value, because the
result is what the next operation starts from.  The first term is not there when `q` is
a whole number of units, as every sum is, and when `q` lies above the first block, as
every root does.
-/
import Planar.Proofs.Binary64.Arithmetic

namespace Planar

open Rank (units)

/-! ### Half a step -/

/-- Rounding to a whole number moves a ratio by at most one half. -/
theorem roundHalfEven_bounds {n d : Nat} (hd : 0 < d) :
    2 * n ≤ (2 * roundHalfEven n d + 1) * d ∧ 2 * roundHalfEven n d * d ≤ 2 * n + d := by
  have habove := (roundHalfEven_le_iff (n := n) hd _).mp (Nat.le_refl _)
  have hbelow := fun m => (roundHalfEven_le_iff (n := n) hd m).not
  generalize roundHalfEven n d = m at *
  refine ⟨by omega, ?_⟩
  cases m with
  | zero => omega
  | succ j =>
      have hpast := (hbelow j).mp (by omega)
      have hsplit : 2 * (j + 1) * d = (2 * j + 1) * d + d := by ring
      omega

/-- The rounded magnitude, counted in the steps of its block, and how far it lies from the
ratio. -/
theorem exists_steps_nearestRank {n d : Nat} (hd : 0 < d) :
    ∃ k m : Nat, (k = 0 ∨ 2 ^ 52 ≤ m) ∧ units (nearestRank n d) = m * 2 ^ k ∧
      |(units (nearestRank n d) : ℚ) - n / d| ≤ 2 ^ k / 2 := by
  obtain ⟨htop, hbottom⟩ := steps_bounds (n := n) hd
  have hD : 0 < d * 2 ^ ((n / d).log2 - 52) := Nat.mul_pos hd (Nat.two_pow_pos _)
  obtain ⟨hle, hge⟩ := roundHalfEven_bounds (n := n) hD
  rw [nearestRank_eq]
  generalize (n / d).log2 - 52 = k at *
  generalize roundHalfEven n (d * 2 ^ k) = m at *
  have hunits := Rank.units_block hbottom htop
  have hdq : (0 : ℚ) < d := by exact_mod_cast hd
  have hleq : (2 * n : ℚ) ≤ (2 * m + 1) * (d * 2 ^ k) := by exact_mod_cast hle
  have hgeq : (2 * m * (d * 2 ^ k) : ℚ) ≤ 2 * n + d * 2 ^ k := by exact_mod_cast hge
  refine ⟨k, m, hbottom, hunits, ?_⟩
  rw [hunits, abs_le]
  push_cast
  constructor
  · have hdiv : (n : ℚ) / d ≤ m * 2 ^ k + 2 ^ k / 2 := by
      rw [div_le_iff₀ hdq]
      linarith
    linarith
  · have hdiv : (m * 2 ^ k : ℚ) - 2 ^ k / 2 ≤ n / d := by
      rw [le_div_iff₀ hdq]
      linarith
    linarith

namespace Binary64

/-- The unit roundoff: half a step, relative to the least magnitude of a block. -/
def unitRoundoff : ℚ := 1 / 2 ^ 53

/-- Half the least positive number. -/
def halfUnit : ℚ := 1 / (2 * unitsInOne)

theorem halfUnit_pos : 0 < halfUnit := by
  have := unitsInOne_cast_pos
  unfold halfUnit
  positivity

theorem two_mul_halfUnit : 2 * halfUnit = 1 / unitsInOne := by
  have := unitsInOne_cast_pos
  unfold halfUnit
  field_simp

theorem halfUnit_eq : halfUnit = 1 / 2 / unitsInOne := by
  unfold halfUnit
  rw [div_div]

theorem halfUnit_le : halfUnit ≤ 1 / 2 ^ 100 := by
  have hle : (2 ^ 100 : ℚ) ≤ unitsInOne := by exact_mod_cast le_unitsInOne (by omega : 100 ≤ 1074)
  unfold halfUnit
  exact one_div_le_one_div_of_le (by positivity) (by linarith)

/-- No positive number is less than two half units. -/
theorem two_mul_halfUnit_le {x : Binary64} (hx : x.isFinite = true) (hpos : 0 < x.toRat) :
    2 * halfUnit ≤ x.toRat := by
  obtain ⟨s, r, rfl⟩ := exists_of_isFinite hx
  have hU := unitsInOne_cast_pos
  have hvalue : (finite s r).toRat = (signedUnits s r : Int) / unitsInOne := rfl
  rw [hvalue, div_pos_iff_of_pos_right hU] at hpos
  have hone : (1 : ℚ) ≤ (signedUnits s r : Int) := by exact_mod_cast hpos
  rw [hvalue, two_mul_halfUnit]
  exact div_le_div_of_nonneg_right hone hU.le

theorem unitRoundoff_pos : 0 < unitRoundoff := by
  unfold unitRoundoff
  positivity

/-- Half a step is at most 2^-53 of a magnitude of 2^52 steps or more. -/
theorem half_step_le (k : Nat) {m : Nat} (hm : 2 ^ 52 ≤ m) :
    (2 ^ k / 2 / unitsInOne : ℚ) ≤ unitRoundoff * ((m * 2 ^ k : Nat) / unitsInOne) := by
  have hstep : (0 : ℚ) < 2 ^ k := pow_pos (by norm_num) k
  have hmq : (2 ^ 52 : ℚ) ≤ m := by exact_mod_cast hm
  have hmul : (2 ^ 52 * 2 ^ k : ℚ) ≤ m * 2 ^ k := mul_le_mul_of_nonneg_right hmq hstep.le
  rw [← mul_div_assoc]
  refine div_le_div_of_nonneg_right ?_ unitsInOne_cast_pos.le
  unfold unitRoundoff
  push_cast
  linarith

/-! ### Exact results and their roundings -/

/-- `x` is the rational number `q`, rounded once. -/
def IsRounding (q : ℚ) (x : Binary64) : Prop :=
  ∃ (s : Bool) (n d : Nat), 0 < d ∧ q = signFactor s * (n / d / unitsInOne) ∧ x = ofUnits s n d

variable {q : ℚ} {x y : Binary64}

theorem signFactor_mul_self (s : Bool) : signFactor s * signFactor s = 1 := by
  cases s <;> simp [signFactor]

theorem signFactor_xor (s t : Bool) : signFactor (s ^^ t) = signFactor s * signFactor t := by
  cases s <;> cases t <;> simp [signFactor]

/-- A value is its magnitude with its sign. -/
theorem signFactor_mul_abs (q : ℚ) : signFactor (decide (q < 0)) * |q| = q := by
  by_cases hneg : q < 0
  · rw [decide_eq_true hneg, signFactor_true, abs_of_neg hneg]
    ring
  · rw [decide_eq_false hneg, signFactor_false, abs_of_nonneg (not_lt.mp hneg), one_mul]

theorem signFactor_mul_natAbs (z : Int) : signFactor (decide (z < 0)) * (z.natAbs : ℚ) = z := by
  have hsign : decide (z < 0) = decide ((z : ℚ) < 0) := decide_eq_decide.mpr Int.cast_lt_zero.symm
  rw [Nat.cast_natAbs, Int.cast_abs, hsign, signFactor_mul_abs]

/-- Every value has a rounding. -/
theorem exists_isRounding (q : ℚ) : ∃ x, IsRounding q x := by
  have hU := unitsInOne_cast_pos
  obtain ⟨n, d, hd, hratio⟩ := exists_ratio (mul_nonneg (abs_nonneg q) hU.le)
  refine ⟨ofUnits (decide (q < 0)) n d, decide (q < 0), n, d, hd, ?_, rfl⟩
  rw [← hratio, mul_div_cancel_right₀ _ hU.ne', signFactor_mul_abs]

theorem abs_ratio (s : Bool) (n d : Nat) :
    |signFactor s * ((n : ℚ) / d / unitsInOne)| = n / d / unitsInOne := by
  rw [abs_mul, abs_signFactor, one_mul, abs_of_nonneg (by positivity)]

/-- A rounding is finite below the overflow. -/
theorem IsRounding.isFinite_iff (h : IsRounding q x) : x.isFinite = true ↔ |q| < overflow := by
  obtain ⟨s, n, d, hd, rfl, rfl⟩ := h
  have hU := unitsInOne_cast_pos
  have hdq : (0 : ℚ) < d := by exact_mod_cast hd
  rw [isFinite_ofUnits_iff s hd, abs_ratio, div_lt_iff₀ hU, ← overflowUnits_eq, div_lt_iff₀ hdq]
  exact_mod_cast Iff.rfl

/-- A number is its own rounding. -/
theorem isRounding_self (hx : x.isFinite = true) : IsRounding x.toRat x := by
  obtain ⟨s, r, rfl⟩ := exists_of_isFinite hx
  refine ⟨s, units r, 1, Nat.one_pos, ?_, (ofUnits_units_one s r).symm⟩
  rw [toRat_finite, Nat.cast_one, div_one]

theorem abs_toRat_lt_overflow (hx : x.isFinite = true) : |x.toRat| < overflow :=
  (isRounding_self hx).isFinite_iff.mp hx

/-- A finite rounding by its rank, and the exact result's magnitude in units. -/
theorem IsRounding.exists_rank (h : IsRounding q x) (hx : x.isFinite = true) :
    ∃ (s : Bool) (n d : Nat) (r : Rank), 0 < d ∧ q = signFactor s * (n / d / unitsInOne) ∧
      r.val = nearestRank n d ∧ x = finite s r := by
  obtain ⟨s, n, d, hd, rfl, rfl⟩ := h
  obtain ⟨r, hr, heq⟩ := ofUnits_eq_finite s hd ((isFinite_ofUnits_iff s hd).mp hx)
  exact ⟨s, n, d, r, hd, rfl, hr, heq⟩

/-- Up to half a unit, and no further, results are rounded to zero. -/
theorem IsRounding.eq_zero_iff (h : IsRounding q x) :
    (∃ s, x = zero s) ↔ |q| ≤ halfUnit := by
  obtain ⟨s, n, d, hd, rfl, rfl⟩ := h
  have hU := unitsInOne_cast_pos
  have hdq : (0 : ℚ) < d := by exact_mod_cast hd
  have hrank : nearestRank n d = 0 ↔ 2 * n ≤ d := by
    rw [← Nat.le_zero, nearestRank_le_iff hd, Within, Rank.boundary_zero]
    omega
  have hzero : (∃ t, ofUnits s n d = zero t) ↔ nearestRank n d = 0 := by
    unfold ofUnits ofRank zero
    split
    · simp
    · simp
      omega
  have hhalf : (n : ℚ) / d / unitsInOne ≤ halfUnit ↔ 2 * n ≤ d := by
    unfold halfUnit
    rw [div_le_iff₀ hU, div_le_iff₀ hdq, ← Nat.cast_le (α := ℚ)]
    have : 1 / (2 * (unitsInOne : ℚ)) * unitsInOne = 1 / 2 := by field_simp
    rw [this]
    push_cast
    constructor <;> intro h <;> linarith
  rw [hzero, hrank, abs_ratio, hhalf]

/-! ### The error of one rounding -/

/-- The steps of the result's block: how many make up the result, and the error of half a
step. -/
theorem IsRounding.exists_steps (h : IsRounding q x) (hx : x.isFinite = true) :
    ∃ k m : Nat, (k = 0 ∨ 2 ^ 52 ≤ m) ∧ |x.toRat| = (m * 2 ^ k : Nat) / unitsInOne ∧
      |x.toRat - q| ≤ 2 ^ k / 2 / unitsInOne := by
  obtain ⟨s, n, d, r, hd, rfl, hr, rfl⟩ := h.exists_rank hx
  obtain ⟨k, m, hkm, hunits, herror⟩ := exists_steps_nearestRank (n := n) hd
  have hU := unitsInOne_cast_pos
  rw [← hr] at hunits herror
  refine ⟨k, m, hkm, ?_, ?_⟩
  · rw [toRat_finite, abs_mul, abs_signFactor, one_mul, hunits,
      abs_of_nonneg (div_nonneg (Nat.cast_nonneg _) hU.le)]
  · rw [abs_toRat_sub, abs_sub_of_sign]
    exact div_le_div_of_nonneg_right herror hU.le

/-- **A rounding is off by at most half a unit and 2^-53 of itself.** -/
theorem IsRounding.error (h : IsRounding q x) (hx : x.isFinite = true) :
    |x.toRat - q| ≤ halfUnit + unitRoundoff * |x.toRat| := by
  obtain ⟨k, m, hkm, hsize, herror⟩ := h.exists_steps hx
  have hU := unitsInOne_cast_pos
  rcases hkm with rfl | hm
  · have hnonneg : 0 ≤ unitRoundoff * |x.toRat| :=
      mul_nonneg unitRoundoff_pos.le (abs_nonneg _)
    rw [pow_zero, ← halfUnit_eq] at herror
    linarith
  · have hrelative := half_step_le k hm
    rw [← hsize] at hrelative
    linarith [halfUnit_pos]

/-- The error of a rounding, by a bound of the exact result. -/
theorem error_of_abs_le {p q bound : ℚ} (h : |p - q| ≤ halfUnit + unitRoundoff * |p|)
    (hq : |q| ≤ bound) : |p - q| ≤ 2 * (halfUnit + unitRoundoff * bound) := by
  have hreach := abs_sub_abs_le_abs_sub p q
  have hunit := halfUnit_pos
  unfold unitRoundoff at *
  linarith [abs_nonneg q]

/-- Past the first block the error is relative to the result alone. -/
theorem IsRounding.error_of_large (h : IsRounding q x) (hx : x.isFinite = true)
    (hq : 2 ^ 52 / unitsInOne ≤ |q|) : |x.toRat - q| ≤ unitRoundoff * |x.toRat| := by
  obtain ⟨k, m, hkm, hsize, herror⟩ := h.exists_steps hx
  have hU := unitsInOne_cast_pos
  have hm : 2 ^ 52 ≤ m := by
    rcases hkm with rfl | hm
    · -- In the first block a result of fewer steps would be a whole step away.
      have hdist : |q| - |x.toRat| ≤ 1 / 2 / unitsInOne := by
        have := abs_sub_abs_le_abs_sub q x.toRat
        rw [abs_sub_comm q] at this
        rw [pow_zero] at herror
        exact this.trans herror
      rw [hsize, pow_zero, Nat.mul_one] at hdist
      have hunits : (2 : ℚ) ^ 52 - m ≤ 1 / 2 := by
        rw [← div_le_div_iff_of_pos_right hU, sub_div]
        linarith
      have hlt : (2 ^ 52 : ℚ) < m + 1 := by linarith
      have : 2 ^ 52 < m + 1 := by exact_mod_cast hlt
      omega
    · exact hm
  rw [hsize]
  exact herror.trans (half_step_le k hm)

/-- A whole number of units is rounded in the first block to itself, and past it with an
error relative to the result. -/
theorem IsRounding.error_of_whole (h : IsRounding q x) (hx : x.isFinite = true) {z : Int}
    (hq : q = z / unitsInOne) : |x.toRat - q| ≤ unitRoundoff * |x.toRat| := by
  obtain ⟨k, m, hkm, hsize, herror⟩ := h.exists_steps hx
  have hU := unitsInOne_cast_pos
  rcases hkm with rfl | hm
  · obtain ⟨s, r, rfl⟩ := exists_of_isFinite hx
    have hdiff : (finite s r).toRat - q = (signedUnits s r - z : Int) / unitsInOne := by
      rw [hq, Int.cast_sub, sub_div]
      rfl
    have hlt : |(signedUnits s r - z : Int)| < 1 := by
      rw [hdiff, abs_div, abs_of_pos hU, div_le_div_iff_of_pos_right hU, pow_zero] at herror
      have : |((signedUnits s r - z : Int) : ℚ)| < 1 := by linarith
      exact_mod_cast this
    rw [hdiff, Int.abs_lt_one_iff.mp hlt, Int.cast_zero, zero_div, abs_zero]
    exact mul_nonneg unitRoundoff_pos.le (abs_nonneg _)
  · rw [hsize]
    exact herror.trans (half_step_le k hm)

/-- The error of a square, from the error of what is squared. -/
theorem abs_sq_sub_sq_le {p z e : ℚ} (h : |p - z| ≤ e) :
    |p ^ 2 - z ^ 2| ≤ e * (2 * |p| + e) := by
  have hsum : |p + z| ≤ 2 * |p| + e := by
    have hsplit : p + z = 2 * p - (p - z) := by ring
    calc |p + z| ≤ |2 * p| + |p - z| := by
          rw [hsplit]
          exact abs_sub _ _
      _ ≤ 2 * |p| + e := by
          rw [abs_mul, abs_two]
          linarith
  have hfactor : p ^ 2 - z ^ 2 = (p - z) * (p + z) := by ring
  rw [hfactor, abs_mul]
  exact mul_le_mul h hsum (abs_nonneg _) ((abs_nonneg _).trans h)

/-! ### The operations -/

theorem isRounding_mul (hx : x.isFinite = true) (hy : y.isFinite = true) :
    IsRounding (x.toRat * y.toRat) (x * y) := by
  obtain ⟨s, a, rfl⟩ := exists_of_isFinite hx
  obtain ⟨t, b, rfl⟩ := exists_of_isFinite hy
  refine ⟨s ^^ t, units a * units b, unitsInOne, unitsInOne_pos, ?_, mul_finite s t a b⟩
  rw [toRat_finite, toRat_finite, signFactor_xor]
  push_cast
  ring

/-- From the overflow on a product is the infinity of its sign. -/
theorem mul_of_overflow (hx : x.isFinite = true) (hy : y.isFinite = true)
    (h : overflow ≤ |x.toRat * y.toRat|) : x * y = infinite (x.isNegative ^^ y.isNegative) := by
  have hnot := (isRounding_mul hx hy).isFinite_iff.not.mpr (not_lt.mpr h)
  obtain ⟨s, a, rfl⟩ := exists_of_isFinite hx
  obtain ⟨t, b, rfl⟩ := exists_of_isFinite hy
  rw [mul_finite, isFinite_ofUnits_iff _ unitsInOne_pos] at hnot
  rw [mul_finite]
  exact ofUnits_of_overflow _ unitsInOne_pos (not_lt.mp hnot)

theorem isRounding_div (hx : x.isFinite = true) (hy : y.isFinite = true) (hne : y.toRat ≠ 0) :
    IsRounding (x.toRat / y.toRat) (x / y) := by
  obtain ⟨s, a, rfl⟩ := exists_of_isFinite hx
  obtain ⟨t, b, rfl⟩ := exists_of_isFinite hy
  have hU := unitsInOne_cast_pos
  have hb : b.val ≠ 0 := (toRat_finite_eq_zero_iff t b).not.mp hne
  have hpos : 0 < units b := (Rank.units_pos_iff b).mpr (Nat.pos_of_ne_zero hb)
  refine ⟨s ^^ t, units a * unitsInOne, units b, hpos, ?_, ?_⟩
  · have hsign : signFactor t ≠ 0 := by
      intro hzero
      have := signFactor_mul_self t
      rw [hzero, mul_zero] at this
      exact zero_ne_one this
    have hinv : signFactor t = (signFactor t)⁻¹ :=
      eq_inv_of_mul_eq_one_left (signFactor_mul_self t)
    have hbq : (units b : ℚ) ≠ 0 := by exact_mod_cast hpos.ne'
    rw [toRat_finite, toRat_finite, signFactor_xor]
    push_cast
    field_simp
    rw [pow_two, signFactor_mul_self, mul_one]
  · show (if b.val = 0 then _ else _) = _
    rw [if_neg hb]

/-- The exact sum is a whole number of units. -/
theorem isRounding_add (hx : x.isFinite = true) (hy : y.isFinite = true) :
    IsRounding (x.toRat + y.toRat) (x + y) ∧ ∃ z : Int, x.toRat + y.toRat = z / unitsInOne := by
  obtain ⟨s, a, rfl⟩ := exists_of_isFinite hx
  obtain ⟨t, b, rfl⟩ := exists_of_isFinite hy
  have hexact : (finite s a).toRat + (finite t b).toRat
      = (signedUnits s a + signedUnits t b : Int) / unitsInOne := by
    rw [Int.cast_add, add_div]
    rfl
  refine ⟨?_, _, hexact⟩
  rw [hexact, add_finite]
  generalize signedUnits s a + signedUnits t b = sum
  by_cases hzero : sum = 0
  · refine ⟨s && t, 0, 1, Nat.one_pos, ?_, ?_⟩
    · simp [hzero]
    · rw [if_pos hzero, ofUnits_of_small _ (by omega)]
  · refine ⟨decide (sum < 0), sum.natAbs, 1, Nat.one_pos, ?_, if_neg hzero⟩
    rw [Nat.cast_one, div_one, ← mul_div_assoc, signFactor_mul_natAbs]

theorem isFinite_neg (hx : x.isFinite = true) : (-x).isFinite = true := by
  obtain ⟨s, r, rfl⟩ := exists_of_isFinite hx
  rfl

theorem toRat_neg (hx : x.isFinite = true) : (-x).toRat = -x.toRat := by
  obtain ⟨s, r, rfl⟩ := exists_of_isFinite hx
  show (finite (!s) r).toRat = _
  rw [toRat_finite, toRat_finite]
  cases s <;> simp [signFactor]

theorem isRounding_sub (hx : x.isFinite = true) (hy : y.isFinite = true) :
    IsRounding (x.toRat - y.toRat) (x - y) := by
  have hround := (isRounding_add hx (isFinite_neg hy)).1
  rwa [toRat_neg hy, ← sub_eq_add_neg] at hround

end Binary64

end Planar
