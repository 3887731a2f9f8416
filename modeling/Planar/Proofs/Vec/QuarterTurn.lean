/-
Quarter turns on the grid.

The sine of the number nearest to a right angle is 1, but its cosine is not 0.  So a
quarter turn of a grid point, `(-y, x)`, comes with a rest: a coordinate of up to 10^6 times
a cosine of up to 10^-16.  That rest, the rounding of the sum and the distance of the old
coordinates from their grid points are together far less than a quarter of a step, and what
lies that near a grid point is put on it (`isNearest_snap`).

A vector is therefore described by the whole numbers of steps it stands for (`AtGrid`), and
a quarter turn acts on them as on whole numbers, `(n, m)` to `(-m, n)`, without an error that
could be carried on to the next turn (`AtGrid.rotateRadians`).  Turning without rounding
acts on them in the same way, and a vector is determined by its steps.  So by induction any
number of turns leaves what turning without rounding does.
-/
import Mathlib.Dynamics.PeriodicPts.Defs
import Planar.Proofs.Grid
import Planar.Proofs.Vec.Spelling

namespace Planar

open Binary64 (IsNearest IsRounding halfUnit unitRoundoff overflow)

namespace Binary64

variable {x s c z : Binary64} {n : Int}

/-! ### The terms of a turned coordinate -/

/-- A coordinate of up to 10^14 steps, and how far it is from them. -/
structure IsCoordinate (n : Int) (b : ℚ) : Prop where
  error : |b - n / 10 ^ 8| ≤ 1 / 10 ^ 9
  size : |b| ≤ 10 ^ 6 + 1

theorem IsNearest.isCoordinate (h : IsNearest (n / 10 ^ 8) x) (hn : n.natAbs ≤ 10 ^ 14) :
    IsCoordinate n x.toRat := by
  have hsize : |(n / 10 ^ 8 : ℚ)| ≤ 10 ^ 6 := by
    refine (abs_steps_le hn).trans_eq ?_
    norm_num
  have herror := error_of_abs_le (h.error (abs_steps_lt_overflow (by omega))) hsize
  have hreach := abs_sub_abs_le_abs_sub x.toRat (n / 10 ^ 8)
  have hunit := halfUnit_le
  unfold unitRoundoff at herror
  exact ⟨by linarith, by linarith⟩

/-- The product with 1 is the coordinate. -/
theorem mul_unit (hx : x.isFinite = true) (hs : s.isFinite = true) (hone : s.toRat = 1) :
    (x * s).isFinite = true ∧ (x * s).toRat = x.toRat := by
  have hround := isRounding_mul hx hs
  rw [hone, mul_one] at hround
  exact hround.exact (representable_toRat hx)

/-- The product with a cosine near 0 is the rest. -/
theorem mul_small (hx : x.isFinite = true) (hsize : |x.toRat| ≤ 10 ^ 6 + 1)
    (hc : c.isFinite = true) (hsmall : |c.toRat| ≤ 1 / 10 ^ 16) :
    (x * c).isFinite = true ∧ |(x * c).toRat| ≤ 2 / 10 ^ 10 := by
  have hround := isRounding_mul hx hc
  have hproduct : |x.toRat * c.toRat| ≤ (10 ^ 6 + 1) * (1 / 10 ^ 16) := by
    rw [abs_mul]
    exact mul_le_mul hsize hsmall (abs_nonneg _) (by norm_num)
  have hfinite : (x * c).isFinite = true := by
    rw [hround.isFinite_iff]
    have hover := one_lt_overflow
    linarith
  have herror := error_of_abs_le (hround.error hfinite) hproduct
  have hreach := abs_sub_abs_le_abs_sub (x * c).toRat (x.toRat * c.toRat)
  have hunit := halfUnit_le
  unfold unitRoundoff at herror
  exact ⟨hfinite, by linarith⟩

/-- A coordinate with a rest, rounded, is put on the grid point of the coordinate. -/
theorem IsCoordinate.snap_sum {a b : ℚ} (hb : IsCoordinate n b) (ha : |a| ≤ 2 / 10 ^ 10)
    (hround : IsRounding (b + a) z) (hn : n.natAbs ≤ 10 ^ 14) : IsNearest (n / 10 ^ 8) z.snap := by
  have hten : (0 : ℚ) < 10 ^ 8 := by norm_num
  obtain ⟨hnear, hsize⟩ := hb
  have hsum : |b + a| ≤ 10 ^ 6 + 2 := (abs_add_le b a).trans (by linarith)
  have hfinite : z.isFinite = true := by
    have hover : (2 : ℚ) ^ 20 < overflow := two_pow_lt_overflow (by omega)
    rw [hround.isFinite_iff]
    linarith
  have herror := error_of_abs_le (hround.error hfinite) hsum
  refine isNearest_snap hfinite (by omega) ?_
  have hdistance : |z.toRat - n / 10 ^ 8| ≤ |z.toRat - (b + a)| + |b - n / 10 ^ 8| + |a| := by
    have hsplit : z.toRat - n / 10 ^ 8 = z.toRat - (b + a) + (b - n / 10 ^ 8) + a := by ring
    rw [hsplit]
    exact abs_add_three _ _ _
  have hscale : z.toRat * 10 ^ 8 - n = (z.toRat - n / 10 ^ 8) * 10 ^ 8 := by
    rw [sub_mul, div_mul_cancel₀ _ hten.ne']
  have hunit := halfUnit_le
  unfold unitRoundoff at herror
  rw [hscale, abs_mul, abs_of_pos hten]
  linarith

/-! ### A right angle -/

/-- The sine and the cosine of a quarter turn, as good as they can be computed. -/
structure IsQuarterTurn (s c : Binary64) : Prop where
  sin_finite : s.isFinite = true
  sin_eq : s.toRat = 1
  cos_finite : c.isFinite = true
  cos_le : |c.toRat| ≤ 1 / 10 ^ 16

/-- The number nearest to a right angle is 6.1 · 10^-17 short of it. -/
theorem isQuarterTurn_ninety :
    IsQuarterTurn (90.0 * radiansPerDegree).sin (90.0 * radiansPerDegree).cos := by
  have hsin : (90.0 * radiansPerDegree).sin = 1.0 := by decide +kernel
  have hcos : (90.0 * radiansPerDegree).cos = finite false ⟨0x3c91a62633145c07, by decide⟩ := by
    decide +kernel
  have hunits : Rank.units 0x3c91a62633145c07 = 0x11a62633145c07 * 2 ^ 968 :=
    Rank.units_block (k := 968) (m := 0x11a62633145c07) (Or.inr (by decide)) (by decide)
  have hvalue : (finite false ⟨0x3c91a62633145c07, by decide⟩).toRat
      = 0x11a62633145c07 / 2 ^ 106 := by
    rw [toRat_finite, signFactor_false, one_mul, hunits, Nat.cast_mul, Nat.cast_pow]
    exact steps_eq_div _ (by decide)
  rw [hsin, hcos]
  refine ⟨one_exact.1, one_exact.2, rfl, ?_⟩
  rw [hvalue, abs_of_nonneg (by norm_num)]
  norm_num

end Binary64

/-! ### Runs of one edit -/

namespace Edit

/-- The edit, `k` times in a row. -/
def times (e : Edit Unit) : Nat → Edit Unit
  | 0 => pure ()
  | k + 1 => do
    e.times k
    e

theorem run_times {e : Edit Unit} {f : Vec → Vec} (h : ∀ v, e.run v = pure ((), f v)) (v : Vec)
    (k : Nat) : (e.times k).run v = pure ((), f^[k] v) := by
  induction k with
  | zero => rfl
  | succ k ih =>
      have hstep : (e.times (k + 1)).run v = (e.times k).run v >>= fun p => e.run p.2 := rfl
      rw [hstep, ih, pure_bind, h, Function.iterate_succ_apply']

end Edit

/-! ### Vectors on the grid -/

namespace Vec

open Binary64 (IsQuarterTurn radiansPerDegree)

variable {n m : Int} {v w : Vec}

/-- The vector after a quarter turn, unrounded. -/
def quarter (v : Vec) : Vec := ⟨-v.y, v.x⟩

/-- The vector stands for `n` and `m` steps of the grid. -/
structure AtGrid (n m : Int) (v : Vec) : Prop where
  n_le : n.natAbs ≤ 10 ^ 14
  m_le : m.natAbs ≤ 10 ^ 14
  x : IsNearest (n / 10 ^ 8) v.x
  y : IsNearest (m / 10 ^ 8) v.y

/-- Vectors that stand for the same steps are equal as vectors. -/
theorem AtGrid.equal (hv : AtGrid n m v) (hw : AtGrid n m w) : v.equal w = true := by
  have hx := (Binary64.numEq_iff hv.x.isFinite hw.x.isFinite).mpr (hv.x.toRat_unique hw.x)
  have hy := (Binary64.numEq_iff hv.y.isFinite hw.y.isFinite).mpr (hv.y.toRat_unique hw.y)
  unfold Vec.equal
  rw [hx, hy, Bool.and_true]

theorem isNearest_neg {x : Binary64} (h : IsNearest (m / 10 ^ 8) x) :
    IsNearest ((-m : Int) / 10 ^ 8) (-x) := by
  rw [Int.cast_neg, neg_div]
  exact h.neg

theorem AtGrid.quarter (h : AtGrid n m v) : AtGrid (-m) n v.quarter where
  n_le := by
    rw [Int.natAbs_neg]
    exact h.m_le
  m_le := h.n_le
  x := isNearest_neg h.y
  y := h.x

/-- **Turning by a right angle acts on the steps as an unrounded quarter turn does.** -/
theorem AtGrid.rotateRadians {angle : Binary64} (hangle : IsQuarterTurn angle.sin angle.cos)
    (h : AtGrid n m v) : AtGrid (-m) n (v.rotateRadians angle) := by
  obtain ⟨hs, hone, hc, hsmall⟩ := hangle
  have hquarter := h.quarter
  have hx := h.x.isCoordinate h.n_le
  have hy := h.y.isCoordinate h.m_le
  have hturned := hquarter.x.isCoordinate hquarter.n_le
  obtain ⟨hxs, hxsine⟩ := Binary64.mul_unit h.x.isFinite hs hone
  obtain ⟨hys, hysine⟩ := Binary64.mul_unit h.y.isFinite hs hone
  obtain ⟨hxc, hxrest⟩ := Binary64.mul_small h.x.isFinite hx.size hc hsmall
  obtain ⟨hyc, hyrest⟩ := Binary64.mul_small h.y.isFinite hy.size hc hsmall
  have hdifference := Binary64.isRounding_sub hxc hys
  have hsum := (Binary64.isRounding_add hxs hyc).1
  rw [hysine, sub_eq_neg_add, ← Binary64.toRat_neg h.y.isFinite] at hdifference
  rw [hxsine] at hsum
  have hnewx := hturned.snap_sum hxrest hdifference hquarter.n_le
  have hnewy := hx.snap_sum hyrest hsum h.n_le
  exact ⟨hquarter.n_le, hquarter.m_le, hnewx, hnewy⟩

/-- After any number of turns the rounded vector and the unrounded one stand for the same
steps. -/
theorem AtGrid.iterate {angle : Binary64} (hangle : IsQuarterTurn angle.sin angle.cos)
    (h : AtGrid n m v) (k : Nat) :
    ∃ i j, AtGrid i j ((fun w : Vec => w.rotateRadians angle)^[k] v) ∧
      AtGrid i j (Vec.quarter^[k] v) := by
  induction k with
  | zero => exact ⟨n, m, h, h⟩
  | succ k ih =>
      obtain ⟨i, j, hrounded, hexact⟩ := ih
      rw [Function.iterate_succ_apply', Function.iterate_succ_apply']
      exact ⟨-j, i, hrounded.rotateRadians hangle, hexact.quarter⟩

/-- Four quarter turns are a full one. -/
theorem isPeriodicPt_quarter (v : Vec) : Function.IsPeriodicPt Vec.quarter 4 v := by
  have hneg (x : Binary64) : - -x = x := by
    cases x with
    | nan => rfl
    | infinite s => exact congrArg Binary64.infinite (Bool.not_not s)
    | finite s r => exact congrArg (Binary64.finite · r) (Bool.not_not s)
  show (⟨- -v.x, - -v.y⟩ : Vec) = v
  rw [hneg, hneg]

/-- **Quarter turns are exact on the grid, and do not drift:** the vector of the numbers
nearest to whole numbers of steps is turned by 90 degrees to `(-y, x)`, and `k` turns in a
cell leave what `k mod 4` unrounded ones do. -/
theorem quarterTurns_exact (h : AtGrid n m v) :
    (v.rotateDegrees 90.0).equal ⟨-v.y, v.x⟩ = true ∧
    ∀ k, ∃ w, ((Edit.rotateDegrees 90.0).times k).run v = pure ((), w) ∧
      w.equal (Vec.quarter^[k % 4] v) = true := by
  have hninety := Binary64.isQuarterTurn_ninety
  refine ⟨(h.rotateRadians hninety).equal h.quarter, ?_⟩
  intro k
  obtain ⟨i, j, hrounded, hexact⟩ := h.iterate hninety k
  refine ⟨_, Edit.run_times (fun w => Edit.run_rotateRadians _ w) v k, ?_⟩
  rw [(isPeriodicPt_quarter v).iterate_mod_apply]
  exact hrounded.equal hexact

/-- A decimal of up to eight places stands for its steps. -/
theorem isNearest_decimal {c : Nat} (hc : c < 2 ^ 51) :
    IsNearest ((c : Int) / 10 ^ 8) (.ofDecimal false c (-8)) := by
  have hvalue : (c : ℚ) * 10 ^ (-8 : Int) = (c : Int) / 10 ^ 8 := by
    rw [zpow_neg, ← div_eq_mul_inv, Int.cast_natCast]
    rfl
  have hover := (le_abs_self _).trans_lt (Binary64.abs_steps_lt_overflow (n := c) (by omega))
  have hnear := Binary64.isNearest_ofDecimal false (hvalue.trans_lt hover)
  rwa [Binary64.signFactor_false, one_mul, hvalue] at hnear

/-- A vector of one step and of nearly 10^14 steps. -/
theorem quarterTurns_exact_long :
    AtGrid 1 (-99999999999999) ⟨0.00000001, -999999.99999999⟩ ∧
    (rotateDegrees ⟨0.00000001, -999999.99999999⟩ 90.0).equal
      ⟨- -999999.99999999, 0.00000001⟩ = true ∧
    ∀ k, ∃ w, ((Edit.rotateDegrees 90.0).times k).run ⟨0.00000001, -999999.99999999⟩
        = pure ((), w) ∧
      w.equal (Vec.quarter^[k % 4] ⟨0.00000001, -999999.99999999⟩) = true := by
  have hx : IsNearest ((1 : Int) / 10 ^ 8) 0.00000001 := isNearest_decimal (c := 1) (by omega)
  have hy : IsNearest ((-99999999999999 : Int) / 10 ^ 8) (-999999.99999999) :=
    isNearest_neg (isNearest_decimal (c := 99999999999999) (by omega))
  have hgrid : AtGrid 1 (-99999999999999) ⟨0.00000001, -999999.99999999⟩ :=
    ⟨by decide, by decide, hx, hy⟩
  exact ⟨hgrid, quarterTurns_exact hgrid⟩

end Vec

end Planar
