/-
A computed length is not below the components it was computed from.

A square that is rounded down is less than the true one, and its root is less than the
number that was squared.  The rounding of that root is not.  A number is at most 2^53
steps of its block, so the boundary below it, half a step away, is 2^-54 of it away or
more.  Rounding takes 2^-53 from the square at most, and so about 2^-54 from the root.
The two nearly meet, and a term of second order decides:

    (2 - 2^-53)^2 · (1 + 2^-53) < 4

(`sq_boundary_le`, where both sides are counted in whole units).  So the root of anything
that is at least the rounded square is past that boundary (`le_nearestRank_doubledRoot`).
All this is for squares in the normal range; below it a square is rounded by half a unit,
which can be much more than 2^-53 of it.

A sum of two squares, rounded, is at least each of them, because each of them is a number
of the format.  In the normal range, then, neither component is above the computed length
(`abs_le_sqrt_squaredLength`).
-/
import Planar.Proofs.Binary64.Exact
import Planar.Proofs.Binary64.Squares

namespace Planar

open Rank (units boundary scale significand)

/-! ### Boundaries -/

/-- The boundary below a magnitude is at least 2^-54 of it away. -/
theorem Rank.boundary_le (r : Nat) : 2 ^ 53 * boundary r ≤ (2 ^ 54 - 1) * units (r + 1) := by
  have hsteps : units (r + 1) ≤ 2 ^ 53 * 2 ^ scale r := by
    have hsucc : units (r + 1) = (significand r + 1) * 2 ^ scale r := by
      rw [units_succ, units_eq r]
      ring
    rw [hsucc]
    exact Nat.mul_le_mul_right _ (significand_lt r)
  have hnext := units_succ r
  unfold boundary
  omega

/-- In the normal range the boundary above a magnitude is at most 2^-53 of it away. -/
theorem Rank.boundary_le_of_normal {r : Nat} (hr : 2 ^ 52 ≤ r) :
    2 ^ 52 * boundary r ≤ (2 ^ 53 + 1) * units r := by
  have hsteps : 2 ^ 52 * 2 ^ scale r ≤ units r := by
    have hlong : 2 ^ 52 ≤ significand r := by
      have hblock := scale_eq_zero_or_le_significand r
      have hsplit := scale_add_significand r
      omega
    rw [units_eq r]
    exact Nat.mul_le_mul_right _ hlong
  have hnext := units_succ r
  unfold boundary
  omega

/-! ### The root of a rounded square -/

/-- Twice the root keeps clear of a boundary `b` below `w`, if the square of `w` is up to
2^-53 of the number. -/
theorem sq_boundary_le {b w n : Nat} (hb : 2 ^ 53 * b ≤ (2 ^ 54 - 1) * w)
    (hn : 2 ^ 53 * (w * w) ≤ (2 ^ 53 + 1) * n) (hw : 2 ^ 110 ≤ w) :
    (b + 1) * (b + 1) ≤ 4 * n := by
  have hroom : 2 ^ 53 * (b + 1) ≤ (2 ^ 54 - 1) * w + 2 ^ 53 := by omega
  have hsquare := Nat.mul_self_le_mul_self hroom
  have hlarge : 2 ^ 110 * w ≤ w * w := Nat.mul_le_mul_right w hw
  have hleft : 2 ^ 53 * (b + 1) * (2 ^ 53 * (b + 1)) = 2 ^ 106 * ((b + 1) * (b + 1)) := by ring
  have hright : ((2 ^ 54 - 1) * w + 2 ^ 53) * ((2 ^ 54 - 1) * w + 2 ^ 53)
      = (2 ^ 54 - 1) ^ 2 * (w * w) + 2 ^ 54 * (2 ^ 54 - 1) * w + 2 ^ 106 := by ring
  rw [hleft, hright] at hsquare
  omega

/-- **What is at least a rounded square has a root that is not rounded below the number
that was squared**, in the normal range. -/
theorem le_nearestRank_doubledRoot {a h : Nat} (hnormal : 2 ^ 52 ≤ h)
    (hsquare : nearestRank (units a * units a) unitsInOne ≤ h) :
    a ≤ nearestRank (doubledRoot (units h * unitsInOne)) 2 := by
  rcases le_or_gt (units a * units a) (units h * unitsInOne) with hle | hgt
  · -- The square was not rounded down: the root is not below the number to start with.
    have hroot : 2 * units a ≤ doubledRoot (units h * unitsInOne) := by
      refine le_doubledRoot ?_
      have hfour : 2 * units a * (2 * units a) = 4 * (units a * units a) := by ring
      omega
    have hmono : nearestRank (units a * 2) 2 ≤ nearestRank (doubledRoot (units h * unitsInOne)) 2 :=
      nearestRank_mono two_pos two_pos (by omega)
    rwa [nearestRank_units a two_pos] at hmono
  · have hwithin : 2 * (units a * units a) ≤ boundary h * unitsInOne := by
      have := (nearestRank_le_iff unitsInOne_pos h).mp hsquare
      unfold Within at this
      omega
    have hn : 2 ^ 53 * (units a * units a) ≤ (2 ^ 53 + 1) * (units h * unitsInOne) := by
      have hmul := Nat.mul_le_mul_right unitsInOne (Rank.boundary_le_of_normal hnormal)
      rw [Nat.mul_assoc, Nat.mul_assoc] at hmul
      omega
    have hlong : 2 ^ 110 ≤ units a := by
      by_contra hshort
      have hmul := Nat.mul_self_le_mul_self (not_le.mp hshort).le
      have hunit : 2 ^ 220 ≤ unitsInOne := le_unitsInOne (by omega)
      have hpos : unitsInOne ≤ units h * unitsInOne :=
        Nat.le_mul_of_pos_left _ ((Rank.units_pos_iff h).mpr (by omega))
      omega
    obtain ⟨r, rfl⟩ : ∃ r, a = r + 1 := by
      refine Nat.exists_eq_add_one.mpr ((Rank.units_pos_iff a).mp ?_)
      omega
    have hclear := le_doubledRoot (sq_boundary_le (Rank.boundary_le r) hn hlong)
    exact lt_nearestRank two_pos (by omega)

namespace Binary64

variable {x y : Binary64}

/-! ### Components and the length -/

theorem abs_toRat_finite (s : Bool) (r : Rank) : |(finite s r).toRat| = (finite false r).toRat := by
  rw [toRat_finite, toRat_finite, signFactor_false, one_mul, abs_mul, abs_signFactor, one_mul,
    abs_of_nonneg (div_nonneg (Nat.cast_nonneg _) unitsInOne_cast_pos.le)]

/-- Numbers without a sign are ordered as their ranks. -/
theorem toRat_unsigned_le_iff (a b : Rank) :
    (finite false a).toRat ≤ (finite false b).toRat ↔ a.val ≤ b.val := by
  have hlt : (finite false b).toRat < (finite false a).toRat ↔ (b.val : Int) < a.val :=
    toRat_lt_iff false false b a
  rw [← not_lt, hlt]
  omega

/-- The normal range begins at 2^-1022. -/
theorem leastNormal_le_iff (r : Rank) : 1 / 2 ^ 1022 ≤ (finite false r).toRat ↔ 2 ^ 52 ≤ r.val := by
  have hunits : units (0 * 2 ^ 52 + 2 ^ 52) = 2 ^ 52 * 2 ^ 0 :=
    Rank.units_block (Or.inl rfl) (by decide)
  have hvalue : (finite false ⟨2 ^ 52, by decide⟩).toRat = 1 / 2 ^ 1022 := by
    rw [Nat.zero_mul, Nat.zero_add, pow_zero, Nat.mul_one] at hunits
    rw [toRat_finite, signFactor_false, one_mul, hunits, Nat.cast_pow, Nat.cast_ofNat,
      ← one_mul ((2 : ℚ) ^ 52)]
    exact steps_eq_div 1 (by decide)
  rw [← hvalue, toRat_unsigned_le_iff]

/-- A number is not above the root of `h` if its rounded square is not above `h`, in the
normal range. -/
theorem abs_le_sqrt {h : Binary64} (hx : x.isFinite = true) (hsquare : (x * x).isFinite = true)
    (hh : h.isFinite = true) (hnormal : 1 / 2 ^ 1022 ≤ h.toRat)
    (hle : (x * x).toRat ≤ h.toRat) : |x.toRat| ≤ h.sqrt.toRat := by
  have hpos : 0 < h.toRat := (by positivity : (0 : ℚ) < 1 / 2 ^ 1022).trans_le hnormal
  have hroot := (sqrt_error hh hpos).1
  obtain ⟨s, a, rfl⟩ := exists_of_isFinite hx
  obtain ⟨r, hr, rfl⟩ := exists_of_pos hh hpos
  rw [mul_finite, Bool.xor_self] at hsquare hle
  rw [sqrt_finite hr] at hroot ⊢
  obtain ⟨q, hq, hqeq⟩ := ofUnits_eq_finite false unitsInOne_pos
    ((isFinite_ofUnits_iff false unitsInOne_pos).mp hsquare)
  obtain ⟨t, ht, hteq⟩ := ofUnits_eq_finite false two_pos
    ((isFinite_ofUnits_iff false two_pos).mp hroot)
  rw [hqeq, toRat_unsigned_le_iff, hq] at hle
  rw [hteq, abs_toRat_finite, toRat_unsigned_le_iff, ht]
  exact le_nearestRank_doubledRoot ((leastNormal_le_iff r).mp hnormal) hle

/-- Neither rounded square is above the rounded sum. -/
theorem square_le_squaredLength (hx : x.isFinite = true) (hy : y.isFinite = true)
    (h : (squaredLength x y).isFinite = true) :
    (x * x).toRat ≤ (squaredLength x y).toRat ∧ (y * y).toRat ≤ (squaredLength x y).toRat := by
  rw [squaredLength_eq] at *
  obtain ⟨hfx, hfy⟩ := isFinite_of_isFinite_add h
  obtain ⟨hx0, -⟩ := square_error hx hfx
  obtain ⟨hy0, -⟩ := square_error hy hfy
  have hround := (isRounding_add hfx hfy).1
  have hnear := hround.isNearest (hround.isFinite_iff.mp h)
  exact ⟨hnear.ge_of_ge (representable_toRat hfx) (by linarith),
    hnear.ge_of_ge (representable_toRat hfy) (by linarith)⟩

/-- **In the normal range neither component is above the computed length.** -/
theorem abs_le_sqrt_squaredLength (hx : x.isFinite = true) (hy : y.isFinite = true)
    (h : (squaredLength x y).isFinite = true) (hnormal : 1 / 2 ^ 1022 ≤ (squaredLength x y).toRat) :
    |x.toRat| ≤ (squaredLength x y).sqrt.toRat ∧ |y.toRat| ≤ (squaredLength x y).sqrt.toRat := by
  obtain ⟨hlex, hley⟩ := square_le_squaredLength hx hy h
  obtain ⟨hfx, hfy⟩ := isFinite_of_isFinite_add h
  exact ⟨abs_le_sqrt hx hfx h hnormal hlex, abs_le_sqrt hy hfy h hnormal hley⟩

end Binary64

end Planar
