/-
The square of a computed root.

`floorRoot` finds the root bit by bit, two bits of the number for each bit of the root,
and what it finds is the root rounded down (`floorRoot_bounds`).  For `n` units times
2^1074 that root `r` has more than 500 bits, so replacing the true root by `r + 1/2`
changes the square by at most `r`, which is nothing beside the square itself; and a
number of that many units lies above the first block, so rounding it is off by 2^-53 of
the result and no more.  Squared, that is twice as much.

Rational numbers have no roots in general, so the statement is about the square of the
computed root and not about its distance from a true one (`sqrt_error`).
-/
import Planar.Proofs.Binary64.Error

namespace Planar

open Rank (units)

/-! ### The root rounded down -/

theorem rootBelow_bounds (bits : Nat) :
    ∀ n < 4 ^ bits, rootBelow bits n * rootBelow bits n ≤ n ∧
      n < (rootBelow bits n + 1) * (rootBelow bits n + 1) := by
  induction bits with
  | zero =>
      intro n hn
      have hzero : n = 0 := by
        rw [pow_zero] at hn
        omega
      simp [hzero, rootBelow]
  | succ bits ih =>
      intro n hn
      have hquarter : n / 4 < 4 ^ bits := by
        rw [pow_succ] at hn
        omega
      obtain ⟨hle, hlt⟩ := ih (n / 4) hquarter
      unfold rootBelow
      dsimp only
      generalize rootBelow bits (n / 4) = r at *
      -- Doubling the root of a quarter is right up to the last bit.
      have hlow : 2 * r * (2 * r) ≤ n := by
        have : 2 * r * (2 * r) = 4 * (r * r) := by ring
        omega
      have hhigh : n < (2 * r + 1 + 1) * (2 * r + 1 + 1) := by
        have : (2 * r + 1 + 1) * (2 * r + 1 + 1) = 4 * ((r + 1) * (r + 1)) := by ring
        omega
      split
      · next hbit => exact ⟨hbit, hhigh⟩
      · next hbit => exact ⟨hlow, Nat.lt_of_not_le hbit⟩

theorem floorRoot_bounds (n : Nat) :
    floorRoot n * floorRoot n ≤ n ∧ n < (floorRoot n + 1) * (floorRoot n + 1) := by
  refine rootBelow_bounds _ n ?_
  calc n < 2 ^ (n.log2 + 1) := Nat.lt_log2_self
    _ ≤ 2 ^ (2 * (n.log2 / 2 + 1)) := Nat.pow_le_pow_right (by omega) (by omega)
    _ = 4 ^ (n.log2 / 2 + 1) := Nat.pow_mul 2 2 _

/-- Twice the number that is rounded in place of the root of `n`. -/
def doubledRoot (n : Nat) : Nat :=
  if floorRoot n * floorRoot n = n then 2 * floorRoot n else 2 * floorRoot n + 1

/-- Its square is that of twice the root, up to four times the root. -/
theorem doubledRoot_bounds (n : Nat) :
    doubledRoot n * doubledRoot n ≤ 4 * n + 4 * floorRoot n ∧
      4 * n ≤ doubledRoot n * doubledRoot n + 4 * floorRoot n := by
  obtain ⟨hle, hlt⟩ := floorRoot_bounds n
  unfold doubledRoot
  generalize floorRoot n = r at *
  have hsucc : (r + 1) * (r + 1) = r * r + 2 * r + 1 := by ring
  have heven : 2 * r * (2 * r) = 4 * (r * r) := by ring
  have hodd : (2 * r + 1) * (2 * r + 1) = 4 * (r * r) + 4 * r + 1 := by ring
  split <;> omega

/-- What squares to no more than twice the root does is not above it. -/
theorem le_doubledRoot {b n : Nat} (h : b * b ≤ 4 * n) : b ≤ doubledRoot n := by
  obtain ⟨-, hlt⟩ := floorRoot_bounds n
  unfold doubledRoot
  generalize floorRoot n = r at *
  by_contra hgt
  split at hgt
  · next hsquare =>
    have hmul : (2 * r + 1) * (2 * r + 1) ≤ b * b := Nat.mul_self_le_mul_self (by omega)
    have hexpand : (2 * r + 1) * (2 * r + 1) = 4 * (r * r) + 4 * r + 1 := by ring
    omega
  · have hmul : (2 * r + 2) * (2 * r + 2) ≤ b * b := Nat.mul_self_le_mul_self (by omega)
    have hexpand : (2 * r + 2) * (2 * r + 2) = 4 * ((r + 1) * (r + 1)) := by ring
    omega

/-- The root of a number of more than 120 bits has more than 60. -/
theorem le_floorRoot {n : Nat} (hn : 2 ^ 120 ≤ n) : 2 ^ 60 ≤ floorRoot n := by
  obtain ⟨-, hlt⟩ := floorRoot_bounds n
  by_contra hshort
  have hmul : (floorRoot n + 1) * (floorRoot n + 1) ≤ 2 ^ 60 * 2 ^ 60 :=
    Nat.mul_le_mul (by omega) (by omega)
  omega

/-- For such a number the square is off by 2^-60 of itself at most. -/
theorem doubledRoot_error {n : Nat} (hn : 2 ^ 120 ≤ n) :
    |((doubledRoot n : ℚ) / 2) ^ 2 - n| ≤ (n : ℚ) / 2 ^ 60 := by
  obtain ⟨hup, hdown⟩ := doubledRoot_bounds n
  have hsmall : 2 ^ 60 * floorRoot n ≤ n :=
    (Nat.mul_le_mul_right _ (le_floorRoot hn)).trans (floorRoot_bounds n).1
  have hupq : (doubledRoot n * doubledRoot n : ℚ) ≤ 4 * n + 4 * floorRoot n := by
    exact_mod_cast hup
  have hdownq : (4 * n : ℚ) ≤ doubledRoot n * doubledRoot n + 4 * floorRoot n := by
    exact_mod_cast hdown
  have hsmallq : (2 ^ 60 * floorRoot n : ℚ) ≤ n := by exact_mod_cast hsmall
  rw [div_pow, pow_two, abs_le]
  constructor <;> linarith

namespace Binary64

variable {x : Binary64}

/-! ### The square root of a number -/

theorem sqrt_finite {r : Rank} (hr : r.val ≠ 0) :
    (finite false r).sqrt = ofUnits false (doubledRoot (units r * unitsInOne)) 2 := by
  unfold sqrt doubledRoot
  dsimp only
  rw [if_neg hr, if_neg Bool.false_ne_true]

/-- A positive number has no sign, and its rank is not 0. -/
theorem exists_of_pos (hx : x.isFinite = true) (hpos : 0 < x.toRat) :
    ∃ r : Rank, r.val ≠ 0 ∧ x = finite false r := by
  obtain ⟨s, r, rfl⟩ := exists_of_isFinite hx
  have hr : r.val ≠ 0 := (toRat_finite_eq_zero_iff s r).not.mp hpos.ne'
  cases s with
  | false => exact ⟨r, hr, rfl⟩
  | true =>
      have hnonneg : (0 : ℚ) ≤ units r / unitsInOne :=
        div_nonneg (Nat.cast_nonneg _) unitsInOne_cast_pos.le
      rw [toRat_finite, signFactor_true] at hpos
      linarith

/-- The root of a positive number is the rounding of a number whose square is off by
2^-60 of itself at most. -/
theorem exists_isRounding_sqrt (hx : x.isFinite = true) (hpos : 0 < x.toRat) :
    ∃ z : ℚ, IsRounding z x.sqrt ∧ 2 ^ 52 / unitsInOne ≤ z ∧
      |z ^ 2 - x.toRat| ≤ x.toRat / 2 ^ 60 := by
  obtain ⟨r, hr, rfl⟩ := exists_of_pos hx hpos
  have hU := unitsInOne_cast_pos
  have hunits : 0 < units r := (Rank.units_pos_iff r).mpr (Nat.pos_of_ne_zero hr)
  have hlarge : 2 ^ 120 ≤ units r * unitsInOne :=
    (le_unitsInOne (by omega)).trans (Nat.le_mul_of_pos_left _ hunits)
  have herror := doubledRoot_error hlarge
  have hroot : 2 ^ 60 * 2 ≤ doubledRoot (units r * unitsInOne) := by
    have := le_floorRoot hlarge
    unfold doubledRoot
    split <;> omega
  have hvalue : (finite false r).toRat = (units r * unitsInOne : Nat) / unitsInOne ^ 2 := by
    rw [toRat_finite, signFactor_false, one_mul]
    push_cast
    field_simp
  rw [sqrt_finite hr, hvalue]
  generalize units r * unitsInOne = n at *
  refine ⟨(doubledRoot n : ℚ) / 2 / unitsInOne, ?_, ?_, ?_⟩
  · refine ⟨false, doubledRoot n, 2, by omega, ?_, rfl⟩
    rw [signFactor_false, one_mul, Nat.cast_ofNat]
  · have hrootq : (2 ^ 60 * 2 : ℚ) ≤ doubledRoot n := by exact_mod_cast hroot
    refine div_le_div_of_nonneg_right ?_ hU.le
    linarith
  · rw [div_pow _ (unitsInOne : ℚ), ← sub_div, abs_div, abs_of_pos (pow_pos hU 2), div_right_comm]
    exact div_le_div_of_nonneg_right herror (pow_pos hU 2).le

theorem two_lt_overflow : 2 < overflow := by
  rw [← pow_one (2 : ℚ)]
  exact two_pow_lt_overflow (by omega)

/-- What squares to at most twice a value below the overflow is below it too. -/
theorem lt_overflow_of_sq_le {z w : ℚ} (hw : w < overflow) (h : z ^ 2 ≤ 2 * w) : z < overflow := by
  by_contra hge
  have htwo := two_lt_overflow.le
  have hmul : overflow * overflow ≤ z * z := by
    have := not_lt.mp hge
    exact mul_le_mul this this (by linarith) (by linarith)
  have htwice : 2 * overflow ≤ overflow * overflow := mul_le_mul_of_nonneg_right htwo (by linarith)
  linarith

/-- **The square of the computed root differs from the number by at most 3 · 2^-53 of it.** -/
theorem sqrt_error (hx : x.isFinite = true) (hpos : 0 < x.toRat) :
    x.sqrt.isFinite = true ∧ 0 < x.sqrt.toRat ∧
      |x.sqrt.toRat ^ 2 - x.toRat| ≤ 3 * unitRoundoff * x.toRat := by
  obtain ⟨z, hround, hlarge, hz⟩ := exists_isRounding_sqrt hx hpos
  have hzpos : 0 < z := (div_pos (by norm_num) unitsInOne_cast_pos).trans_le hlarge
  have hfinite : x.sqrt.isFinite = true := by
    rw [hround.isFinite_iff, abs_of_pos hzpos]
    refine lt_overflow_of_sq_le ((le_abs_self _).trans_lt (abs_toRat_lt_overflow hx)) ?_
    have := (abs_le.mp hz).2
    linarith
  have herror := hround.error_of_large hfinite (hlarge.trans (le_abs_self _))
  have hsquare := abs_sq_sub_sq_le herror
  generalize x.sqrt.toRat = root at *
  have hrootpos : 0 < root := by
    by_contra hneg
    rw [abs_of_nonpos (not_lt.mp hneg)] at herror
    unfold unitRoundoff at herror
    have := (abs_le.mp herror).1
    linarith
  refine ⟨hfinite, hrootpos, ?_⟩
  rw [abs_of_pos hrootpos] at hsquare
  have hlinear : unitRoundoff * root * (2 * root + unitRoundoff * root)
      = unitRoundoff * (2 + unitRoundoff) * root ^ 2 := by ring
  rw [hlinear] at hsquare
  unfold unitRoundoff at *
  obtain ⟨h1, h2⟩ := abs_le.mp hsquare
  obtain ⟨h3, h4⟩ := abs_le.mp hz
  rw [abs_le]
  constructor <;> linarith

end Binary64

end Planar
