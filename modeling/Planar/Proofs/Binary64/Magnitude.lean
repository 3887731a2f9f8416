/-
The sequence of magnitudes.

A rank is `k` blocks of 2^52 and `m` steps more.  Below the top of the block the
magnitude is then `m · 2^k` units, and at its top, `m = 2^53`, it still is: the
first rank of the next block is reached with the old step or the new one.  So each
rank lies one step of its own block below the next (`units_succ`), the sequence
increases (`units_strictMono`), and two ranks are compared by comparing
magnitudes.

The place where a value changes its rounding is halfway between two neighbours.
`boundary r` is twice that place, which keeps it whole.
-/
import Mathlib.Order.Monotone.Basic
import Mathlib.Tactic.Ring
import Planar.Binary64.Rounding

namespace Planar

theorem unitsInOne_eq : unitsInOne = 2 ^ 1074 := by
  unfold unitsInOne
  generalize 1074 = n
  exact Nat.one_shiftLeft n

theorem unitsInOne_pos : 0 < unitsInOne := by
  unfold unitsInOne
  generalize 1074 = n
  rw [Nat.one_shiftLeft]
  exact Nat.two_pow_pos n

theorem le_unitsInOne {k : Nat} (hk : k ≤ 1074) : 2 ^ k ≤ unitsInOne := by
  unfold unitsInOne
  generalize 1074 = e at *
  rw [Nat.one_shiftLeft]
  exact Nat.pow_le_pow_right (by omega) hk

namespace Rank

theorem scale_eq (r : Nat) : scale r = r / 2 ^ 52 - 1 := by
  unfold scale
  rw [Nat.shiftRight_eq_div_pow]

theorem significand_eq (r : Nat) : significand r = r - scale r * 2 ^ 52 := by
  unfold significand
  rw [Nat.shiftLeft_eq]

theorem units_eq (r : Nat) : units r = significand r * 2 ^ scale r := by
  unfold units
  rw [Nat.shiftLeft_eq]

/-! ### A rank by its block and its step -/

/-- A rank is the blocks below it and its significand. -/
theorem scale_add_significand (r : Nat) : scale r * 2 ^ 52 + significand r = r := by
  rw [significand_eq, scale_eq]
  omega

theorem significand_lt (r : Nat) : significand r < 2 ^ 53 := by
  rw [significand_eq, scale_eq]
  omega

/-- Only in the first block is a significand short. -/
theorem scale_eq_zero_or_le_significand (r : Nat) : scale r = 0 ∨ 2 ^ 52 ≤ significand r := by
  rw [significand_eq, scale_eq]
  omega

/-- The magnitude at step `m` after `k` blocks, up to the next block's first rank. -/
theorem units_block {k m : Nat} (hk : k = 0 ∨ 2 ^ 52 ≤ m) (hm : m ≤ 2 ^ 53) :
    units (k * 2 ^ 52 + m) = m * 2 ^ k := by
  rcases Nat.lt_or_eq_of_le hm with hlt | rfl
  · have hscale : scale (k * 2 ^ 52 + m) = k := by
      rw [scale_eq]
      omega
    have hsig : significand (k * 2 ^ 52 + m) = m := by
      rw [significand_eq, hscale]
      omega
    rw [units_eq, hscale, hsig]
  · have hscale : scale (k * 2 ^ 52 + 2 ^ 53) = k + 1 := by
      rw [scale_eq]
      omega
    have hsig : significand (k * 2 ^ 52 + 2 ^ 53) = 2 ^ 52 := by
      rw [significand_eq, hscale]
      omega
    rw [units_eq, hscale, hsig]
    ring

/-- The next magnitude is one step of the block away. -/
theorem units_succ (r : Nat) : units (r + 1) = units r + 2 ^ scale r := by
  have hblock := scale_eq_zero_or_le_significand r
  have hlt := significand_lt r
  have hsucc : r + 1 = scale r * 2 ^ 52 + (significand r + 1) := by
    have := scale_add_significand r
    omega
  have hnext : units (r + 1) = (significand r + 1) * 2 ^ scale r := by
    rw [hsucc]
    exact units_block (by omega) hlt
  rw [hnext, units_eq]
  ring

theorem units_zero : units 0 = 0 := by
  rw [units_eq]
  simp [significand_eq]

/-- Magnitudes increase with their ranks. -/
theorem units_strictMono : StrictMono units := by
  refine strictMono_nat_of_lt_succ fun r => ?_
  have := Nat.two_pow_pos (scale r)
  rw [units_succ]
  omega

theorem units_pos_iff (r : Nat) : 0 < units r ↔ 0 < r := by
  have h : units 0 < units r ↔ 0 < r := units_strictMono.lt_iff_lt
  rwa [units_zero] at h

/-! ### Where the rounding changes -/

/-- Twice the magnitude halfway between a rank and the next one. -/
def boundary (r : Nat) : Nat := units r + units (r + 1)

theorem boundary_strictMono : StrictMono boundary := by
  intro r s hrs
  have h1 : units r < units s := units_strictMono hrs
  have h2 : units (r + 1) < units (s + 1) := units_strictMono (Nat.succ_lt_succ hrs)
  unfold boundary
  omega

/-- Inside a block the boundary is half a step past the magnitude. -/
theorem boundary_block {k m : Nat} (hk : k = 0 ∨ 2 ^ 52 ≤ m) (hm : m < 2 ^ 53) :
    boundary (k * 2 ^ 52 + m) = (2 * m + 1) * 2 ^ k := by
  have hlow := units_block hk hm.le
  have hhigh : units (k * 2 ^ 52 + (m + 1)) = (m + 1) * 2 ^ k := units_block (by omega) hm
  unfold boundary
  rw [Nat.add_assoc, hlow, hhigh]
  ring

theorem boundary_zero : boundary 0 = 1 := by
  have h := boundary_block (k := 0) (m := 0) (Or.inl rfl) (by omega)
  simpa using h

/-- Twice the magnitude of a rank lies past the boundary below it. -/
theorem boundary_lt_two_mul_units (r : Nat) : boundary r < 2 * units (r + 1) := by
  have : units r < units (r + 1) := units_strictMono (Nat.lt_succ_self r)
  unfold boundary
  omega

theorem two_mul_units_lt_boundary (r : Nat) : 2 * units r < boundary r := by
  have : units r < units (r + 1) := units_strictMono (Nat.lt_succ_self r)
  unfold boundary
  omega

end Rank

end Planar
