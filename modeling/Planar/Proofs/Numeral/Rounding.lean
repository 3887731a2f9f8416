/-
What a numeral with digits denotes, and that its value is that, rounded once.

The digits before the point count ones, those behind it parts of one, and the power
scales both: the denoted magnitude is `(W + F / 10^k) · 10^e`, with `W` the whole digits
read as a number, `F` the `k` digits of the fraction and `e` the exponent.  The value
puts the digits together first and rounds `± (10^k · W + F) · 10^(e - k)`; that the two
are one rational number is all that has to be seen.

The rounding of a signed magnitude keeps the sign whatever happens to the magnitude: a
zero has it, also the zero that a magnitude underflows to, and so has the infinity that
stands for everything from the overflow on.
-/
import Planar.Proofs.Numeral.Scan

namespace Planar

namespace Binary64

/-! ### Signed magnitudes -/

/-- `x` is the magnitude `q` with a sign, rounded once: to the nearest number, ties to
even, below the overflow, and to infinity from there on. -/
structure IsSignedRounding (negative : Bool) (q : ℚ) (x : Binary64) : Prop where
  sign : x.isNegative = negative
  nearest : q < overflow → IsNearest (signFactor negative * q) x
  infinite : overflow ≤ q → x = .infinite negative

theorem ofDecimal_of_overflow (s : Bool) {c : Nat} {e : Int} (h : overflow ≤ (c : ℚ) * 10 ^ e) :
    ofDecimal s c e = infinite s := by
  obtain ⟨n, d, hd, hratio⟩ := exists_ratio_decimal c e
  have hdq : (0 : ℚ) < d := by exact_mod_cast hd
  rw [ofDecimal_eq_ofUnits s hd hratio]
  refine ofUnits_of_overflow s hd ?_
  have hle : (overflowUnits : ℚ) ≤ n / d := by
    rw [overflowUnits_eq, ← hratio]
    exact mul_le_mul_of_nonneg_right h unitsInOne_cast_pos.le
  rw [le_div_iff₀ hdq] at hle
  exact_mod_cast hle

/-- **A decimal literal is its magnitude with its sign, rounded once.** -/
theorem isSignedRounding_ofDecimal (s : Bool) (c : Nat) (e : Int) :
    IsSignedRounding s (c * 10 ^ e) (ofDecimal s c e) where
  sign := isNegative_ofDecimal s c e
  nearest := isNearest_ofDecimal s
  infinite := ofDecimal_of_overflow s

end Binary64

namespace Numeral

/-! ### The denoted magnitude -/

variable (sign : Sign) {whole : List Char} {fraction : Option (List Char)} {power : Option Power}

/-- The magnitude that whole digits, a fraction and a power denote. -/
def denoted (whole : List Char) (fraction : Option (List Char)) (power : Option Power) : ℚ :=
  (Nat.ofDigitChars 10 whole 0
    + Nat.ofDigitChars 10 (fraction.getD []) 0 / 10 ^ (fraction.getD []).length)
    * 10 ^ (power.map Power.value).getD 0

theorem magnitude_eq_denoted :
    (decimal sign whole fraction power).magnitude = denoted whole fraction power := by
  simp only [magnitude, denoted]
  generalize fraction.getD [] = places
  generalize (power.map Power.value).getD 0 = e
  have hten : (10 : ℚ) ≠ 0 := by norm_num
  have hdigits : (Nat.ofDigitChars 10 (whole ++ places) 0 : ℚ)
      = 10 ^ places.length * Nat.ofDigitChars 10 whole 0 + Nat.ofDigitChars 10 places 0 := by
    rw [Nat.ofDigitChars_append, Nat.ofDigitChars_eq_ofDigitChars_zero]
    push_cast
    ring
  rw [hdigits, zpow_sub₀ hten, zpow_natCast]
  field_simp

/-- **The value of a numeral with digits is what it denotes, rounded once.** -/
theorem isSignedRounding_value : Binary64.IsSignedRounding sign.isMinus
    (denoted whole fraction power) (decimal sign whole fraction power).value := by
  rw [← magnitude_eq_denoted sign]
  exact Binary64.isSignedRounding_ofDecimal _ _ _

end Numeral

end Planar
