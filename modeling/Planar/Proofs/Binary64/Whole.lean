/-
The whole number below a number, and the fraction above it.

From 2^52 on the steps of the format are whole numbers.  So a number is whole, or it is
smaller than that and has room for the whole numbers on either side of it: both are in
the format, and `floor` is exact (`floor_exact`).

The fraction, what a number exceeds its `floor` by, is not always in the format.  Just
below zero it is just below 1, far more digits than there are.  Below one half it always
is (`representable_fract`).  A number less than one half in magnitude is then its own
fraction, and every other one consists of steps of 2^-53, of which its fraction has
fewer than 2^53.  So a comparison of the fraction with one half is right although the
fraction is rounded (`numLe_half_iff`).
-/
import Mathlib.Data.Rat.Floor
import Planar.Proofs.Binary64.Exact
import Planar.Proofs.Binary64.Order

namespace Planar.Binary64

open Rank (units)

variable {x y : Binary64}

/-! ### Steps of a given length -/

/-- Either a number consists of steps of 2^e units, or it is below 2^52 of them. -/
theorem exists_steps_or_lt (e : Nat) (hx : x.isFinite = true) :
    (∃ w : Int, x.toRat = w * 2 ^ e / unitsInOne) ∨ |x.toRat| < 2 ^ 52 * 2 ^ e / unitsInOne := by
  obtain ⟨z, k, hz, hvalue⟩ := exists_steps_toRat hx
  have hU := unitsInOne_cast_pos
  rcases Nat.lt_or_ge k e with hlt | hge
  · right
    have habs : |(z : ℚ)| < 2 ^ 53 := by
      rw [← Int.cast_abs, Int.abs_eq_natAbs]
      exact_mod_cast hz
    have hpow : (2 : ℚ) * 2 ^ k ≤ 2 ^ e := by
      rw [← pow_succ']
      exact pow_le_pow_right₀ (by norm_num) hlt
    have hk : (0 : ℚ) < 2 ^ k := pow_pos (by norm_num) k
    rw [hvalue, abs_div, abs_mul, abs_of_pos hU, abs_of_pos hk]
    refine div_lt_div_of_pos_right ?_ hU
    calc |(z : ℚ)| * 2 ^ k < 2 ^ 53 * 2 ^ k := mul_lt_mul_of_pos_right habs hk
      _ = 2 ^ 52 * (2 * 2 ^ k) := by ring
      _ ≤ 2 ^ 52 * 2 ^ e := mul_le_mul_of_nonneg_left hpow (by positivity)
  · left
    obtain ⟨j, rfl⟩ := Nat.exists_eq_add_of_le hge
    refine ⟨z * 2 ^ j, ?_⟩
    rw [hvalue, pow_add]
    push_cast
    ring

/-- A number is whole or below 2^52. -/
theorem exists_int_or_lt (hx : x.isFinite = true) :
    (∃ w : Int, x.toRat = w) ∨ |x.toRat| < 2 ^ 52 := by
  have h := exists_steps_or_lt 1074 hx
  have hcancel (q : ℚ) : q * 2 ^ 1074 / unitsInOne = q := by
    rw [steps_eq_div q (Nat.zero_add 1074), pow_zero, div_one]
  simpa only [hcancel] using h

/-- A number consists of steps of 2^-53 or is below one half. -/
theorem exists_fine_or_lt (hx : x.isFinite = true) :
    (∃ w : Int, x.toRat = w / 2 ^ 53) ∨ |x.toRat| < 1 / 2 := by
  have h := exists_steps_or_lt 1021 hx
  have hfine (q : ℚ) : q * 2 ^ 1021 / unitsInOne = q / 2 ^ 53 := steps_eq_div q rfl
  have hhalf : (2 ^ 52 / 2 ^ 53 : ℚ) = 1 / 2 := by norm_num
  simpa only [hfine, hhalf] using h

theorem representable_half : Representable (1 / 2) := by
  have h := representable_div (w := 1) (j := 1) (by decide) (by decide)
  rwa [Int.cast_one, pow_one] at h

/-! ### The whole number below -/

theorem natAbs_floor_le {q : ℚ} (h : |q| < 2 ^ 52) : ⌊q⌋.natAbs ≤ 2 ^ 52 := by
  obtain ⟨hlow, hhigh⟩ := abs_lt.mp h
  have hge : -2 ^ 52 ≤ ⌊q⌋ := Int.le_floor.mpr (by push_cast; exact hlow.le)
  have hlt : ⌊q⌋ < 2 ^ 52 := Int.floor_lt.mpr (by push_cast; exact hhigh)
  omega

theorem representable_floor (hx : x.isFinite = true) : Representable ⌊x.toRat⌋ := by
  rcases exists_int_or_lt hx with ⟨w, hw⟩ | hlt
  · rw [hw, Int.floor_intCast, ← hw]
    exact representable_toRat hx
  · have hsmall := natAbs_floor_le hlt
    exact representable_int (by omega)

/-- Unless a number is whole, the next whole number is in the format too. -/
theorem representable_floor_add_one (hx : x.isFinite = true) (h : Int.fract x.toRat ≠ 0) :
    Representable (⌊x.toRat⌋ + 1) := by
  rcases exists_int_or_lt hx with ⟨w, hw⟩ | hlt
  · rw [hw, Int.fract_intCast] at h
    exact absurd rfl h
  · have hsmall := natAbs_floor_le hlt
    have hnext : Representable ((⌊x.toRat⌋ + 1 : Int) : ℚ) := representable_int (by omega)
    rwa [Int.cast_add, Int.cast_one] at hnext

/-- The whole number next to a ratio, away from zero. -/
theorem floor_neg_ratio (u : Nat) {d : Nat} (hd : 0 < d) :
    ⌊(-(u / d) : ℚ)⌋ = -((if u % d != 0 then u / d + 1 else u / d : Nat) : Int) := by
  have hsplit : u / d * d + u % d = u := Nat.div_add_mod' u d
  have hrest : u % d < d := Nat.mod_lt u hd
  have hdq : (0 : ℚ) < d := by exact_mod_cast hd
  generalize u / d = w at *
  obtain ⟨hge, hlt⟩ : u ≤ (if u % d != 0 then w + 1 else w) * d ∧
      (if u % d != 0 then w + 1 else w) * d < u + d := by
    by_cases hzero : u % d = 0
    · simp only [hzero, bne_self_eq_false, Bool.false_eq_true, if_false]
      omega
    · simp only [bne_iff_ne.mpr hzero, if_true, Nat.succ_mul]
      omega
  generalize (if u % d != 0 then w + 1 else w) = n at *
  have hgeq : (u : ℚ) ≤ n * d := by exact_mod_cast hge
  have hltq : (n : ℚ) * d < u + d := by exact_mod_cast hlt
  rw [Int.floor_eq_iff]
  push_cast
  constructor
  · rw [neg_le_neg_iff, div_le_iff₀ hdq]
    exact hgeq
  · rw [neg_lt, neg_add, neg_neg, ← sub_eq_add_neg, lt_div_iff₀ hdq]
    linarith

/-- `floor` of a finite number is the whole number below it, rounded once, and has its
sign. -/
theorem isRounding_floor (hx : x.isFinite = true) :
    IsRounding ⌊x.toRat⌋ x.floor ∧ x.floor.isNegative = x.isNegative := by
  obtain ⟨s, r, rfl⟩ := exists_of_isFinite hx
  have hU := unitsInOne_cast_pos
  have hwhole (w : Nat) : ((w * unitsInOne : Nat) : ℚ) / (1 : Nat) / unitsInOne = w := by
    rw [Nat.cast_one, div_one, Nat.cast_mul, mul_div_cancel_right₀ _ hU.ne']
  refine ⟨⟨s, _, 1, Nat.one_pos, ?_, rfl⟩, isNegative_ofUnits _ _ _⟩
  rw [hwhole, toRat_finite]
  cases s with
  | false =>
      rw [signFactor_false, one_mul, one_mul, Rat.floor_natCast_div_natCast]
      rfl
  | true =>
      rw [signFactor_true, neg_one_mul, neg_one_mul, floor_neg_ratio _ unitsInOne_pos]
      push_cast
      rfl

/-- **`floor` is exact.** -/
theorem floor_exact (hx : x.isFinite = true) :
    x.floor.isFinite = true ∧ x.floor.toRat = ⌊x.toRat⌋ :=
  (isRounding_floor hx).1.exact (representable_floor hx)

/-! ### The fraction above it -/

/-- **Below one half the fraction of a number is in the format.** -/
theorem representable_fract (hx : x.isFinite = true) (h : Int.fract x.toRat < 1 / 2) :
    Representable (Int.fract x.toRat) := by
  have hnonneg := Int.fract_nonneg x.toRat
  rcases exists_fine_or_lt hx with ⟨w, hw⟩ | hsmall
  · -- The fraction consists of the steps that the whole number leaves over.
    have hfract : Int.fract x.toRat = ((w - ⌊x.toRat⌋ * 2 ^ 53 : Int) : ℚ) / 2 ^ 53 := by
      rw [← Int.self_sub_floor, hw]
      push_cast
      ring
    rw [hfract] at h hnonneg ⊢
    generalize w - ⌊x.toRat⌋ * 2 ^ 53 = left at *
    have hge : (0 : ℚ) ≤ left := by
      rw [le_div_iff₀ (by positivity), zero_mul] at hnonneg
      exact hnonneg
    have hlt : (left : ℚ) < 2 ^ 53 := by
      rw [div_lt_iff₀ (by positivity)] at h
      linarith
    have hgez : 0 ≤ left := by exact_mod_cast hge
    have hltz : left < 2 ^ 53 := by exact_mod_cast hlt
    exact representable_div (by omega) (by decide)
  · -- A small number is its own fraction, or negative and its fraction not small.
    obtain ⟨hlow, hhigh⟩ := abs_lt.mp hsmall
    rcases le_or_gt 0 x.toRat with hpos | hneg
    · rw [Int.fract_eq_self.mpr ⟨hpos, by linarith⟩]
      exact representable_toRat hx
    · have hfloor : ⌊x.toRat⌋ = -1 := by
        rw [Int.floor_eq_iff]
        push_cast
        constructor <;> linarith
      rw [← Int.self_sub_floor, hfloor] at h
      push_cast at h
      linarith

/-- The literal one half. -/
theorem half_exact : (0.5 : Binary64).isFinite = true ∧ (0.5 : Binary64).toRat = 1 / 2 :=
  ofDecimal_exact (c := 5) (e := -1) (by norm_num) representable_half

/-- **The rounded fraction is on the same side of one half as the true one.** -/
theorem numLe_half_iff (hx : x.isFinite = true) :
    numLe 0.5 (x - x.floor) = true ↔ 1 / 2 ≤ Int.fract x.toRat := by
  obtain ⟨hfloor, hvalue⟩ := floor_exact hx
  obtain ⟨hhalf, hhalfvalue⟩ := half_exact
  have hround : IsRounding (Int.fract x.toRat) (x - x.floor) := by
    have h := isRounding_sub hx hfloor
    rwa [hvalue] at h
  have hsmall : |Int.fract x.toRat| < overflow := by
    rw [abs_of_nonneg (Int.fract_nonneg _)]
    exact (Int.fract_lt_one _).trans one_lt_overflow
  have hnear := hround.isNearest hsmall
  rw [numLe_iff hhalf hnear.isFinite, hhalfvalue]
  constructor
  · intro hle
    by_contra hlt
    rw [hnear.toRat_eq (representable_fract hx (not_le.mp hlt))] at hle
    exact hlt hle
  · exact hnear.ge_of_ge representable_half

end Planar.Binary64
