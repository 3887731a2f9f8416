/-
What normalizing does to the components.

It damages no finite vector: dividing by a length keeps the sign of a component, that of
a zero included, and in the normal range a component is not above the computed length
(`abs_le_sqrt_squaredLength`), so its quotient is not above 1.  Below the normal range the
quotient is finite still, but it can be above 1, because the least squares are rounded by
more than their share.  An infinite length leaves zeros, and a vanishing one leaves the
vector, so those cases have nothing to divide (`normalize_keeps`).

How near the squares of the components come to 1 does not depend on their ratio.  The
computed square has an error of two half units and a few times 2^-53 of itself, and from
2^-960 on the half units do not count beside the rest (`normalize_onCircle`).
-/
import Planar.Proofs.Binary64.Hypotenuse
import Planar.Proofs.Scalar
import Planar.Proofs.Vec.Length

namespace Planar

open Binary64 (squaredLength halfUnit unitRoundoff numLe Unsigned)

namespace Binary64

variable {x l : Binary64}

/-! ### Quotients by a length -/

/-- Dividing by a number without a sign that is not zero keeps the sign. -/
theorem isNegative_div (hx : x.isFinite = true) (hl : Unsigned l) (hne : l ≠ zero false) :
    (x / l).isNegative = x.isNegative := by
  obtain ⟨s, a, rfl⟩ := exists_of_isFinite hx
  rcases hl with rfl | ⟨b, rfl⟩
  · exact Bool.xor_false s
  · have hb : b.val ≠ 0 := fun hzero => hne (congrArg (finite false) (Fin.ext hzero))
    have hdiv : finite s a / finite false b
        = ofUnits (s ^^ false) (Rank.units a * unitsInOne) (Rank.units b) := if_neg hb
    rw [hdiv, isNegative_ofUnits, Bool.xor_false]
    rfl

/-- A number not above the length has a quotient in the interval from -1 to 1. -/
theorem abs_div_le_one (hx : x.isFinite = true) (hl : l.isFinite = true) (hpos : 0 < l.toRat)
    (hle : |x.toRat| ≤ l.toRat) : |(x / l).toRat| ≤ 1 := by
  have hround := isRounding_div hx hl hpos.ne'
  have hquotient : |x.toRat / l.toRat| ≤ 1 := by
    rw [abs_div, abs_of_pos hpos, div_le_one hpos]
    exact hle
  have hone := representable_int (z := 1) (by decide)
  rw [Int.cast_one] at hone
  exact (hround.isNearest (hquotient.trans_lt one_lt_overflow)).abs_toRat_le hone hquotient

theorem Unsigned.zero_numLe (h : Unsigned x) : numLe 0.0 x = true := by
  rw [positiveZero_eq]
  rcases h with rfl | ⟨r, rfl⟩
  · decide
  · rw [numLe_finite, decide_eq_true_iff]
    exact Int.natCast_nonneg r.val

theorem Unsigned.ne_nan (h : Unsigned x) : x ≠ nan := by
  rcases h with rfl | ⟨r, rfl⟩ <;> exact Binary64.noConfusion

end Binary64

namespace Vec

variable {v : Vec}

/-! ### Lengths -/

/-- A component that is not a number leaves no length, and nothing else does. -/
theorem length_eq_nan_iff (v : Vec) : v.length = .nan ↔ v.x = .nan ∨ v.y = .nan := by
  constructor
  · intro hnan
    by_contra hnot
    obtain ⟨hx, hy⟩ := not_or.mp hnot
    exact (unsigned_length hx hy).ne_nan hnan
  · rintro (hx | hy)
    · rw [length_eq, Binary64.squaredLength_eq, hx]
      rfl
    · rw [length_eq, Binary64.squaredLength_eq, hy]
      cases v.x * v.x <;> rfl

theorem zero_numLe_length (h : v.length ≠ .nan) : numLe 0.0 v.length = true := by
  obtain ⟨hx, hy⟩ := not_or.mp ((length_eq_nan_iff v).not.mp h)
  exact (unsigned_length hx hy).zero_numLe

/-! ### Components -/

/-- The computed square of the length is in the normal range, or past its end. -/
def Normal (v : Vec) : Prop := v.Overflows ∨ 1 / 2 ^ 1022 ≤ (squaredLength v.x v.y).toRat

/-- What is kept of a component `c` that becomes `d`. -/
structure Keeps (normal : Prop) (c d : Binary64) : Prop where
  isFinite : d.isFinite = true
  isNegative : d.isNegative = c.isNegative
  abs_le_one : normal → |d.toRat| ≤ 1

section Finite

variable (hx : v.x.isFinite = true) (hy : v.y.isFinite = true)
include hx hy

/-- A positive square does not come from components that vanish. -/
theorem not_vanishes_of_pos (hpos : 0 < (squaredLength v.x v.y).toRat) : ¬ v.Vanishes := by
  intro h
  have hfinite := isFinite_of_not_overflows (not_overflows_of_vanishes hx hy h)
  exact hpos.ne' ((Binary64.squaredLength_eq_zero_iff hx hy hfinite).mpr h)

theorem not_normal_of_vanishes (h : v.Vanishes) : ¬ v.Normal := by
  rintro (hover | hnormal)
  · exact not_overflows_of_vanishes hx hy h hover
  · exact not_vanishes_of_pos hx hy (lt_of_lt_of_le (by positivity) hnormal) h

theorem length_ne_zero (hv : ¬ v.Vanishes) : v.length ≠ .zero false := by
  by_cases ho : v.Overflows
  · rw [length_of_overflows hx hy ho]
    exact Binary64.noConfusion
  · intro hzero
    have hpos := (measures_length hx hy hv ho).2.root_pos
    rw [hzero, Binary64.toRat_zero] at hpos
    exact lt_irrefl _ hpos

/-- A component divided by a length that is not zero. -/
theorem keeps_div {c : Binary64} (hc : c.isFinite = true) (hv : ¬ v.Vanishes)
    (hsq : ¬ v.Overflows → (c.toRat / v.length.toRat) ^ 2 ≤ 4)
    (hle : ¬ v.Overflows → 1 / 2 ^ 1022 ≤ (squaredLength v.x v.y).toRat →
      |c.toRat| ≤ v.length.toRat) : Keeps v.Normal c (c / v.length) := by
  have hsign : (c / v.length).isNegative = c.isNegative :=
    Binary64.isNegative_div hc (unsigned_length (Binary64.ne_nan_of_isFinite hx)
      (Binary64.ne_nan_of_isFinite hy)) (length_ne_zero hx hy hv)
  by_cases ho : v.Overflows
  · obtain ⟨s, hs⟩ := Binary64.exists_div_infinite hc
    rw [length_of_overflows hx hy ho] at hsign ⊢
    refine ⟨by rw [hs]; rfl, hsign, fun _ => ?_⟩
    rw [hs, Binary64.toRat_zero, abs_zero]
    exact zero_le_one
  · obtain ⟨hl, hmeasures⟩ := measures_length hx hy hv ho
    refine ⟨(quotient_error hc hl hmeasures.root_pos (hsq ho)).1, hsign, fun hnormal => ?_⟩
    exact Binary64.abs_div_le_one hc hl hmeasures.root_pos (hle ho (hnormal.resolve_left ho))

/-- **Both components of a finite vector stay finite and keep their signs, and in the normal
range they lie between -1 and 1.** -/
theorem keeps_normalize :
    Keeps v.Normal v.x v.normalize.value.x ∧ Keeps v.Normal v.y v.normalize.value.y := by
  by_cases hv : v.Vanishes
  · have hnot := not_normal_of_vanishes hx hy hv
    rw [normalize_of_vanishes hx hy hv]
    exact ⟨⟨hx, rfl, fun hnormal => absurd hnormal hnot⟩,
      ⟨hy, rfl, fun hnormal => absurd hnormal hnot⟩⟩
  · have hsq (ho : ¬ v.Overflows) := (measures_length hx hy hv ho).2.squares_le_four
    have hle (ho : ¬ v.Overflows) (hnormal : 1 / 2 ^ 1022 ≤ (squaredLength v.x v.y).toRat) :=
      Binary64.abs_le_sqrt_squaredLength hx hy (isFinite_of_not_overflows ho) hnormal
    rw [normalize_of_not_vanishes hx hy hv]
    exact ⟨keeps_div hx hy hx hv (fun ho => (hsq ho).1) (fun ho hnormal => (hle ho hnormal).1),
      keeps_div hx hy hy hv (fun ho => (hsq ho).2) (fun ho hnormal => (hle ho hnormal).2)⟩

end Finite

/-- **Normalizing damages no finite vector:** its components stay finite and keep their signs,
and if the computed square of the length is in the normal range, or infinite, they lie between
-1 and 1.  A length is NaN exactly if a component is, and otherwise it is not negative. -/
theorem normalize_keeps (v : Vec) :
    (v.isFinite = true →
      Keeps v.Normal v.x v.normalize.value.x ∧ Keeps v.Normal v.y v.normalize.value.y) ∧
    (v.length = .nan ↔ v.x = .nan ∨ v.y = .nan) ∧
    (v.length ≠ .nan → numLe 0.0 v.length = true) := by
  refine ⟨?_, length_eq_nan_iff v, zero_numLe_length⟩
  intro hfinite
  obtain ⟨hx, hy⟩ := Bool.and_eq_true_iff.mp hfinite
  exact keeps_normalize hx hy

/-- A vector whose computed square is just inside the normal range, and a negative zero. -/
theorem normalize_keeps_short :
    ((⟨-1.5e-154, -0.0⟩ : Vec).isFinite = true ∧ Normal ⟨-1.5e-154, -0.0⟩ ∧
      Keeps (Normal ⟨-1.5e-154, -0.0⟩) (-1.5e-154) (normalize ⟨-1.5e-154, -0.0⟩).value.x ∧
      Keeps (Normal ⟨-1.5e-154, -0.0⟩) (-0.0) (normalize ⟨-1.5e-154, -0.0⟩).value.y) ∧
    (length ⟨-1.5e-154, -0.0⟩ ≠ .nan ∧ numLe 0.0 (length ⟨-1.5e-154, -0.0⟩) = true) := by
  have hfinite : (⟨-1.5e-154, -0.0⟩ : Vec).isFinite = true := by decide +kernel
  have hsquare : squaredLength (-1.5e-154) (-0.0)
      = .finite false ⟨0x102de28e3a4bda, by decide⟩ := by decide +kernel
  have hnormal : Normal ⟨-1.5e-154, -0.0⟩ := by
    refine Or.inr ?_
    rw [hsquare, Binary64.leastNormal_le_iff]
    decide
  have hlength : length ⟨-1.5e-154, -0.0⟩ ≠ .nan := by decide +kernel
  obtain ⟨hkeeps, -, hnonneg⟩ := normalize_keeps ⟨-1.5e-154, -0.0⟩
  exact ⟨⟨hfinite, hnormal, hkeeps hfinite⟩, hlength, hnonneg hlength⟩

/-- Below the normal range a component can exceed 1. -/
example : Binary64.numLt 1.2 (normalize ⟨2.7e-162, 0.0⟩).value.x = true := by decide +kernel

/-! ### The circle -/

/-- From 2^-960 on, the two half units are nothing beside the computed square. -/
theorem share_le_of_large {H : ℚ} (h : 1 / 2 ^ 960 ≤ H) : 2 * halfUnit / H ≤ 1 / 2 ^ 114 := by
  have hunits : 2 * halfUnit * 2 ^ 960 = 1 / 2 ^ 114 := by
    rw [Binary64.two_mul_halfUnit, div_mul_eq_mul_div]
    exact Binary64.steps_eq_div 1 (by decide)
  have hpow : (0 : ℚ) < 2 ^ 960 := by positivity
  have hH : 0 < H := (one_div_pos.mpr hpow).trans_le h
  rw [div_le_iff₀ hpow] at h
  rw [div_le_iff₀ hH, ← hunits, mul_assoc]
  exact le_mul_of_one_le_right (mul_pos two_pos Binary64.halfUnit_pos).le
    (h.trans_eq (mul_comm _ _))

/-- **The components of a normalized vector lie on the circle around the origin to within
2^-48**, whatever their ratio, if the computed square of the length is finite and at least
2^-960. -/
theorem normalize_onCircle (v : Vec) (hv : v.isFinite = true)
    (hfinite : (squaredLength v.x v.y).isFinite = true)
    (hlarge : 1 / 2 ^ 960 ≤ (squaredLength v.x v.y).toRat) :
    ∃ w : Vec, v.normalize = pure w ∧ w.isFinite = true ∧
      |w.x.toRat ^ 2 + w.y.toRat ^ 2 - 1| ≤ 1 / 2 ^ 48 := by
  obtain ⟨hx, hy⟩ := Bool.and_eq_true_iff.mp hv
  have hvanishes := not_vanishes_of_pos hx hy (lt_of_lt_of_le (by positivity) hlarge)
  obtain ⟨w, hw, hwx, hwy, hsquares⟩ := exists_normalize hx hy hvanishes (not_overflows_of_isFinite hfinite)
  have hshare := share_le_of_large hlarge
  refine ⟨w, hw, Bool.and_eq_true_iff.mpr ⟨hwx, hwy⟩, ?_⟩
  generalize 2 * halfUnit / (squaredLength v.x v.y).toRat = share at *
  unfold unitRoundoff at hsquares
  linarith

/-- A vector of one long component and the least positive number. -/
theorem normalize_onCircle_uneven :
    (⟨-3e100, 5e-324⟩ : Vec).isFinite = true ∧
    (squaredLength (-3e100) 5e-324).isFinite = true ∧
    1 / 2 ^ 960 ≤ (squaredLength (-3e100) 5e-324).toRat ∧
    ∃ w : Vec, normalize ⟨-3e100, 5e-324⟩ = pure w ∧ w.isFinite = true ∧
      |w.x.toRat ^ 2 + w.y.toRat ^ 2 - 1| ≤ 1 / 2 ^ 48 := by
  have hv : (⟨-3e100, 5e-324⟩ : Vec).isFinite = true := by decide +kernel
  have hfinite : (squaredLength (-3e100) 5e-324).isFinite = true := by decide +kernel
  have hlarge : 1 / 2 ^ 960 ≤ (squaredLength (-3e100) 5e-324).toRat := by
    have hone : numLe 1.0 (squaredLength (-3e100) 5e-324) = true := by decide +kernel
    rw [Binary64.numLe_iff Binary64.one_exact.1 hfinite, Binary64.one_exact.2] at hone
    exact (div_le_self zero_le_one (one_le_pow₀ one_le_two)).trans hone
  exact ⟨hv, hfinite, hlarge, normalize_onCircle _ hv hfinite hlarge⟩

end Vec

end Planar
