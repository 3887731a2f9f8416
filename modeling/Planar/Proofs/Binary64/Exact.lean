/-
The rational numbers that the format has.

A finite number is a whole number of steps, `z · 2^k` units with `|z| < 2^53`.  The
converse needs no block: every such number below the overflow is in the format, because
steps that are too few for their length can be halved until they fill a block
(`representable_steps`).  Rounding does not move a number of the format, so an operation
is exact as soon as its exact result is known to be a number of steps
(`IsRounding.exact`).

Two things follow for any operation.  Whole numbers up to 2^53 are in the format.  And
of two finite numbers, each a number of its own steps, the remainder is a number of the
shorter ones and smaller than either: a remainder is always exact
(`exists_remainder`), however great the quotient that was left out.
-/
import Planar.Proofs.Binary64.Error
import Planar.Proofs.Binary64.Order

namespace Planar

open Rank (units scale significand)

/-! ### Magnitudes by steps -/

/-- Up to 2^53 steps of any length make a magnitude. -/
theorem Rank.exists_units_eq (k : Nat) : ∀ m ≤ 2 ^ 53, ∃ r, units r = m * 2 ^ k := by
  induction k with
  | zero =>
      intro m hm
      exact ⟨0 * 2 ^ 52 + m, units_block (Or.inl rfl) hm⟩
  | succ k ih =>
      intro m hm
      by_cases hshort : m < 2 ^ 52
      · -- Too few steps to fill a block are twice as many of half the length.
        obtain ⟨r, hr⟩ := ih (2 * m) (by omega)
        refine ⟨r, ?_⟩
        rw [hr]
        ring
      · exact ⟨(k + 1) * 2 ^ 52 + m, units_block (Or.inr (by omega)) hm⟩

/-- The remainder of two magnitudes is a magnitude. -/
theorem Rank.exists_units_mod (a : Nat) {b : Nat} (hpos : 0 < b) :
    ∃ c < b, units c = units a % units b := by
  have ha := significand_lt a
  have hb := significand_lt b
  have hunits := (units_pos_iff b).mpr hpos
  have hlt : units a % units b < units b := Nat.mod_lt _ hunits
  suffices h : ∃ c, units c = units a % units b by
    obtain ⟨c, hc⟩ := h
    exact ⟨c, units_strictMono.lt_iff_lt.mp (hc.trans_lt hlt), hc⟩
  rw [units_eq] at hunits
  rw [units_eq a, units_eq b]
  rcases Nat.le_total (scale a) (scale b) with hle | hle
  · obtain ⟨j, hj⟩ := Nat.exists_eq_add_of_le hle
    obtain ⟨c, hc⟩ := exists_units_eq (scale a) (significand a % (significand b * 2 ^ j))
      ((Nat.mod_le _ _).trans ha.le)
    refine ⟨c, ?_⟩
    rw [hc, hj, Nat.add_comm, Nat.pow_add, ← Nat.mul_assoc, Nat.mul_mod_mul_right]
  · obtain ⟨j, hj⟩ := Nat.exists_eq_add_of_le hle
    have hmod : significand a * 2 ^ j % significand b < significand b :=
      Nat.mod_lt _ (Nat.pos_of_mul_pos_right hunits)
    obtain ⟨c, hc⟩ := exists_units_eq (scale b) _ (hmod.trans hb).le
    refine ⟨c, ?_⟩
    rw [hc, hj, Nat.add_comm, Nat.pow_add, ← Nat.mul_assoc, Nat.mul_mod_mul_right]

/-- Below the overflow every magnitude has a rank. -/
theorem Rank.lt_of_units_lt {r : Nat} (h : units r < Binary64.overflowUnits) :
    r < 0x7ff0000000000000 := by
  by_contra hge
  have hmono : units (0x7fefffffffffffff + 1) ≤ units r := units_strictMono.monotone (by omega)
  have hbound := boundary_lt_two_mul_units 0x7fefffffffffffff
  rw [Binary64.boundary_greatest] at hbound
  omega

namespace Binary64

variable {p q : ℚ} {x y : Binary64}

/-! ### Numbers of the format -/

/-- `q` is a number of the format. -/
def Representable (q : ℚ) : Prop := ∃ x : Binary64, x.isFinite = true ∧ x.toRat = q

theorem representable_toRat (hx : x.isFinite = true) : Representable x.toRat := ⟨x, hx, rfl⟩

theorem representable_zero : Representable 0 := ⟨zero false, rfl, toRat_zero false⟩

theorem Representable.neg (h : Representable q) : Representable (-q) := by
  obtain ⟨x, hx, rfl⟩ := h
  exact ⟨-x, isFinite_neg hx, toRat_neg hx⟩

theorem Representable.abs_lt_overflow (h : Representable q) : |q| < overflow := by
  obtain ⟨x, hx, rfl⟩ := h
  exact abs_toRat_lt_overflow hx

/-- A finite number is less than 2^53 steps. -/
theorem exists_steps_toRat (hx : x.isFinite = true) :
    ∃ (z : Int) (k : Nat), z.natAbs < 2 ^ 53 ∧ x.toRat = z * 2 ^ k / unitsInOne := by
  obtain ⟨s, r, rfl⟩ := exists_of_isFinite hx
  have hlt := Rank.significand_lt r
  rw [toRat_finite, Rank.units_eq]
  cases s with
  | false =>
      refine ⟨significand r, scale r, by omega, ?_⟩
      rw [signFactor_false]
      push_cast
      ring
  | true =>
      refine ⟨-significand r, scale r, by omega, ?_⟩
      rw [signFactor_true]
      push_cast
      ring

/-- **Up to 2^53 steps of any length make a number of the format, below the overflow.** -/
theorem representable_steps {z : Int} {k : Nat} (hz : z.natAbs ≤ 2 ^ 53)
    (h : |(z * 2 ^ k / unitsInOne : ℚ)| < overflow) :
    Representable (z * 2 ^ k / unitsInOne) := by
  have hU := unitsInOne_cast_pos
  obtain ⟨r, hr⟩ := Rank.exists_units_eq k z.natAbs hz
  have hvalue : signFactor (decide (z < 0)) * (units r / unitsInOne : ℚ)
      = z * 2 ^ k / unitsInOne := by
    rw [hr, Nat.cast_mul, Nat.cast_pow, Nat.cast_ofNat, ← mul_div_assoc, ← mul_assoc,
      signFactor_mul_natAbs]
  have hnonneg : (0 : ℚ) ≤ units r / unitsInOne := div_nonneg (Nat.cast_nonneg _) hU.le
  have hlt : units r < overflowUnits := by
    rw [← hvalue, abs_mul, abs_signFactor, one_mul, abs_of_nonneg hnonneg, div_lt_iff₀ hU,
      ← overflowUnits_eq] at h
    exact_mod_cast h
  exact ⟨finite (decide (z < 0)) ⟨r, Rank.lt_of_units_lt hlt⟩, rfl, (toRat_finite _ _).trans hvalue⟩

theorem unitsInOne_cast_eq : (unitsInOne : ℚ) = 2 ^ 1074 := by
  rw [unitsInOne_eq]
  exact Nat.cast_pow 2 1074

theorem abs_cast_le {z : Int} {b : Nat} (hz : z.natAbs ≤ b) : |(z : ℚ)| ≤ b := by
  rw [← Int.cast_abs, Int.abs_eq_natAbs]
  exact_mod_cast hz

/-- Units as steps of 2^-j. -/
theorem steps_eq_div (q : ℚ) {j e : Nat} (h : j + e = 1074) :
    q * 2 ^ e / unitsInOne = q / 2 ^ j := by
  have hsplit : (unitsInOne : ℚ) = 2 ^ j * 2 ^ e := by
    rw [unitsInOne_cast_eq, ← pow_add, h]
  rw [hsplit, mul_div_mul_right _ _ (pow_ne_zero _ two_ne_zero)]

/-- Up to 2^53 steps of 2^-j are in the format. -/
theorem representable_div {w : Int} {j : Nat} (hw : w.natAbs ≤ 2 ^ 53) (hj : j ≤ 1074) :
    Representable (w / 2 ^ j) := by
  have hsteps := steps_eq_div (w : ℚ) (Nat.add_sub_cancel' hj)
  have hsize : |(w : ℚ)| ≤ 2 ^ 53 := by exact_mod_cast abs_cast_le hw
  have hle : |(w : ℚ) / 2 ^ j| ≤ 2 ^ 53 := by
    rw [abs_div, abs_of_pos (pow_pos two_pos j : (0 : ℚ) < 2 ^ j)]
    exact (div_le_self (abs_nonneg _) (one_le_pow₀ one_le_two)).trans hsize
  rw [← hsteps] at hle ⊢
  exact representable_steps hw (hle.trans_lt (two_pow_lt_overflow (by omega)))

/-- Whole numbers up to 2^53 are in the format. -/
theorem representable_int {z : Int} (hz : z.natAbs ≤ 2 ^ 53) : Representable z := by
  have h := representable_div hz (Nat.zero_le 1074)
  rwa [pow_zero, div_one] at h

/-- Apart from the zeros, a number is determined by its value. -/
theorem eq_of_toRat_eq (hx : x.isFinite = true) (hy : y.isFinite = true) (h : x.toRat = y.toRat)
    (hne : x.toRat ≠ 0) : x = y := by
  obtain ⟨s, a, rfl⟩ := exists_of_isFinite hx
  obtain ⟨t, b, rfl⟩ := exists_of_isFinite hy
  rw [Ne, toRat_finite_eq_zero_iff] at hne
  exact finite_eq_of_signedRank_eq (Nat.pos_of_ne_zero hne) ((toRat_eq_iff s t a b).mp h)

/-! ### Nearest numbers -/

theorem IsRounding.isNearest (h : IsRounding q x) (hq : |q| < overflow) : IsNearest q x := by
  have hx := h.isFinite_iff.mpr hq
  obtain ⟨s, n, d, hd, rfl, rfl⟩ := h
  exact isNearest_ofUnits s hd ((isFinite_ofUnits_iff s hd).mp hx)

theorem isNearest_toRat (hx : x.isFinite = true) : IsNearest x.toRat x where
  isFinite := hx
  nearest := by
    intro y _
    rw [sub_self, abs_zero]
    exact abs_nonneg _
  even_of_tie := by
    intro y _ hne htie
    rw [sub_self, abs_zero, abs_eq_zero, sub_eq_zero] at htie
    exact absurd htie hne

/-- The nearest number to a number of the format is that number. -/
theorem IsNearest.toRat_eq (h : IsNearest q x) (hq : Representable q) : x.toRat = q := by
  obtain ⟨y, hy, rfl⟩ := hq
  have hle := h.nearest y hy
  rw [sub_self, abs_zero, abs_nonpos_iff, sub_eq_zero] at hle
  exact hle

/-- What lies below a number of the format is not rounded past it. -/
theorem IsNearest.le_of_le (h : IsNearest q x) (hp : Representable p) (hle : q ≤ p) :
    x.toRat ≤ p := by
  obtain ⟨y, hy, rfl⟩ := hp
  have hnear := h.nearest y hy
  by_contra hgt
  rw [abs_of_nonneg (by linarith), abs_of_nonneg (by linarith)] at hnear
  linarith

theorem IsNearest.ge_of_ge (h : IsNearest q x) (hp : Representable p) (hge : p ≤ q) :
    p ≤ x.toRat := by
  obtain ⟨y, hy, rfl⟩ := hp
  have hnear := h.nearest y hy
  by_contra hlt
  rw [abs_of_nonpos (by linarith), abs_of_nonpos (by linarith)] at hnear
  linarith

theorem IsNearest.abs_toRat_le (h : IsNearest q x) (hp : Representable p) (hle : |q| ≤ p) :
    |x.toRat| ≤ p := by
  obtain ⟨hlow, hhigh⟩ := abs_le.mp hle
  exact abs_le.mpr ⟨h.ge_of_ge hp.neg hlow, h.le_of_le hp hhigh⟩

/-- **A rounding of a number of the format is exact.** -/
theorem IsRounding.exact (h : IsRounding q x) (hq : Representable q) :
    x.isFinite = true ∧ x.toRat = q := by
  have hnear := h.isNearest hq.abs_lt_overflow
  exact ⟨hnear.isFinite, hnear.toRat_eq hq⟩

/-- Below the overflow a nearest number is as near as a rounding. -/
theorem IsNearest.error (h : IsNearest q x) (hq : |q| < overflow) :
    |x.toRat - q| ≤ halfUnit + unitRoundoff * |x.toRat| := by
  obtain ⟨y, hround⟩ := exists_isRounding q
  have hnear := hround.isNearest hq
  rw [h.toRat_unique hnear]
  exact hround.error hnear.isFinite

/-- Numbers are as near to a value as their negatives are to its negative. -/
theorem IsNearest.neg (h : IsNearest q x) : IsNearest (-q) (-x) := by
  have hmirror {y : Binary64} (hy : y.isFinite = true) : |y.toRat - -q| = |(-y).toRat - q| := by
    have hflip : (-y).toRat - q = -(y.toRat - -q) := by
      rw [toRat_neg hy]
      ring
    rw [hflip, abs_neg]
  have hx := h.isFinite
  have hself : |(-x).toRat - -q| = |x.toRat - q| := by
    have hflip : (-x).toRat - -q = -(x.toRat - q) := by
      rw [toRat_neg hx]
      ring
    rw [hflip, abs_neg]
  refine ⟨isFinite_neg hx, ?_, ?_⟩
  · intro y hy
    rw [hself, hmirror hy]
    exact h.nearest (-y) (isFinite_neg hy)
  · intro y hy hne htie
    rw [hself, hmirror hy] at htie
    have hne' : (-y).toRat ≠ x.toRat := by
      intro heq
      rw [toRat_neg hx, ← heq, toRat_neg hy, neg_neg] at hne
      exact hne rfl
    obtain ⟨s, r, rfl, heven⟩ := h.even_of_tie (-y) (isFinite_neg hy) hne' htie
    exact ⟨!s, r, rfl, heven⟩

/-- A literal of a number of the format is exact. -/
theorem ofDecimal_exact {c : Nat} {e : Int} (hvalue : (c : ℚ) * 10 ^ e = q)
    (hq : Representable q) :
    (ofDecimal false c e).isFinite = true ∧ (ofDecimal false c e).toRat = q := by
  have hover := (le_abs_self q).trans_lt hq.abs_lt_overflow
  have hnear := isNearest_ofDecimal false (hvalue.symm ▸ hover)
  rw [signFactor_false, one_mul, hvalue] at hnear
  exact ⟨hnear.isFinite, hnear.toRat_eq hq⟩

/-! ### The remainder -/

/-- **The remainder is exact**, and it is the remainder of the magnitudes with the sign of
the dividend. -/
theorem exists_remainder (s t : Bool) (a : Rank) {b : Rank} (hb : 0 < b.val) :
    ∃ c : Rank, c.val < b.val ∧ units c = units a % units b ∧
      remainder (finite s a) (finite t b) = finite s c := by
  obtain ⟨c, hlt, hc⟩ := Rank.exists_units_mod a.val hb
  refine ⟨⟨c, hlt.trans b.isLt⟩, hlt, hc, ?_⟩
  show (if b.val = 0 then nan else ofUnits s (units a % units b) 1) = _
  rw [if_neg hb.ne', ← hc]
  exact ofUnits_units_one s ⟨c, hlt.trans b.isLt⟩

end Binary64

end Planar
