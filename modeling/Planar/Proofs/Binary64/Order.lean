/-
Comparing numbers is comparing what they stand for.

A comparison looks at places, and with NaN, which has none, it is false
(`numLt_iff_place`, `numLe_iff_place`, `numEq_iff_place`).  The places of finite numbers
are the signed ranks.  Units increase with ranks, and the rank zero has none, so signed
units are ordered as signed ranks are, across the sign as well; and dividing by the units
in 1 changes no order (`numLt_iff`, `numLe_iff`, `numEq_iff`).

Neighbours differ by one in their signed ranks.  So of two numbers as near to a value
one has an odd rank, and a nearest number is determined but for the sign of a zero
(`IsNearest.toRat_unique`).
-/
import Planar.Proofs.Binary64.Value

namespace Planar.Binary64

open Rank (units)

/-! ### Places -/

/-- The place of a number on the line of signed ranks, and zero for NaN. -/
def place (x : Binary64) : Int := x.place?.getD 0

theorem compareBy_iff (r : Int → Int → Bool) (x y : Binary64) :
    compareBy r x y = true ↔ x ≠ nan ∧ y ≠ nan ∧ r x.place y.place = true := by
  cases x <;> cases y <;> simp [compareBy, place?, place]

theorem numLt_iff_place {x y : Binary64} :
    numLt x y = true ↔ x ≠ nan ∧ y ≠ nan ∧ x.place < y.place := by
  unfold numLt
  rw [compareBy_iff, decide_eq_true_iff]

theorem numLe_iff_place {x y : Binary64} :
    numLe x y = true ↔ x ≠ nan ∧ y ≠ nan ∧ x.place ≤ y.place := by
  unfold numLe
  rw [compareBy_iff, decide_eq_true_iff]

theorem numEq_iff_place {x y : Binary64} :
    numEq x y = true ↔ x ≠ nan ∧ y ≠ nan ∧ x.place = y.place := by
  unfold numEq
  rw [compareBy_iff, decide_eq_true_iff]

section Numbers

variable {x y z : Binary64}

theorem numLe_self (h : x ≠ nan) : numLe x x = true := numLe_iff_place.mpr ⟨h, h, le_refl _⟩

theorem numEq_self (h : x ≠ nan) : numEq x x = true := numEq_iff_place.mpr ⟨h, h, rfl⟩

theorem numLe_of_numLt (h : numLt x y = true) : numLe x y = true := by
  obtain ⟨hx, hy, hlt⟩ := numLt_iff_place.mp h
  exact numLe_iff_place.mpr ⟨hx, hy, hlt.le⟩

theorem numLe_of_not_numLt (hx : x ≠ nan) (hy : y ≠ nan) (h : ¬ numLt x y = true) :
    numLe y x = true := by
  refine numLe_iff_place.mpr ⟨hy, hx, not_lt.mp fun hlt => h ?_⟩
  exact numLt_iff_place.mpr ⟨hx, hy, hlt⟩

theorem not_numLt_of_numLe (h : numLe y x = true) : ¬ numLt x y = true :=
  fun hlt => absurd (numLt_iff_place.mp hlt).2.2 (numLe_iff_place.mp h).2.2.not_gt

theorem numLe_trans (hxy : numLe x y = true) (hyz : numLe y z = true) : numLe x z = true := by
  obtain ⟨hx, -, hle⟩ := numLe_iff_place.mp hxy
  obtain ⟨-, hz, hle'⟩ := numLe_iff_place.mp hyz
  exact numLe_iff_place.mpr ⟨hx, hz, hle.trans hle'⟩

theorem numLt_of_numLe_of_numLt (hxy : numLe x y = true) (hyz : numLt y z = true) :
    numLt x z = true := by
  obtain ⟨hx, -, hle⟩ := numLe_iff_place.mp hxy
  obtain ⟨-, hz, hlt⟩ := numLt_iff_place.mp hyz
  exact numLt_iff_place.mpr ⟨hx, hz, hle.trans_lt hlt⟩

theorem numLt_of_numLt_of_numLe (hxy : numLt x y = true) (hyz : numLe y z = true) :
    numLt x z = true := by
  obtain ⟨hx, -, hlt⟩ := numLt_iff_place.mp hxy
  obtain ⟨-, hz, hle⟩ := numLe_iff_place.mp hyz
  exact numLt_iff_place.mpr ⟨hx, hz, hlt.trans_le hle⟩

theorem numEq_of_numLe (hxy : numLe x y = true) (hyx : numLe y x = true) : numEq x y = true := by
  obtain ⟨hx, hy, hle⟩ := numLe_iff_place.mp hxy
  obtain ⟨-, -, hge⟩ := numLe_iff_place.mp hyx
  exact numEq_iff_place.mpr ⟨hx, hy, le_antisymm hle hge⟩

/-- Two numbers equal to a third are equal to each other. -/
theorem numEq_trans_right (hxz : numEq x z = true) (hyz : numEq y z = true) :
    numEq x y = true := by
  obtain ⟨hx, -, hxz⟩ := numEq_iff_place.mp hxz
  obtain ⟨hy, -, hyz⟩ := numEq_iff_place.mp hyz
  exact numEq_iff_place.mpr ⟨hx, hy, hxz.trans hyz.symm⟩

end Numbers

/-! ### Finite numbers -/

/-- The place of a finite number. -/
def signedRank (negative : Bool) (r : Rank) : Int :=
  if negative then -(r.val : Int) else r.val

theorem numLt_finite (s t : Bool) (a b : Rank) :
    numLt (finite s a) (finite t b) = decide (signedRank s a < signedRank t b) := rfl

theorem numLe_finite (s t : Bool) (a b : Rank) :
    numLe (finite s a) (finite t b) = decide (signedRank s a ≤ signedRank t b) := rfl

theorem numEq_finite (s t : Bool) (a b : Rank) :
    numEq (finite s a) (finite t b) = decide (signedRank s a = signedRank t b) := rfl

theorem numLe_nan (x : Binary64) : numLe x nan = false := by
  unfold numLe compareBy
  cases x.place? <;> rfl

theorem signedUnits_lt_iff (s t : Bool) (a b : Rank) :
    signedUnits s a < signedUnits t b ↔ signedRank s a < signedRank t b := by
  have hab : units a < units b ↔ a.val < b.val := Rank.units_strictMono.lt_iff_lt
  have hba : units b < units a ↔ b.val < a.val := Rank.units_strictMono.lt_iff_lt
  have ha := Rank.units_pos_iff a
  have hb := Rank.units_pos_iff b
  unfold signedUnits signedRank
  cases s <;> cases t <;> simp only [if_true, if_false, Bool.false_eq_true] <;> omega

theorem toRat_lt_iff (s t : Bool) (a b : Rank) :
    (finite s a).toRat < (finite t b).toRat ↔ signedRank s a < signedRank t b := by
  show (signedUnits s a : ℚ) / unitsInOne < signedUnits t b / unitsInOne ↔ _
  rw [div_lt_div_iff_of_pos_right unitsInOne_cast_pos, Int.cast_lt, signedUnits_lt_iff]

theorem toRat_eq_iff (s t : Bool) (a b : Rank) :
    (finite s a).toRat = (finite t b).toRat ↔ signedRank s a = signedRank t b := by
  have hab := toRat_lt_iff s t a b
  have hba := toRat_lt_iff t s b a
  constructor
  · intro heq
    have hnot : ¬ signedRank s a < signedRank t b := hab.not.mp heq.not_lt
    have hnot' : ¬ signedRank t b < signedRank s a := hba.not.mp heq.not_gt
    omega
  · intro heq
    exact le_antisymm (not_lt.mp (hba.not.mpr (by omega))) (not_lt.mp (hab.not.mpr (by omega)))

variable {x y : Binary64}

theorem toRat_nonpos_of_isNegative (hx : x.isFinite = true) (h : x.isNegative = true) :
    x.toRat ≤ 0 := by
  obtain ⟨s, r, rfl⟩ := exists_of_isFinite hx
  have hs : s = true := h
  have hnonneg : (0 : ℚ) ≤ Rank.units r / unitsInOne :=
    div_nonneg (Nat.cast_nonneg _) unitsInOne_cast_pos.le
  rw [toRat_finite, hs, signFactor_true]
  linarith

theorem numLt_iff (hx : x.isFinite = true) (hy : y.isFinite = true) :
    numLt x y = true ↔ x.toRat < y.toRat := by
  obtain ⟨s, a, rfl⟩ := exists_of_isFinite hx
  obtain ⟨t, b, rfl⟩ := exists_of_isFinite hy
  rw [numLt_finite, decide_eq_true_iff, toRat_lt_iff]

theorem numLe_iff (hx : x.isFinite = true) (hy : y.isFinite = true) :
    numLe x y = true ↔ x.toRat ≤ y.toRat := by
  obtain ⟨s, a, rfl⟩ := exists_of_isFinite hx
  obtain ⟨t, b, rfl⟩ := exists_of_isFinite hy
  rw [numLe_finite, decide_eq_true_iff, ← not_lt, ← not_lt, toRat_lt_iff]

theorem numEq_iff (hx : x.isFinite = true) (hy : y.isFinite = true) :
    numEq x y = true ↔ x.toRat = y.toRat := by
  obtain ⟨s, a, rfl⟩ := exists_of_isFinite hx
  obtain ⟨t, b, rfl⟩ := exists_of_isFinite hy
  rw [numEq_finite, decide_eq_true_iff, toRat_eq_iff]

/-- Apart from the zeros, a number is determined by its signed rank. -/
theorem finite_eq_of_signedRank_eq {s t : Bool} {a b : Rank} (ha : 0 < a.val)
    (h : signedRank s a = signedRank t b) : finite s a = finite t b := by
  unfold signedRank at h
  have hst : s = t := by
    by_contra hne
    obtain rfl : s = !t := Bool.eq_not.mpr hne
    cases t <;> simp only [Bool.not_true, Bool.not_false, if_true, if_false,
      Bool.false_eq_true] at h <;> omega
  subst hst
  have hab : a.val = b.val := by
    cases s <;> simp only [if_true, if_false, Bool.false_eq_true] at h <;> omega
  rw [Fin.ext hab]

/-! ### Nearest numbers -/

theorem exists_signedRank {k : Int} (h : k.natAbs < 0x7ff0000000000000) :
    ∃ s r, signedRank s r = k := by
  refine ⟨decide (k < 0), ⟨k.natAbs, h⟩, ?_⟩
  unfold signedRank
  by_cases hneg : k < 0
  · rw [if_pos (decide_eq_true hneg)]
    show -((k.natAbs : Nat) : Int) = k
    omega
  · rw [decide_eq_false hneg, if_neg Bool.false_ne_true]
    show ((k.natAbs : Nat) : Int) = k
    omega

/-- Between two numbers of even rank lies another one. -/
theorem exists_between {s t : Bool} {a b : Rank} (ha : a.val % 2 = 0) (hb : b.val % 2 = 0)
    (h : (finite s a).toRat < (finite t b).toRat) :
    ∃ z : Binary64, z.isFinite = true ∧ (finite s a).toRat < z.toRat ∧
      z.toRat < (finite t b).toRat := by
  rw [toRat_lt_iff] at h
  have hbound : (signedRank s a + 1).natAbs < 0x7ff0000000000000 ∧
      signedRank s a + 1 < signedRank t b := by
    unfold signedRank at *
    cases s <;> cases t <;> simp only [if_true, if_false, Bool.false_eq_true] at * <;> omega
  obtain ⟨u, c, hc⟩ := exists_signedRank hbound.1
  refine ⟨finite u c, rfl, ?_, ?_⟩
  · rw [toRat_lt_iff, hc]
    omega
  · rw [toRat_lt_iff, hc]
    exact hbound.2

/-- Neither of two nearest numbers is below the other. -/
theorem IsNearest.not_toRat_lt {q : ℚ} (hx : IsNearest q x) (hy : IsNearest q y) :
    ¬ x.toRat < y.toRat := by
  intro hlt
  have htie : |x.toRat - q| = |y.toRat - q| :=
    le_antisymm (hx.nearest y hy.isFinite) (hy.nearest x hx.isFinite)
  obtain ⟨s, a, rfl, ha⟩ := hx.even_of_tie y hy.isFinite hlt.ne' htie.symm
  obtain ⟨t, b, rfl, hb⟩ := hy.even_of_tie _ hx.isFinite hlt.ne htie
  obtain ⟨z, hz, hxz, hzy⟩ := exists_between ha hb hlt
  have hnear := hx.nearest z hz
  have hmid : (finite s a).toRat - q = -((finite t b).toRat - q) := by
    rcases abs_eq_abs.mp htie with heq | heq
    · linarith
    · exact heq
  have hdist : |(finite s a).toRat - q| = q - (finite s a).toRat := by
    rw [abs_of_nonpos (by linarith)]
    ring
  rw [hdist] at hnear
  rcases abs_cases (z.toRat - q) with ⟨habs, -⟩ | ⟨habs, -⟩ <;> linarith

/-- **Numbers nearest to one value are equal as numbers.** -/
theorem IsNearest.toRat_unique {q : ℚ} (hx : IsNearest q x) (hy : IsNearest q y) :
    x.toRat = y.toRat :=
  le_antisymm (not_lt.mp (hy.not_toRat_lt hx)) (not_lt.mp (hx.not_toRat_lt hy))

end Planar.Binary64
