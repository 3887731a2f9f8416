/-
How far a wrapped angle goes.

A negative angle above minus a full turn is its own remainder, so wrapping it is one
sum, the full turn less the magnitude, rounded once.  Near the full turn the numbers
below it are 2^-50 apart.  A magnitude of more than half of that leaves a sum nearer
to a number below the full turn.  Up to half of that, the tie included because the
rank of the full turn is even, the sum is rounded to the full turn itself: those
angles are the seam (`AtSeam`).

In degrees the product is rounded once more.  Rounding keeps the order, and the
number of degrees of the full turn is the first to reach 360, so the second rounding
moves nothing to 360 that the first did not move to the full turn.
-/
import Planar.Angle
import Planar.Proofs.Binary64.Arithmetic
import Planar.Proofs.Binary64.Order

namespace Planar.Binary64

open Rank (units boundary scale)

/-! ### The constants -/

/-- The rank of a full turn in radians. -/
def fullTurnRank : Rank := ⟨0x401921fb54442d18, by decide⟩

/-- The rank of the degrees in a radian. -/
def degreesPerRadianRank : Rank := ⟨0x404ca5dc1a63c1f8, by decide⟩

/-- The rank of 360. -/
def fullCircleRank : Rank := ⟨0x4076800000000000, by decide⟩

theorem pi_eq : pi = finite false ⟨halfTurnRank, by decide⟩ := by decide +kernel

theorem fullTurn_eq : fullTurn = finite false fullTurnRank := by decide +kernel

theorem degreesPerRadian_eq : degreesPerRadian = finite false degreesPerRadianRank := by
  have hhalf : (180.0 : Binary64) = finite false ⟨0x4066800000000000, by decide⟩ := by
    decide +kernel
  have hdiv : div (finite false ⟨0x4066800000000000, by decide⟩) (finite false ⟨halfTurnRank,
      by decide⟩) = finite false degreesPerRadianRank := by
    decide +kernel
  exact (congrArg₂ div hhalf pi_eq).trans hdiv

theorem fullCircle_eq : (360.0 : Binary64) = finite false fullCircleRank := by decide +kernel

/-! ### Angles of directions -/

theorem exists_ofRank_min (s : Bool) (n : Nat) :
    ∃ r : Rank, ofRank s (min n halfTurnRank) = finite s r ∧ r.val ≤ halfTurnRank := by
  have hle : min n halfTurnRank ≤ halfTurnRank := Nat.min_le_right _ _
  have hend : halfTurnRank < 0x7ff0000000000000 := by decide
  exact ⟨⟨_, hle.trans_lt hend⟩, ofRank_val s ⟨_, hle.trans_lt hend⟩, hle⟩

/-- The angle of a direction without a NaN is finite and at most half a turn. -/
theorem exists_angle_of_ratio {x y : Binary64} {p : Nat × Nat} (h : ratio? y x = some p) :
    ∃ s, ∃ r : Rank, angle y x = finite s r ∧ r.val ≤ halfTurnRank := by
  unfold angle
  split
  · next hnone => exact absurd (h.symm.trans hnone) (Option.some_ne_none p)
  · split
    · exact ⟨_, ⟨0, by decide⟩, rfl, Nat.zero_le _⟩
    · split
      next rank _ => exact ⟨_, exists_ofRank_min _ rank⟩

theorem exists_angle {x y : Binary64} (hx : x.isFinite = true) (hy : y.isFinite = true) :
    ∃ s, ∃ r : Rank, angle y x = finite s r ∧ r.val ≤ halfTurnRank := by
  obtain ⟨t, a, rfl⟩ := exists_of_isFinite hx
  obtain ⟨s, b, rfl⟩ := exists_of_isFinite hy
  exact exists_angle_of_ratio rfl

theorem halfTurnRank_lt : halfTurnRank < fullTurnRank.val := by decide

/-! ### Wrapping -/

/-- Below zero are the numbers with the sign, but for the negative zero. -/
theorem numLt_zero_iff (s : Bool) (r : Rank) :
    numLt (finite s r) 0.0 = true ↔ s = true ∧ 0 < r.val := by
  have hzero : signedRank false ⟨0, by decide⟩ = 0 := rfl
  rw [positiveZero_eq, numLt_finite, decide_eq_true_iff, hzero]
  unfold signedRank
  cases s <;> simp

theorem wrap_of_not_lt {a : Binary64} (h : numLt a 0.0 = false) : wrap a = a := by
  unfold wrap
  rw [h]
  rfl

/-- A negative angle above minus a full turn is its own remainder. -/
theorem wrap_eq_add {r : Rank} (hpos : 0 < r.val) (h : r.val < fullTurnRank.val) :
    wrap (finite true r) = finite true r + fullTurn := by
  have hlt : numLt (finite true r) 0.0 = true := (numLt_zero_iff true r).mpr ⟨rfl, hpos⟩
  unfold wrap
  rw [hlt, fullTurn_eq, remainder_of_lt true false h]
  dsimp only
  rw [hlt]
  exact if_pos rfl

/-- What it is wrapped to is the full turn less its magnitude. -/
theorem wrap_negative {r : Rank} (hpos : 0 < r.val) (h : r.val < fullTurnRank.val) :
    wrap (finite true r) = ofUnits false (units fullTurnRank - units r) 1 := by
  have hunits : units r < units fullTurnRank := Rank.units_strictMono h
  have hsum : signedUnits true r + signedUnits false fullTurnRank
      = ((units fullTurnRank - units r : Nat) : Int) := by
    unfold signedUnits
    simp only [if_true, Bool.false_eq_true, if_false]
    omega
  have hne : ((units fullTurnRank - units r : Nat) : Int) ≠ 0 := by omega
  have hsign : decide (((units fullTurnRank - units r : Nat) : Int) < 0) = false := by
    rw [decide_eq_false_iff_not]
    omega
  rw [wrap_eq_add hpos h, fullTurn_eq, add_finite, hsum, if_neg hne, hsign, Int.natAbs_natCast]

/-- The sum is at most the full turn, and less than it if the magnitude is more than
half the distance to the number below. -/
theorem nearestRank_turn {r : Rank} (h : r.val < fullTurnRank.val) :
    nearestRank (units fullTurnRank - units r) 1 ≤ fullTurnRank.val ∧
    (nearestRank (units fullTurnRank - units r) 1 < fullTurnRank.val ↔ 2 ^ 1024 < 2 * units r) := by
  have hunits : units r < units fullTurnRank := Rank.units_strictMono h
  constructor
  · have hle : (units fullTurnRank - units r) * 1 ≤ units fullTurnRank * 1 * 1 := by omega
    have hmono := nearestRank_mono Nat.one_pos Nat.one_pos hle
    rwa [nearestRank_units _ Nat.one_pos] at hmono
  · have hbelow : fullTurnRank.val = 0x401921fb54442d17 + 1 := rfl
    have hodd : 0x401921fb54442d17 % 2 = 1 := by decide
    have hscale : scale 0x401921fb54442d17 = 1024 := by decide
    have hstep := Rank.units_succ 0x401921fb54442d17
    rw [hscale] at hstep
    rw [hbelow] at hunits ⊢
    rw [Nat.lt_succ_iff, nearestRank_le_iff Nat.one_pos]
    unfold Within boundary
    generalize 0x401921fb54442d17 = below at *
    generalize 2 ^ 1024 = step at *
    omega

/-- The negative angles that are wrapped to the full turn. -/
def AtSeam (a : Binary64) : Prop := -(1 / 2 ^ 51) ≤ a.toRat ∧ a.toRat < 0

theorem div_unitsInOne_le (n : Nat) : (n : ℚ) / unitsInOne ≤ 1 / 2 ^ 51 ↔ 2 * n ≤ 2 ^ 1024 := by
  have hpow (k e : Nat) (he : e = k + 50) :
      (n : ℚ) / (2 ^ e : Nat) ≤ 1 / 2 ^ 51 ↔ 2 * n ≤ 2 ^ k := by
    have hk : (0 : ℚ) < 2 ^ (k + 50) := pow_pos (by norm_num) _
    rw [he, Nat.cast_pow, Nat.cast_ofNat, div_le_div_iff₀ hk (by norm_num), one_mul, pow_add,
      ← Nat.cast_le (α := ℚ)]
    push_cast
    constructor <;> intro h <;> linarith
  rw [unitsInOne_eq]
  exact hpow 1024 1074 rfl

theorem atSeam_finite (s : Bool) (r : Rank) :
    AtSeam (finite s r) ↔ s = true ∧ 0 < r.val ∧ 2 * units r ≤ 2 ^ 1024 := by
  have hU := unitsInOne_cast_pos
  unfold AtSeam
  rw [toRat_finite, ← div_unitsInOne_le, ← Rank.units_pos_iff, ← Nat.cast_pos (α := ℚ)]
  cases s with
  | true =>
      rw [signFactor_true, neg_one_mul, neg_le_neg_iff, neg_lt_zero, div_pos_iff_of_pos_right hU]
      exact ⟨fun h => ⟨rfl, h.2, h.1⟩, fun h => ⟨h.2.2, h.2.1⟩⟩
  | false =>
      have hge : (0 : ℚ) ≤ signFactor false * (units r / unitsInOne) := by
        rw [signFactor_false, one_mul]
        exact div_nonneg (Nat.cast_nonneg _) hU.le
      constructor
      · intro h
        exact absurd h.2 (not_lt.mpr hge)
      · intro h
        simp at h

/-- What wrapping gives for an angle of at most half a turn. -/
theorem exists_wrap (s : Bool) {r : Rank} (h : r.val ≤ halfTurnRank) :
    ∃ t, ∃ n : Rank, wrap (finite s r) = finite t n ∧ (t = true → n.val = 0) ∧
      n.val ≤ fullTurnRank.val ∧ (n.val < fullTurnRank.val ↔ ¬ AtSeam (finite s r)) := by
  have hlt : r.val < fullTurnRank.val := h.trans_lt halfTurnRank_lt
  rw [atSeam_finite]
  by_cases hneg : s = true ∧ 0 < r.val
  · obtain ⟨rfl, hpos⟩ := hneg
    obtain ⟨hle, hiff⟩ := nearestRank_turn hlt
    rw [wrap_negative hpos hlt]
    refine ⟨false, ⟨_, hle.trans_lt fullTurnRank.isLt⟩, ofRank_val false ⟨_, _⟩, by simp, hle, ?_⟩
    rw [hiff]
    constructor
    · intro hfar hseam
      omega
    · intro hseam
      by_contra hnear
      exact hseam ⟨rfl, hpos, by omega⟩
  · have hnot : numLt (finite s r) 0.0 = false := by
      rw [← Bool.not_eq_true, numLt_zero_iff]
      exact hneg
    rw [wrap_of_not_lt hnot]
    refine ⟨s, r, rfl, ?_, hlt.le, ?_⟩
    · intro hs
      by_contra hne
      exact hneg ⟨hs, Nat.pos_of_ne_zero hne⟩
    · exact ⟨fun _ hseam => hneg ⟨hseam.1, hseam.2.1⟩, fun _ => hlt⟩

/-! ### Degrees -/

theorem nearestRank_degrees_fullTurn :
    nearestRank (units fullTurnRank * units degreesPerRadianRank) unitsInOne = fullCircleRank.val := by
  decide +kernel

theorem nearestRank_degrees_below :
    nearestRank (units 0x401921fb54442d17 * units degreesPerRadianRank) unitsInOne
      < fullCircleRank.val := by
  decide +kernel

/-- The degrees reach 360 exactly where the radians reach the full turn. -/
theorem exists_degrees (t : Bool) {n : Rank} (h : n.val ≤ fullTurnRank.val) :
    ∃ m : Rank, finite t n * degreesPerRadian = finite t m ∧ (n.val = 0 → m.val = 0) ∧
      m.val ≤ fullCircleRank.val ∧ (m.val < fullCircleRank.val ↔ n.val < fullTurnRank.val) := by
  have hmono {a b : Nat} (hab : a ≤ b) :
      nearestRank (units a * units degreesPerRadianRank) unitsInOne
        ≤ nearestRank (units b * units degreesPerRadianRank) unitsInOne :=
    nearestRank_mono unitsInOne_pos unitsInOne_pos
      (Nat.mul_le_mul_right _ (Nat.mul_le_mul_right _ (Rank.units_strictMono.monotone hab)))
  have hle := hmono h
  rw [nearestRank_degrees_fullTurn] at hle
  have hmul : finite t n * degreesPerRadian
      = ofUnits (t ^^ false) (units n * units degreesPerRadianRank) unitsInOne := by
    rw [degreesPerRadian_eq]
    rfl
  rw [hmul, Bool.xor_false]
  refine ⟨⟨_, hle.trans_lt fullCircleRank.isLt⟩, ofRank_val t ⟨_, _⟩, ?_, hle, ?_⟩
  · intro hzero
    show nearestRank (units n * units degreesPerRadianRank) unitsInOne = 0
    rw [hzero, Rank.units_zero, Nat.zero_mul, nearestRank_zero unitsInOne_pos]
  · constructor
    · intro hless
      by_contra hfull
      have heq : n.val = fullTurnRank.val := by omega
      refine absurd hless ?_
      show ¬ nearestRank (units n * units degreesPerRadianRank) unitsInOne < _
      rw [heq, nearestRank_degrees_fullTurn]
      exact lt_irrefl _
    · intro hless
      have hbelow : n.val ≤ 0x401921fb54442d17 := Nat.le_of_lt_succ hless
      exact (hmono hbelow).trans_lt nearestRank_degrees_below

/-! ### The ranges -/

/-- The ranges of the radians and the degrees that an angle becomes: from zero up to
a full turn, which is reached at the seam and nowhere else. -/
structure InTurn (a radians degrees : Binary64) : Prop where
  radians_nonneg : numLe 0.0 radians = true
  radians_le : numLe radians fullTurn = true
  radians_lt_iff : numLt radians fullTurn = true ↔ ¬ AtSeam a
  degrees_nonneg : numLe 0.0 degrees = true
  degrees_le : numLe degrees 360.0 = true
  degrees_lt_iff : numLt degrees 360.0 = true ↔ ¬ AtSeam a

/-- Comparisons of a number that is negative only as a zero. -/
theorem compare_nonneg {t : Bool} {n : Rank} (ht : t = true → n.val = 0) (b : Rank) :
    numLe 0.0 (finite t n) = true ∧
    (numLe (finite t n) (finite false b) = true ↔ n.val ≤ b.val) ∧
    (numLt (finite t n) (finite false b) = true ↔ n.val < b.val) := by
  have hplace : signedRank t n = n.val := by
    unfold signedRank
    cases t with
    | true => simp [ht rfl]
    | false => simp
  have hbound : signedRank false b = b.val := rfl
  rw [positiveZero_eq, numLe_finite, numLe_finite, numLt_finite, hplace, hbound]
  simp only [decide_eq_true_iff]
  refine ⟨?_, Int.ofNat_le, Int.ofNat_lt⟩
  exact Int.natCast_nonneg n.val

theorem inTurn_of_le_halfTurn (s : Bool) {r : Rank} (h : r.val ≤ halfTurnRank) :
    InTurn (finite s r) (wrap (finite s r)) (wrap (finite s r) * degreesPerRadian) := by
  obtain ⟨t, n, hwrap, htn, hle, hiff⟩ := exists_wrap s h
  obtain ⟨m, hmul, hzero, hmle, hmiff⟩ := exists_degrees t hle
  obtain ⟨hradians, hrle, hrlt⟩ := compare_nonneg htn fullTurnRank
  obtain ⟨hdegrees, hdle, hdlt⟩ :=
    compare_nonneg (fun ht => hzero (htn ht)) fullCircleRank
  rw [hwrap, hmul]
  rw [← fullTurn_eq] at hrle hrlt
  rw [← fullCircle_eq] at hdle hdlt
  exact {
    radians_nonneg := hradians
    radians_le := hrle.mpr hle
    radians_lt_iff := hrlt.trans hiff
    degrees_nonneg := hdegrees
    degrees_le := hdle.mpr hmle
    degrees_lt_iff := hdlt.trans (hmiff.trans hiff) }

end Planar.Binary64
