/-
Angles from any source, and the whole turns between them and what they are wrapped to.

A negative angle is first replaced by its remainder, and remainders are exact however
many turns they leave out.  So nothing is lost before the one sum at the end: wrapping
an angle is wrapping its remainder (`exists_wrap_remainder`), and a remainder is above
minus a full turn, where wrapping adds one turn and rounds once.  The exact angle,
turned by whole turns, lies in the half-open range; its rounding may lie on the upper
end (`exists_turned`).  An exact multiple of the turn has the remainder zero, which keeps
the sign and is not turned.

The loop that adds turns until the angle is no longer negative rounds after each of
them.  Above minus a full turn it adds just one, and there the two agree (`turnsUp_iff`).

An angle that is not negative is left as it is, also beyond a full turn.  So the upper
end is kept for all angles up to it, and for no other (`wrap_inRange_iff`).
-/
import Planar.Proofs.Angle
import Planar.Proofs.Binary64.Exact

namespace Planar.Binary64

open Rank (units)

variable {a b x : Binary64}

/-! ### The remainder of an angle -/

/-- A negative angle is wrapped as its remainder is. -/
theorem exists_wrap_remainder {r : Rank} (hpos : 0 < r.val) :
    ∃ c : Rank, c.val < fullTurnRank.val ∧ units c = units r % units fullTurnRank ∧
      wrap (finite true r) = wrap (finite true c) := by
  obtain ⟨c, hlt, hc, hrest⟩ := exists_remainder true false r
    (show 0 < fullTurnRank.val by decide)
  refine ⟨c, hlt, hc, ?_⟩
  have hneg : numLt (finite true r) 0.0 = true := (numLt_zero_iff true r).mpr ⟨rfl, hpos⟩
  unfold wrap
  rw [hneg, fullTurn_eq, hrest, remainder_of_lt true false hlt]
  dsimp only
  rw [if_pos rfl]
  split <;> rfl

/-! ### Whole turns -/

theorem toRat_fullTurn : fullTurn.toRat = units fullTurnRank / unitsInOne := by
  rw [fullTurn_eq, toRat_finite, signFactor_false, one_mul]

theorem isFinite_fullTurn : fullTurn.isFinite = true := by
  rw [fullTurn_eq]
  rfl

theorem toRat_fullTurn_pos : 0 < fullTurn.toRat := by
  have hpos : 0 < units fullTurnRank := (Rank.units_pos_iff _).mpr (by decide)
  rw [toRat_fullTurn]
  exact div_pos (Nat.cast_pos.mpr hpos) unitsInOne_cast_pos

/-- `x` is the angle `a`, turned by `k` whole turns into the range from zero up to a full
turn and rounded once.  A multiple of the full turn becomes the negative zero. -/
structure Turned (a : Binary64) (k : Int) (x : Binary64) : Prop where
  nonneg : 0 ≤ a.toRat + k * fullTurn.toRat
  lt_turn : a.toRat + k * fullTurn.toRat < fullTurn.toRat
  nearest : IsNearest (a.toRat + k * fullTurn.toRat) x
  negativeZero : a.toRat + k * fullTurn.toRat = 0 → x = zero true

/-- Angles that lie whole turns apart are turned to the same angle. -/
theorem Turned.of_congr {k turns : Int} (h : Turned b k x)
    (hab : b.toRat = a.toRat + turns * fullTurn.toRat) : Turned a (turns + k) x := by
  have hsum : a.toRat + ((turns + k : Int) : ℚ) * fullTurn.toRat
      = b.toRat + k * fullTurn.toRat := by
    rw [hab]
    push_cast
    ring
  obtain ⟨hnonneg, hlt, hnearest, hzero⟩ := h
  rw [← hsum] at hnonneg hlt hnearest hzero
  exact ⟨hnonneg, hlt, hnearest, hzero⟩

/-- The negative zero is not turned. -/
theorem turned_zero : Turned (zero true) 0 (zero true) := by
  have hsum : (zero true).toRat + ((0 : Int) : ℚ) * fullTurn.toRat = 0 := by
    rw [toRat_zero, Int.cast_zero, zero_mul, add_zero]
  have hnearest := isNearest_toRat (x := zero true) rfl
  rw [toRat_zero, ← hsum] at hnearest
  exact ⟨hsum.ge, hsum.trans_lt toRat_fullTurn_pos, hnearest, fun _ => rfl⟩

/-- A negative angle above minus a full turn is turned by one turn. -/
theorem turned_negative {c : Rank} (hpos : 0 < c.val) (hlt : c.val < fullTurnRank.val) :
    Turned (finite true c) 1 (finite true c + fullTurn) := by
  have hunits : (units c : ℚ) / unitsInOne < fullTurn.toRat := by
    rw [toRat_fullTurn, div_lt_div_iff_of_pos_right unitsInOne_cast_pos, Nat.cast_lt]
    exact Rank.units_strictMono hlt
  have hcunits : (0 : ℚ) < units c / unitsInOne :=
    div_pos (Nat.cast_pos.mpr ((Rank.units_pos_iff _).mpr hpos)) unitsInOne_cast_pos
  have hvalue : (finite true c).toRat = -(units c / unitsInOne) := by
    rw [toRat_finite, signFactor_true, neg_one_mul]
  have hover := (le_abs_self _).trans_lt (abs_toRat_lt_overflow isFinite_fullTurn)
  have hround := (isRounding_add (x := finite true c) rfl isFinite_fullTurn).1
  have hsum : (finite true c).toRat + fullTurn.toRat
      = (finite true c).toRat + ((1 : Int) : ℚ) * fullTurn.toRat := by
    rw [Int.cast_one, one_mul]
  have hbounds : 0 < (finite true c).toRat + fullTurn.toRat ∧
      (finite true c).toRat + fullTurn.toRat < fullTurn.toRat := by
    constructor <;> linarith
  have hnearest := hround.isNearest (by
    rw [abs_of_pos hbounds.1]
    exact hbounds.2.trans hover)
  rw [hsum] at hbounds hnearest
  exact ⟨hbounds.1.le, hbounds.2, hnearest, fun hzero => absurd hzero hbounds.1.ne'⟩

/-- A remainder is wrapped by one turn or none. -/
theorem exists_turned_of_lt {c : Rank} (hlt : c.val < fullTurnRank.val) :
    ∃ k, Turned (finite true c) k (wrap (finite true c)) := by
  rcases Nat.eq_zero_or_pos c.val with hzero | hpos
  · have hc : finite true c = zero true := congrArg (finite true) (Fin.ext hzero)
    have hwrap : wrap (zero true) = zero true := wrap_of_not_lt (by decide +kernel)
    rw [hc, hwrap]
    exact ⟨0, turned_zero⟩
  · rw [wrap_eq_add hpos hlt]
    exact ⟨1, turned_negative hpos hlt⟩

/-- **A negative angle is turned into the range, and rounded once.** -/
theorem exists_turned {r : Rank} (hpos : 0 < r.val) :
    ∃ k, Turned (finite true r) k (wrap (finite true r)) := by
  obtain ⟨c, hlt, hc, hwrap⟩ := exists_wrap_remainder hpos
  obtain ⟨k, hturned⟩ := exists_turned_of_lt hlt
  have hsplit := Nat.div_add_mod (units r) (units fullTurnRank)
  rw [← hc] at hsplit
  rw [hwrap]
  refine ⟨(units r / units fullTurnRank : Nat) + k, hturned.of_congr ?_⟩
  generalize units r / units fullTurnRank = turns at hsplit
  rw [toRat_fullTurn, toRat_finite, toRat_finite, signFactor_true, ← hsplit]
  push_cast
  ring

theorem Turned.bounds {k : Int} (h : Turned a k x) : 0 ≤ x.toRat ∧ x.toRat ≤ fullTurn.toRat := by
  exact ⟨h.nearest.ge_of_ge representable_zero h.nonneg,
    h.nearest.le_of_le (representable_toRat isFinite_fullTurn) h.lt_turn.le⟩

/-! ### Comparisons with zero -/

theorem numLe_zero_iff (hx : x.isFinite = true) : numLe 0.0 x = true ↔ 0 ≤ x.toRat := by
  rw [positiveZero_eq, numLe_iff rfl hx]
  show (zero false).toRat ≤ x.toRat ↔ _
  rw [toRat_zero]

theorem numLt_zero_eq_false_iff (hx : x.isFinite = true) : numLt x 0.0 = false ↔ 0 ≤ x.toRat := by
  rw [← Bool.not_eq_true, positiveZero_eq, numLt_iff hx rfl, not_lt]
  show (zero false).toRat ≤ x.toRat ↔ _
  rw [toRat_zero]

/-- A negative finite number, by its rank. -/
theorem exists_of_numLt_zero (ha : a.isFinite = true) (hneg : numLt a 0.0 = true) :
    ∃ r : Rank, 0 < r.val ∧ a = finite true r := by
  obtain ⟨s, r, rfl⟩ := exists_of_isFinite ha
  obtain ⟨rfl, hpos⟩ := (numLt_zero_iff s r).mp hneg
  exact ⟨r, hpos, rfl⟩

/-! ### The loop that adds turns -/

/-- The loop that adds a full turn as long as the angle is negative ends at `b` if it is
started at `a`. -/
inductive TurnsUp : Binary64 → Binary64 → Prop
  | done {a : Binary64} (h : numLt a 0.0 = false) : TurnsUp a a
  | turn {a b : Binary64} (h : numLt a 0.0 = true) (rest : TurnsUp (a + fullTurn) b) :
      TurnsUp a b

theorem turnsUp_done_iff (h : numLt a 0.0 = false) : TurnsUp a b ↔ b = a := by
  constructor
  · intro hloop
    cases hloop with
    | done _ => rfl
    | turn hneg _ =>
        rw [h] at hneg
        exact Bool.noConfusion hneg
  · rintro rfl
    exact .done h

theorem turnsUp_turn_iff (h : numLt a 0.0 = true) : TurnsUp a b ↔ TurnsUp (a + fullTurn) b := by
  constructor
  · intro hloop
    cases hloop with
    | done hdone =>
        rw [h] at hdone
        exact Bool.noConfusion hdone
    | turn _ rest => exact rest
  · exact .turn h

/-- **Above minus a full turn the loop ends where wrapping does.** -/
theorem turnsUp_iff {r : Rank} (hpos : 0 < r.val) (h : r.val < fullTurnRank.val) :
    TurnsUp (finite true r) b ↔ b = wrap (finite true r) := by
  have hturned := turned_negative hpos h
  have hnonneg := (numLt_zero_eq_false_iff hturned.nearest.isFinite).mpr hturned.bounds.1
  rw [turnsUp_turn_iff ((numLt_zero_iff true r).mpr ⟨rfl, hpos⟩), wrap_eq_add hpos h,
    turnsUp_done_iff hnonneg]

/-- A negative angle of a direction is above minus a full turn. -/
theorem exists_of_angle_lt {x y : Binary64} (h : numLt (angle y x) 0.0 = true) :
    ∃ r : Rank, 0 < r.val ∧ r.val < fullTurnRank.val ∧ angle y x = finite true r := by
  cases hratio : ratio? y x with
  | none =>
      have hnan : angle y x = nan := by
        unfold angle
        rw [hratio]
      rw [hnan] at h
      exact Bool.noConfusion h
  | some p =>
      obtain ⟨s, r, hangle, hle⟩ := exists_angle_of_ratio hratio
      rw [hangle] at h ⊢
      obtain ⟨rfl, hpos⟩ := (numLt_zero_iff s r).mp h
      exact ⟨r, hpos, hle.trans_lt halfTurnRank_lt, rfl⟩

/-! ### What wrapping does -/

/-- What the negative angle `a` is wrapped to: itself, turned into the range and rounded
once.  It is wrapped no further, and above minus a full turn the loop ends there too. -/
structure Reduced (a x : Binary64) : Prop where
  exists_turns : ∃ k, Turned a k x
  nonneg : numLe 0.0 x = true
  le_turn : numLe x fullTurn = true
  fixed : wrap x = x
  loop_iff : numLt (-fullTurn) a = true → ∀ b, TurnsUp a b ↔ b = x

theorem numLt_neg_fullTurn_iff (r : Rank) :
    numLt (-fullTurn) (finite true r) = true ↔ r.val < fullTurnRank.val := by
  rw [fullTurn_eq]
  show numLt (finite true fullTurnRank) (finite true r) = true ↔ _
  rw [numLt_finite, decide_eq_true_iff]
  unfold signedRank
  simp only [if_true]
  omega

theorem reduced_wrap (ha : a.isFinite = true) (hneg : numLt a 0.0 = true) :
    Reduced a (wrap a) := by
  obtain ⟨r, hpos, rfl⟩ := exists_of_numLt_zero ha hneg
  obtain ⟨k, hturned⟩ := exists_turned hpos
  have hfinite := hturned.nearest.isFinite
  obtain ⟨hnonneg, hle⟩ := hturned.bounds
  exact {
    exists_turns := ⟨k, hturned⟩
    nonneg := (numLe_zero_iff hfinite).mpr hnonneg
    le_turn := (numLe_iff hfinite isFinite_fullTurn).mpr hle
    fixed := wrap_of_not_lt ((numLt_zero_eq_false_iff hfinite).mpr hnonneg)
    loop_iff := by
      intro hlt b
      exact turnsUp_iff hpos ((numLt_neg_fullTurn_iff r).mp hlt) }

/-- **Every negative angle is reduced exactly, up to one final rounding, and where it comes
from a direction the loop that adds turns ends at the same angle.** -/
theorem wrap_reduces :
    (∀ a : Binary64, a.isFinite = true → numLt a 0.0 = true → Reduced a (wrap a)) ∧
    (∀ x y : Binary64, numLt (angle y x) 0.0 = true → numLt (-fullTurn) (angle y x) = true ∧
      ∀ b, TurnsUp (angle y x) b ↔ b = wrap (angle y x)) := by
  refine ⟨fun _ => reduced_wrap, ?_⟩
  intro x y hneg
  obtain ⟨r, hpos, hlt, hangle⟩ := exists_of_angle_lt hneg
  rw [hangle]
  exact ⟨(numLt_neg_fullTurn_iff r).mpr hlt, fun _ => turnsUp_iff hpos hlt⟩

/-- An angle of 2^994 turns, and a direction just short of the first axis. -/
theorem wrap_reduces_far :
    ((-1e300 : Binary64).isFinite = true ∧ numLt (-1e300) 0.0 = true ∧
      Reduced (-1e300) (wrap (-1e300))) ∧
    (numLt (angle (-1e-17) 1.0) 0.0 = true ∧ numLt (-fullTurn) (angle (-1e-17) 1.0) = true ∧
      ∀ b, TurnsUp (angle (-1e-17) 1.0) b ↔ b = wrap (angle (-1e-17) 1.0)) := by
  have hfinite : (-1e300 : Binary64).isFinite = true := by decide +kernel
  have hneg : numLt (-1e300) 0.0 = true := by decide +kernel
  have hangle : numLt (angle (-1e-17) 1.0) 0.0 = true := by decide +kernel
  exact ⟨⟨hfinite, hneg, wrap_reduces.1 _ hfinite hneg⟩, hangle, wrap_reduces.2 _ _ hangle⟩

/-- **Wrapping turns any angle by whole turns, up to one final rounding, and to zero or
above; but it ends within a full turn exactly if the angle did not start beyond one.** -/
theorem wrap_inRange_iff (a : Binary64) (ha : a.isFinite = true) :
    (∃ k : Int, IsNearest (a.toRat + k * fullTurn.toRat) (wrap a)) ∧
    numLe 0.0 (wrap a) = true ∧
    (numLe (wrap a) fullTurn = true ↔ numLe a fullTurn = true) ∧
    (numLt a 0.0 = false → wrap a = a) := by
  have hturn := toRat_fullTurn_pos
  cases hneg : numLt a 0.0 with
  | true =>
      have hreduced := reduced_wrap ha hneg
      obtain ⟨k, hturned⟩ := hreduced.exists_turns
      have hle : a.toRat ≤ fullTurn.toRat := by
        rw [positiveZero_eq, numLt_iff ha rfl] at hneg
        have hlt : a.toRat < (zero false).toRat := hneg
        rw [toRat_zero] at hlt
        linarith
      refine ⟨⟨k, hturned.nearest⟩, hreduced.nonneg, ?_, fun h => Bool.noConfusion h⟩
      rw [hreduced.le_turn, (numLe_iff ha isFinite_fullTurn).mpr hle]
  | false =>
      have hwrap := wrap_of_not_lt hneg
      have hnonneg := (numLt_zero_eq_false_iff ha).mp hneg
      rw [hwrap]
      refine ⟨⟨0, ?_⟩, (numLe_zero_iff ha).mpr hnonneg, Iff.rfl, fun _ => rfl⟩
      rw [Int.cast_zero, zero_mul, add_zero]
      exact isNearest_toRat ha

/-- An angle beyond a full turn, on the positive side. -/
theorem wrap_inRange_iff_seven :
    (7.0 : Binary64).isFinite = true ∧ numLt 7.0 0.0 = false ∧
    (∃ k : Int, IsNearest ((7.0 : Binary64).toRat + k * fullTurn.toRat) (wrap 7.0)) ∧
    numLe 0.0 (wrap 7.0) = true ∧
    (numLe (wrap 7.0) fullTurn = true ↔ numLe 7.0 fullTurn = true) ∧ wrap 7.0 = 7.0 := by
  have hfinite : (7.0 : Binary64).isFinite = true := by decide +kernel
  have hnot : numLt 7.0 0.0 = false := by decide +kernel
  obtain ⟨hturns, hnonneg, hle, hfixed⟩ := wrap_inRange_iff 7.0 hfinite
  exact ⟨hfinite, hnot, hturns, hnonneg, hle, hfixed hnot⟩

/-- It is not wrapped into the range, where its negative is. -/
theorem wrap_beyond_turn :
    (7.0 : Binary64).isFinite = true ∧ numLe (wrap 7.0) fullTurn = false ∧
      numLe (wrap (-7.0)) fullTurn = true := by
  decide +kernel

end Planar.Binary64
