/-
Operations whose exact result is a number of the format.

Every operation rounds once, and rounding changes no magnitude of the format.  So
where the exact result is such a magnitude the operation is exact: a number counted
in units is itself (`ofUnits_signedUnits`), and so is its remainder by something
greater (`remainder_of_lt`) and what is left of it when the positive zero is taken
away, the sign of zero included (`sub_positiveZero`).
-/
import Planar.Binary64.Arithmetic
import Planar.Proofs.Binary64.Value

namespace Planar.Binary64

open Rank (units)

theorem positiveZero_eq : (0.0 : Binary64) = finite false ⟨0, by decide⟩ := by decide +kernel

theorem ofUnits_units_one (s : Bool) (r : Rank) : ofUnits s (units r) 1 = finite s r := by
  have h := ofUnits_units s r Nat.one_pos
  rwa [Nat.mul_one] at h

theorem signedUnits_eq_zero_iff (s : Bool) (r : Rank) : signedUnits s r = 0 ↔ r.val = 0 := by
  have hpos := Rank.units_pos_iff r
  unfold signedUnits
  cases s <;> simp only [if_true, Bool.false_eq_true, if_false] <;> omega

theorem add_finite (s t : Bool) (a b : Rank) :
    finite s a + finite t b
      = if signedUnits s a + signedUnits t b = 0 then zero (s && t)
        else ofUnits (decide (signedUnits s a + signedUnits t b < 0))
          (signedUnits s a + signedUnits t b).natAbs 1 := rfl

theorem mul_finite (s t : Bool) (a b : Rank) :
    finite s a * finite t b = ofUnits (s ^^ t) (units a * units b) unitsInOne := by
  show mul (finite s a) (finite t b) = _
  unfold mul
  rfl

theorem toRat_finite_eq_zero_iff (s : Bool) (r : Rank) : (finite s r).toRat = 0 ↔ r.val = 0 := by
  show (signedUnits s r : ℚ) / unitsInOne = 0 ↔ _
  rw [div_eq_zero_iff, or_iff_left unitsInOne_cast_pos.ne', Int.cast_eq_zero,
    signedUnits_eq_zero_iff]

theorem toRat_eq_zero_iff {x : Binary64} (hx : x.isFinite = true) :
    x.toRat = 0 ↔ ∃ s, x = zero s := by
  obtain ⟨s, r, rfl⟩ := exists_of_isFinite hx
  rw [toRat_finite_eq_zero_iff]
  constructor
  · intro hr
    exact ⟨s, congrArg (finite s) (Fin.ext hr)⟩
  · rintro ⟨t, heq⟩
    injection heq with _ hr
    rw [hr]

theorem toRat_zero (s : Bool) : (zero s).toRat = 0 := (toRat_eq_zero_iff rfl).mpr ⟨s, rfl⟩

/-- A number that is not zero, counted in units, is itself. -/
theorem ofUnits_signedUnits (s : Bool) {r : Rank} (hr : r.val ≠ 0) :
    ofUnits (decide (signedUnits s r < 0)) (signedUnits s r).natAbs 1 = finite s r := by
  have hpos : 0 < units r := (Rank.units_pos_iff r).mpr (Nat.pos_of_ne_zero hr)
  have hsign : decide (signedUnits s r < 0) = s := by
    unfold signedUnits
    cases s with
    | true =>
        rw [if_pos rfl, decide_eq_true_iff]
        omega
    | false => simp
  have hsize : (signedUnits s r).natAbs = units r := by
    unfold signedUnits
    cases s <;> simp
  rw [hsign, hsize, ofUnits_units_one]

/-- A smaller magnitude is its own remainder. -/
theorem remainder_of_lt (s t : Bool) {a b : Rank} (h : a.val < b.val) :
    remainder (finite s a) (finite t b) = finite s a := by
  show (if b.val = 0 then nan else ofUnits s (units a % units b) 1) = _
  rw [if_neg (Nat.ne_zero_of_lt h), Nat.mod_eq_of_lt (Rank.units_strictMono h), ofUnits_units_one]

/-- Taking the positive zero away changes nothing. -/
theorem sub_positiveZero (x : Binary64) : x - 0.0 = x := by
  rw [positiveZero_eq]
  cases x with
  | nan => rfl
  | infinite s => rfl
  | finite s r =>
      have hzero : signedUnits true ⟨0, by decide⟩ = 0 := (signedUnits_eq_zero_iff _ _).mpr rfl
      show finite s r + finite true ⟨0, by decide⟩ = _
      rw [add_finite, hzero, Int.add_zero]
      by_cases hr : r.val = 0
      · rw [if_pos ((signedUnits_eq_zero_iff s r).mpr hr), Bool.and_true]
        exact congrArg (finite s) (Fin.ext hr.symm)
      · rw [if_neg (fun h => hr ((signedUnits_eq_zero_iff s r).mp h))]
        exact ofUnits_signedUnits s hr

end Planar.Binary64
