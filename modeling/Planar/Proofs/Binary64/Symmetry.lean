/-
Arithmetic with the signs turned and the operands exchanged.

A rounded result is a sign and the rounding of a magnitude, and the magnitude is rounded
without regard to the sign.  So turning the sign of a result is rounding with the other sign
(`neg_ofUnits`), and operands that are exchanged, or both turned, give the same magnitude.
What is left are the results whose sign does not come from the operation: a NaN has none,
and an exact sum of zero is the positive zero, whichever way round it was computed.

This is why a difference taken the other way round is the negative number, except that both
can be the positive zero (`sub_swap`).
-/
import Planar.Proofs.Binary64.Arithmetic
import Planar.Scalar

namespace Planar.Binary64

open Rank (units)

theorem sub_eq_add_neg (x y : Binary64) : x - y = x + -y := rfl

@[simp] theorem neg_nan : -nan = nan := rfl

@[simp] theorem neg_infinite (s : Bool) : -infinite s = infinite !s := rfl

@[simp] theorem neg_finite (s : Bool) (r : Rank) : -finite s r = finite (!s) r := rfl

theorem neg_neg (x : Binary64) : - -x = x := by
  cases x <;> simp

theorem neg_ofUnits (s : Bool) (n d : Nat) : -ofUnits s n d = ofUnits (!s) n d := by
  unfold ofUnits ofRank
  split <;> rfl

/-! ### Products -/

theorem mul_comm (x y : Binary64) : x * y = y * x := by
  cases x with
  | nan => cases y <;> rfl
  | infinite s =>
      cases y with
      | nan => rfl
      | infinite t => exact congrArg infinite (Bool.xor_comm s t)
      | finite t b =>
          show (if b.val = 0 then nan else infinite (s ^^ t))
            = if b.val = 0 then nan else infinite (t ^^ s)
          rw [Bool.xor_comm]
  | finite s a =>
      cases y with
      | nan => rfl
      | infinite t =>
          show (if a.val = 0 then nan else infinite (s ^^ t))
            = if a.val = 0 then nan else infinite (t ^^ s)
          rw [Bool.xor_comm]
      | finite t b => rw [mul_finite, mul_finite, Bool.xor_comm, Nat.mul_comm]

/-- The square forgets the sign. -/
theorem square_neg (x : Binary64) : square (-x) = square x := by
  unfold square
  cases x with
  | nan => rfl
  | infinite s => cases s <;> rfl
  | finite s a =>
      rw [neg_finite, mul_finite, mul_finite]
      cases s <;> rfl

theorem negativeOne_eq : ∃ r : Rank, (-1.0 : Binary64) = finite true r ∧ units r = unitsInOne := by
  refine ⟨⟨0x3ff0000000000000, by decide⟩, ?_, ?_⟩ <;> decide +kernel

/-- The product with -1 is the number with the other sign. -/
theorem mul_negativeOne (x : Binary64) : x * -1.0 = -x := by
  obtain ⟨r, hone, hunits⟩ := negativeOne_eq
  rw [hone]
  cases x with
  | nan => rfl
  | infinite s =>
      have hne : r.val ≠ 0 := by
        intro hzero
        rw [hzero, Rank.units_zero] at hunits
        exact unitsInOne_pos.ne hunits
      show (if r.val = 0 then nan else infinite (s ^^ true)) = _
      rw [if_neg hne, Bool.xor_true, neg_infinite]
  | finite s a =>
      rw [mul_finite, hunits, ofUnits_units _ _ unitsInOne_pos, Bool.xor_true, neg_finite]

/-! ### Sums and differences -/

theorem add_comm (x y : Binary64) : x + y = y + x := by
  cases x with
  | nan => cases y <;> rfl
  | infinite s =>
      cases y with
      | nan => rfl
      | infinite t =>
        show (if s = t then infinite s else nan) = if t = s then infinite t else nan
        by_cases h : s = t
        · rw [h]
        · rw [if_neg h, if_neg (Ne.symm h)]
      | finite t b => rfl
  | finite s a =>
      cases y with
      | nan => rfl
      | infinite t => rfl
      | finite t b => rw [add_finite, add_finite, Int.add_comm, Bool.and_comm]

theorem signedUnits_not (s : Bool) (r : Rank) : signedUnits (!s) r = -signedUnits s r := by
  cases s <;> simp [signedUnits]

/-- A sum of two opposite summands is the negative sum, or both are the positive zero. -/
theorem add_neg_neg (s t : Bool) (a b : Rank) :
    finite s a + finite t b = -(finite (!s) a + finite (!t) b) ∨
      (finite s a + finite t b = zero false ∧ finite (!s) a + finite (!t) b = zero false) := by
  have hsum : signedUnits (!s) a + signedUnits (!t) b
      = -(signedUnits s a + signedUnits t b) := by
    rw [signedUnits_not, signedUnits_not, Int.neg_add]
  rw [add_finite, add_finite, hsum]
  by_cases hzero : signedUnits s a + signedUnits t b = 0
  · rw [if_pos hzero, if_pos (by omega)]
    -- An exact zero is the positive one unless both summands are negative.
    cases s <;> cases t <;> simp [zero]
  · left
    rw [if_neg hzero, if_neg (by omega), neg_ofUnits, Int.natAbs_neg]
    have hsign : decide (signedUnits s a + signedUnits t b < 0)
        = !decide (-(signedUnits s a + signedUnits t b) < 0) := by
      by_cases hneg : signedUnits s a + signedUnits t b < 0
      · rw [decide_eq_true hneg, decide_eq_false (by omega), Bool.not_false]
      · rw [decide_eq_false hneg, decide_eq_true (by omega), Bool.not_true]
    rw [hsign]

/-- **A difference the other way round is the negative number**, or both are the positive
zero. -/
theorem sub_swap (x y : Binary64) :
    x - y = -(y - x) ∨ (x - y = zero false ∧ y - x = zero false) := by
  cases x with
  | nan =>
      left
      cases y <;> rfl
  | infinite s =>
      left
      cases y with
      | nan => rfl
      | infinite t => cases s <;> cases t <;> rfl
      | finite t b => cases s <;> rfl
  | finite s a =>
      cases y with
      | nan =>
          left
          rfl
      | infinite t =>
          left
          rw [sub_eq_add_neg, sub_eq_add_neg]
          cases t <;> rfl
      | finite t b =>
          have h := add_neg_neg s (!t) a b
          rw [Bool.not_not, add_comm (finite (!s) a)] at h
          exact h

/-- The square of a difference is the same whichever way round it is taken. -/
theorem square_sub_swap (x y : Binary64) : square (x - y) = square (y - x) := by
  obtain hneg | ⟨hzero, hzero'⟩ := sub_swap x y
  · rw [hneg, square_neg]
  · rw [hzero, hzero']

end Planar.Binary64
