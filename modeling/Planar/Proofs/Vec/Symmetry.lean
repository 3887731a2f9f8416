/-
The symmetries of the plane, exactly.

The distance is symmetric, the inner product is symmetric, the spanned area changes its sign
with the order, and taking a vector away is adding its inverse.  None of these is lost to
rounding, although every operation rounds: each is the same sum, product or root of
operands that were exchanged or turned (`square_sub_swap`, `mul_comm`, `sub_swap`).

They hold number by number, for the infinities and for NaN too, with one exception that
can be seen.  Two vectors of one direction span the positive zero in either order, so the
areas are there equal and not the same.
-/
import Planar.Proofs.Binary64.Order
import Planar.Proofs.Binary64.Symmetry
import Planar.Vec.Arithmetic
import Planar.Vec.Geometry

namespace Planar.Vec

open Binary64 (mul_comm mul_negativeOne neg_neg numEq_self square_sub_swap sub_eq_add_neg
  sub_positiveZero  sub_swap)

theorem invert_eq (v : Vec) : v.invert = ⟨-v.x, -v.y⟩ := by
  show Vec.mk (v.x * -1.0) (v.y * -1.0) = _
  rw [mul_negativeOne, mul_negativeOne]

theorem invert_invert (v : Vec) : v.invert.invert = v := by
  rw [invert_eq, invert_eq, neg_neg, neg_neg]

theorem sub_eq_add_invert (v w : Vec) : v.sub w = v.add w.invert := by
  rw [invert_eq]
  show Vec.mk (v.x - w.x) (v.y - w.y) = ⟨v.x + -w.x, v.y + -w.y⟩
  rw [sub_eq_add_neg, sub_eq_add_neg]

theorem distance_comm (v w : Vec) : v.distance w = w.distance v := by
  unfold distance Binary64.squaredLength
  rw [square_sub_swap w.x, square_sub_swap w.y]

theorem distance_zero_left (v : Vec) : Vec.zero.distance v = v.length := by
  show (Binary64.squaredLength (v.x - 0.0) (v.y - 0.0)).sqrt = _
  rw [sub_positiveZero, sub_positiveZero]
  rfl

theorem dot_comm (v w : Vec) : v.dot w = w.dot v := by
  unfold dot
  rw [mul_comm v.x, mul_comm v.y]

/-- The area the other way round: the negative one, except that it can be the positive zero
both ways. -/
theorem cross_swap (v w : Vec) :
    v.cross w = -w.cross v ∨
      (v.cross w = Binary64.zero false ∧ w.cross v = Binary64.zero false) := by
  unfold cross
  rw [mul_comm w.x, mul_comm w.y]
  exact sub_swap _ _

/-- **The symmetric laws hold exactly**, for all vectors: the distance either way round and
from the origin, the inner product, the spanned area, and the inverse.  A NaN is here the
same as any other. -/
theorem symmetric_laws (v w : Vec) :
    v.distance w = w.distance v ∧
      Vec.zero.distance v = v.length ∧
      v.distance Vec.zero = v.length ∧
      v.dot w = w.dot v ∧
      ((v.cross w).numEq (-w.cross v) = true ∨ v.cross w = .nan ∧ -w.cross v = .nan) ∧
      v.sub w = v.add w.invert ∧
      v.invert.invert = v := by
  refine ⟨distance_comm v w, distance_zero_left v, ?_, dot_comm v w, ?_, sub_eq_add_invert v w,
    invert_invert v⟩
  · rw [distance_comm]
    exact distance_zero_left v
  · obtain hneg | ⟨hzero, hzero'⟩ := cross_swap v w
    · rw [hneg]
      by_cases hnan : -w.cross v = .nan
      · exact .inr ⟨hnan, hnan⟩
      · exact .inl (numEq_self hnan)
    · left
      rw [hzero, hzero']
      rfl

/-- A vector and itself span the positive zero either way round. -/
example : (Vec.mk 1.0 1.0).cross ⟨1.0, 1.0⟩ = Binary64.zero false := by decide +kernel

end Planar.Vec
