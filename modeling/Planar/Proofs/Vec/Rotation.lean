/-
Rotations, and where the grid ends.

A rotation computes both components from the old ones and puts each on the grid by
itself, so what is known of snapping one number says what a rotation leaves, in radians
and in degrees, in a cell and as a copy (`rotate_onGrid`).  The turned components may be
finite and the ones on the grid not: a vector of length 10^301 does not survive a
rotation by the angle zero.
-/
import Planar.Proofs.Scalar
import Planar.Proofs.Vec.Spelling

namespace Planar.Vec

open Binary64 (OnGrid radiansPerDegree)

/-- A vector turned by an angle in radians, before it is put on the grid. -/
def turned (v : Vec) (angle : Binary64) : Vec :=
  ⟨v.x * angle.cos - v.y * angle.sin, v.x * angle.sin + v.y * angle.cos⟩

/-- The edit leaves `w` in a cell that holds `v`, and the components of `w` are those of
`u`, put on the grid. -/
structure LeavesOnGrid (edit : Edit Unit) (v u w : Vec) : Prop where
  run : edit.run v = pure ((), w)
  x : OnGrid u.x w.x
  y : OnGrid u.y w.y

theorem rotateRadians_onGrid (v : Vec) (angle : Binary64) (h : (v.turned angle).isFinite = true) :
    LeavesOnGrid (Edit.rotateRadians angle) v (v.turned angle) (v.rotateRadians angle) := by
  obtain ⟨hx, hy⟩ := Bool.and_eq_true_iff.mp h
  exact {
    run := Edit.run_rotateRadians angle v
    x := Binary64.snap_onGrid hx
    y := Binary64.snap_onGrid hy }

/-- **A component that is finite before it is put on the grid is finite on it exactly below
the end of the grid**, for single numbers and for rotations. -/
theorem rotate_onGrid (f : Binary64) (v : Vec) (angle : Binary64) :
    (f.isFinite = true → OnGrid f f.snap) ∧
    ((v.turned angle).isFinite = true →
      LeavesOnGrid (Edit.rotateRadians angle) v (v.turned angle) (v.rotateRadians angle)) ∧
    ((v.turned (angle * radiansPerDegree)).isFinite = true →
      LeavesOnGrid (Edit.rotateDegrees angle) v (v.turned (angle * radiansPerDegree))
        (v.rotateDegrees angle)) :=
  ⟨Binary64.snap_onGrid, rotateRadians_onGrid v angle,
    rotateRadians_onGrid v (angle * radiansPerDegree)⟩

/-- A vector with one component on either side of the end of the grid. -/
theorem rotate_onGrid_long :
    ((1e301 : Binary64).isFinite = true ∧ OnGrid 1e301 (Binary64.snap 1e301)) ∧
    ((turned ⟨1e300, 1e301⟩ 0.5).isFinite = true ∧
      LeavesOnGrid (Edit.rotateRadians 0.5) ⟨1e300, 1e301⟩ (turned ⟨1e300, 1e301⟩ 0.5)
        (rotateRadians ⟨1e300, 1e301⟩ 0.5)) ∧
    ((turned ⟨1e300, 1e301⟩ (0.5 * radiansPerDegree)).isFinite = true ∧
      LeavesOnGrid (Edit.rotateDegrees 0.5) ⟨1e300, 1e301⟩
        (turned ⟨1e300, 1e301⟩ (0.5 * radiansPerDegree)) (rotateDegrees ⟨1e300, 1e301⟩ 0.5)) := by
  have hlong : (1e301 : Binary64).isFinite = true := by decide +kernel
  have hradians : (turned ⟨1e300, 1e301⟩ 0.5).isFinite = true := by decide +kernel
  have hdegrees : (turned ⟨1e300, 1e301⟩ (0.5 * radiansPerDegree)).isFinite = true := by
    decide +kernel
  obtain ⟨hsnap, hrotate, hrotateDegrees⟩ := rotate_onGrid 1e301 ⟨1e300, 1e301⟩ 0.5
  exact ⟨⟨hlong, hsnap hlong⟩, ⟨hradians, hrotate hradians⟩, hdegrees, hrotateDegrees hdegrees⟩

/-- Past the end of the grid finite components become infinite, by the angle zero too. -/
theorem rotate_infinite :
    ((turned ⟨1e301, 0.0⟩ 0.0).isFinite = true ∧ (0.0 : Binary64).isFinite = true ∧
      (rotateRadians ⟨1e301, 0.0⟩ 0.0).x = .infinite false ∧
      (rotateDegrees ⟨1e301, 0.0⟩ 0.0).x = .infinite false) ∧
    (1e301 : Binary64).isFinite = true ∧ (Binary64.snap 1e301).isFinite = false := by
  decide +kernel

end Planar.Vec
