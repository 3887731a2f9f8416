/-
How far the directions of vectors go.

The direction from one point to another is the wrapped angle of their difference.
Whenever the difference is finite, its angle is at most half a turn on either side,
and the ranges of wrapped angles apply.  They include their upper ends: a direction
that falls short of the first axis by no more than 2^-51 is a full turn, 360 degrees,
where the directions next to it on the other side start from zero.

The directions from the origin are a case of this, because taking the positive zero
away from a number leaves the number, its sign of zero included.
-/
import Planar.Proofs.Angle
import Planar.Vec.Geometry

namespace Planar.Vec

open Binary64 (angle InTurn)

theorem radians_eq (v : Vec) : v.radians = Binary64.wrap (angle v.y v.x) := by
  show Binary64.wrap (angle (v.y - 0.0) (v.x - 0.0)) = _
  rw [Binary64.sub_positiveZero, Binary64.sub_positiveZero]

/-- **Directions of finite differences, in radians and in degrees, are not negative and
not beyond a full turn, and they are less than a full turn exactly if the angle is not
at the seam.** -/
theorem directions_inTurn (v w : Vec) (hw : w.isFinite = true)
    (hx : (w.x - v.x).isFinite = true) (hy : (w.y - v.y).isFinite = true) :
    InTurn (angle (w.y - v.y) (w.x - v.x)) (v.radiansTo w) (v.degreesTo w) ∧
    InTurn (angle w.y w.x) w.radians w.degrees := by
  obtain ⟨hwx, hwy⟩ := Bool.and_eq_true_iff.mp hw
  constructor
  · obtain ⟨s, r, hangle, hr⟩ := Binary64.exists_angle hx hy
    unfold degreesTo radiansTo Binary64.directionAngle
    rw [hangle]
    exact Binary64.inTurn_of_le_halfTurn s hr
  · obtain ⟨s, r, hangle, hr⟩ := Binary64.exists_angle hwx hwy
    unfold degrees
    rw [radians_eq, hangle]
    exact Binary64.inTurn_of_le_halfTurn s hr

/-- A direction just short of the first axis, from the origin. -/
theorem directions_inTurn_short :
    ((⟨1.0, -1e-17⟩ : Vec).isFinite = true ∧
      (((1.0 : Binary64) - zero.x).isFinite = true ∧
        ((-1e-17 : Binary64) - zero.y).isFinite = true)) ∧
    InTurn (angle ((-1e-17 : Binary64) - zero.y) ((1.0 : Binary64) - zero.x))
      (zero.radiansTo ⟨1.0, -1e-17⟩) (zero.degreesTo ⟨1.0, -1e-17⟩) := by
  have hw : (⟨1.0, -1e-17⟩ : Vec).isFinite = true := by decide +kernel
  have hx : ((1.0 : Binary64) - zero.x).isFinite = true := by decide +kernel
  have hy : ((-1e-17 : Binary64) - zero.y).isFinite = true := by decide +kernel
  exact ⟨⟨hw, hx, hy⟩, (directions_inTurn zero ⟨1.0, -1e-17⟩ hw hx hy).1⟩

/-- That direction is a full turn. -/
theorem fullTurn_reached :
    (zero.isFinite = true ∧ (⟨1.0, -1e-17⟩ : Vec).isFinite = true ∧
      ((1.0 : Binary64) - zero.x).isFinite = true ∧
      ((-1e-17 : Binary64) - zero.y).isFinite = true) ∧
    Binary64.numLt (zero.radiansTo ⟨1.0, -1e-17⟩) Binary64.fullTurn = false ∧
    Binary64.numLt (zero.degreesTo ⟨1.0, -1e-17⟩) 360.0 = false ∧
    Binary64.numLt (Vec.radians ⟨1.0, -1e-17⟩) Binary64.fullTurn = false ∧
    Binary64.numLt (Vec.degrees ⟨1.0, -1e-17⟩) 360.0 = false := by
  decide +kernel

end Planar.Vec
