/-
Angles in radians and degrees.

The number nearest to π serves as π throughout, and the two factors between
radians and degrees are computed from it with one rounding each.  A negative
angle is wrapped by its exact remainder, to which a full turn is added unless the
remainder is zero; an angle that is not negative is left as it is.
-/
import Planar.Binary64.Circular

namespace Planar.Binary64

/-- The number nearest to π. -/
def pi : Binary64 := 3.14159265358979323846

/-- A full turn in radians. -/
def fullTurn : Binary64 := pi * 2.0

/-- The degrees in a radian. -/
def degreesPerRadian : Binary64 := 180.0 / pi

/-- The radians in a degree. -/
def radiansPerDegree : Binary64 := pi / 180.0

/-- A negative angle as the angle of the same direction that is not negative. -/
def wrap (angle : Binary64) : Binary64 :=
  if numLt angle 0.0 then
    let rest := remainder angle fullTurn
    if numLt rest 0.0 then rest + fullTurn else rest
  else angle

/-- The wrapped angle of the direction `(dx, dy)`. -/
def directionAngle (dx dy : Binary64) : Binary64 := wrap (angle dy dx)

end Planar.Binary64
