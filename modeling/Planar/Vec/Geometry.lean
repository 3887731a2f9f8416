/-
Lengths, angles and rotations.

Every formula is computed as it stands, one rounding for each operation.  A
vector whose length comes out as zero has no direction, and `normalize` leaves it
as it is and says so.
-/
import Planar.Note
import Planar.Vec.Basic

namespace Planar.Vec

/-! ### Measuring -/

/-- The length. -/
def length (v : Vec) : Binary64 := (Binary64.squaredLength v.x v.y).sqrt

/-- The distance between two points. -/
def distance (v w : Vec) : Binary64 := (Binary64.squaredLength (w.x - v.x) (w.y - v.y)).sqrt

/-- The direction from one point to another, in radians. -/
def radiansTo (v w : Vec) : Binary64 := Binary64.directionAngle (w.x - v.x) (w.y - v.y)

/-- The direction from one point to another, in degrees. -/
def degreesTo (v w : Vec) : Binary64 := v.radiansTo w * Binary64.degreesPerRadian

/-- The direction from the origin, in radians. -/
def radians (v : Vec) : Binary64 := zero.radiansTo v

/-- The direction from the origin, in degrees. -/
def degrees (v : Vec) : Binary64 := v.radians * Binary64.degreesPerRadian

/-- The inner product. -/
def dot (v w : Vec) : Binary64 := v.x * w.x + v.y * w.y

/-- The area spanned, with its sign. -/
def cross (v w : Vec) : Binary64 := v.x * w.y - v.y * w.x

/-! ### Changing length and direction -/

/-- The vector of length 1 in the same direction. -/
def normalize (v : Vec) : Traced Vec :=
  let length := v.length
  if length.numEq 0.0 then .noting .zeroLength v
  else pure ⟨v.x / length, v.y / length⟩

/-- The vector turned by an angle in radians, on the grid. -/
def rotateRadians (v : Vec) (angle : Binary64) : Vec :=
  let s := angle.sin
  let c := angle.cos
  ⟨(v.x * c - v.y * s).snap, (v.x * s + v.y * c).snap⟩

/-- The vector turned by an angle in degrees, on the grid. -/
def rotateDegrees (v : Vec) (angle : Binary64) : Vec :=
  v.rotateRadians (angle * Binary64.radiansPerDegree)

end Planar.Vec
