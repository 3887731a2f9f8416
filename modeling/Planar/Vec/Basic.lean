/-
Vectors of the plane.

The vertical axis points down, so `up` is negative.  Vectors are equal as data
when their components are the same numbers, sign of zero and NaN included; they
are equal as vectors (`equal`) when their components are numerically equal, and
then a vector with a NaN equals none.

A record has the components of a vector and nothing else to it.  It is how a
vector is handed to what knows no vectors.
-/
import Planar.Angle
import Planar.Scalar

namespace Planar

/-- A vector, or a point, of the plane. -/
structure Vec where
  /-- The horizontal component. -/
  x : Binary64
  /-- The vertical component. -/
  y : Binary64
deriving DecidableEq, Repr

/-- The components of a vector, as plain data. -/
structure Record where
  x : Binary64
  y : Binary64
deriving DecidableEq, Repr

namespace Vec

/-! ### Named vectors -/

/-- The origin. -/
def zero : Vec := ⟨0.0, 0.0⟩

def one : Vec := ⟨1.0, 1.0⟩

def up : Vec := ⟨0.0, -1.0⟩

def down : Vec := ⟨0.0, 1.0⟩

def left : Vec := ⟨-1.0, 0.0⟩

def right : Vec := ⟨1.0, 0.0⟩

def upLeft : Vec := ⟨-1.0, -1.0⟩

def downLeft : Vec := ⟨-1.0, 1.0⟩

def upRight : Vec := ⟨1.0, -1.0⟩

def downRight : Vec := ⟨1.0, 1.0⟩

instance : Inhabited Vec := ⟨zero⟩

/-! ### Making vectors -/

/-- A vector from components that may be missing; a missing one is zero. -/
def ofOptions (x y : Option Binary64) : Vec := ⟨x.getD 0.0, y.getD 0.0⟩

/-- A vector from the first two numbers of a list; a missing one is zero. -/
def ofList (items : List Binary64) : Vec := ofOptions items[0]? items[1]?

def ofPair (p : Binary64 × Binary64) : Vec := ⟨p.1, p.2⟩

def toPair (v : Vec) : Binary64 × Binary64 := (v.x, v.y)

/-- The unit vector at an angle in radians. -/
def ofRadians (angle : Binary64) : Vec := ⟨angle.cos, angle.sin⟩

/-- The unit vector at an angle in degrees. -/
def ofDegrees (angle : Binary64) : Vec := ofRadians (angle * Binary64.radiansPerDegree)

def ofRecord (r : Record) : Vec := ⟨r.x, r.y⟩

def toRecord (v : Vec) : Record := ⟨v.x, v.y⟩

/-! ### Comparing -/

/-- Whether both components are numerically equal. -/
def equal (v w : Vec) : Bool := v.x.numEq w.x && v.y.numEq w.y

def isFinite (v : Vec) : Bool := v.x.isFinite && v.y.isFinite

end Vec

/-- The record that nothing was put into. -/
instance : Inhabited Record := ⟨Vec.zero.toRecord⟩

end Planar
