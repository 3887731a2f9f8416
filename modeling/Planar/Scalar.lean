/-
Functions of single numbers.

Halves are rounded up, that is, toward the greater number, on either side of
zero.  Results of a rotation are snapped to the grid of hundred-millionths, which
hides the last digits' errors of the sine and the cosine.
-/
import Planar.Binary64.Arithmetic

namespace Planar

/-- The product of a number with itself. -/
def square {α : Type} [Mul α] (a : α) : α := a * a

namespace Binary64

/-- The square of the length of `(dx, dy)`. -/
def squaredLength (dx dy : Binary64) : Binary64 := square dx + square dy

/-- The nearest whole number; halves go up. -/
def roundHalfUp (f : Binary64) : Binary64 :=
  let below := f.floor
  if numLe 0.5 (f - below) then below + 1.0 else below

/-- How many steps of the grid make up 1. -/
def gridScale : Binary64 := 100000000.0

/-- The nearest point of the grid of hundred-millionths. -/
def snap (f : Binary64) : Binary64 := roundHalfUp (f * gridScale) / gridScale

end Binary64

end Planar
