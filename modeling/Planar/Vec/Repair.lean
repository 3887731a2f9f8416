/-
Repairing components that are not finite.

A finite component stays.  Any other is replaced by the default for its axis if
there is a finite one, and by zero if not, and each replacement is noted.
-/
import Planar.Note
import Planar.Vec.Basic

namespace Planar.Vec

/-- What replaces a component that is not finite. -/
def replacement (default : Option Binary64) : Binary64 :=
  (default.filter Binary64.isFinite).getD 0.0

/-- A component, or its replacement. -/
def repairComponent (axis : Axis) (c : Binary64) (default : Option Binary64) :
    Traced Binary64 :=
  if c.isFinite then pure c
  else .noting (.repaired axis c (replacement default)) (replacement default)

/-- A vector with finite components. -/
def repair (v : Vec) (defaultX defaultY : Option Binary64) : Traced Vec := do
  let x ← repairComponent .x v.x defaultX
  let y ← repairComponent .y v.y defaultY
  return ⟨x, y⟩

end Planar.Vec
