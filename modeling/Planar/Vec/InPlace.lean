/-
Edits of a vector in place.

An edit works on a cell that holds a vector, and assigns one component after the
other, reading the cell as it goes.  So it has to take care of what the copying
form of the operation gets for nothing: where both old components are needed for
both new ones, they are read before either is assigned.
-/
import Planar.Vec.Arithmetic
import Planar.Vec.Geometry
import Planar.Vec.Repair

namespace Planar

/-- An edit of a cell that holds a vector. -/
abbrev Edit (α : Type) : Type := StateT Vec Traced α

namespace Edit

/-! ### Assignments -/

def setX (x : Binary64) : Edit Unit := modify fun v => ⟨x, v.y⟩

def setY (y : Binary64) : Edit Unit := modify fun v => ⟨v.x, y⟩

/-- Assigns one component after the other, each from its old value. -/
def update (fx fy : Binary64 → Binary64) : Edit Unit := do
  setX (fx (← get).x)
  setY (fy (← get).y)

def copy (w : Vec) : Edit Unit := do
  setX w.x
  setY w.y

def copyX (w : Vec) : Edit Unit := setX w.x

def copyY (w : Vec) : Edit Unit := setY w.y

/-- Assigns the components that are given. -/
def assign (x y : Option Binary64) : Edit Unit := do
  if let some x := x then setX x
  if let some y := y then setY y

/-! ### Arithmetic -/

def add (w : Vec) : Edit Unit := update (· + w.x) (· + w.y)

def sub (w : Vec) : Edit Unit := update (· - w.x) (· - w.y)

def mul (w : Vec) : Edit Unit := update (· * w.x) (· * w.y)

def div (w : Vec) : Edit Unit := update (· / w.x) (· / w.y)

def addScalar (s : Binary64) : Edit Unit := update (· + s) (· + s)

def subScalar (s : Binary64) : Edit Unit := update (· - s) (· - s)

def mulScalar (s : Binary64) : Edit Unit := update (· * s) (· * s)

def divScalar (s : Binary64) : Edit Unit := update (· / s) (· / s)

def invert : Edit Unit := mulScalar (-1.0)

/-! ### Components -/

/-- Exchanges the components. -/
def flip : Edit Unit := do
  let old ← get
  setX old.y
  setY old.x

/-- Applies a function with a memory to both components, and returns the
arguments of its calls. -/
def apply (f : Vec.Closure) : Edit (List Binary64) := do
  let x := (← get).x
  setX (f [] x)
  let y := (← get).y
  setY (f [x] y)
  return [x, y]

def abs : Edit Unit := update Binary64.abs Binary64.abs

def round : Edit Unit := update Binary64.roundHalfUp Binary64.roundHalfUp

/-- Holds the components within bounds: first both lower ones, then both upper
ones. -/
def clamp (lo hi : Vec) : Edit Unit := do
  if (← get).x.numLt lo.x then setX lo.x
  if (← get).y.numLt lo.y then setY lo.y
  if hi.x.numLt (← get).x then setX hi.x
  if hi.y.numLt (← get).y then setY hi.y

/-- Replaces components that are not finite. -/
def repair (defaultX defaultY : Option Binary64) : Edit Unit := do
  setX (← Vec.repairComponent .x (← get).x defaultX)
  setY (← Vec.repairComponent .y (← get).y defaultY)

/-! ### Length and direction -/

def normalize : Edit Unit := do
  let length := (← get).length
  if length.numEq 0.0 then (Traced.noting Note.zeroLength () : Traced Unit)
  else update (· / length) (· / length)

def rotateRadians (angle : Binary64) : Edit Unit := do
  let s := angle.sin
  let c := angle.cos
  let old ← get
  setX (old.x * c - old.y * s).snap
  setY (old.x * s + old.y * c).snap

def rotateDegrees (angle : Binary64) : Edit Unit :=
  rotateRadians (angle * Binary64.radiansPerDegree)

end Edit

end Planar
