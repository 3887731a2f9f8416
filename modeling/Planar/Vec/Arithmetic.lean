/-
Arithmetic by component.

Every operation here treats the two components alike and apart from each other.
The operators stand for the operations of the same meaning, with a vector or with
one number on the right; a number on the left can only multiply.
-/
import Planar.Vec.Basic

namespace Planar.Vec

/-! ### With another vector -/

def add (v w : Vec) : Vec := ⟨v.x + w.x, v.y + w.y⟩

def sub (v w : Vec) : Vec := ⟨v.x - w.x, v.y - w.y⟩

def mul (v w : Vec) : Vec := ⟨v.x * w.x, v.y * w.y⟩

def div (v w : Vec) : Vec := ⟨v.x / w.x, v.y / w.y⟩

/-! ### With one number -/

def addScalar (v : Vec) (s : Binary64) : Vec := ⟨v.x + s, v.y + s⟩

def subScalar (v : Vec) (s : Binary64) : Vec := ⟨v.x - s, v.y - s⟩

def mulScalar (v : Vec) (s : Binary64) : Vec := ⟨v.x * s, v.y * s⟩

def divScalar (v : Vec) (s : Binary64) : Vec := ⟨v.x / s, v.y / s⟩

def invert (v : Vec) : Vec := v.mulScalar (-1.0)

instance : HAdd Vec Vec Vec := ⟨add⟩
instance : HSub Vec Vec Vec := ⟨sub⟩
instance : HMul Vec Vec Vec := ⟨mul⟩
instance : HDiv Vec Vec Vec := ⟨div⟩
instance : HAdd Vec Binary64 Vec := ⟨addScalar⟩
instance : HSub Vec Binary64 Vec := ⟨subScalar⟩
instance : HMul Vec Binary64 Vec := ⟨mulScalar⟩
instance : HDiv Vec Binary64 Vec := ⟨divScalar⟩
instance : HMul Binary64 Vec Vec := ⟨fun s v => v.mulScalar s⟩
instance : Neg Vec := ⟨invert⟩

/-! ### By a function -/

/-- A function of the components, applied to one after the other, `x` first. -/
def mapM {m : Type → Type} [Monad m] (f : Binary64 → m Binary64) (v : Vec) : m Vec := do
  let x ← f v.x
  let y ← f v.y
  return ⟨x, y⟩

/-- A function with a memory: its answer may depend on the arguments of its
earlier calls, of which the oldest comes first. -/
abbrev Closure : Type := List Binary64 → Binary64 → Binary64

/-- One call of a function with a memory. -/
def Closure.call (f : Closure) (c : Binary64) : StateM (List Binary64) Binary64 := do
  let earlier ← get
  set (earlier ++ [c])
  return f earlier c

/-- A function with a memory, applied to both components, and the arguments of
its calls. -/
def apply (f : Closure) (v : Vec) : Vec × List Binary64 := (v.mapM f.call).run []

def map (f : Binary64 → Binary64) (v : Vec) : Vec := ⟨f v.x, f v.y⟩

def abs (v : Vec) : Vec := v.map Binary64.abs

/-- The components rounded to whole numbers; halves go up. -/
def round (v : Vec) : Vec := v.map Binary64.roundHalfUp

def flip (v : Vec) : Vec := ⟨v.y, v.x⟩

/-! ### Within bounds -/

/-- A number raised to a lower bound and then lowered to an upper one.  A bound
that is NaN does nothing, and if the bounds are in the wrong order the upper one
wins. -/
def clampComponent (c lo hi : Binary64) : Binary64 :=
  let raised := if c.numLt lo then lo else c
  if hi.numLt raised then hi else raised

/-- Each component held within the bounds of its axis. -/
def clamp (v lo hi : Vec) : Vec :=
  ⟨clampComponent v.x lo.x hi.x, clampComponent v.y lo.y hi.y⟩

end Planar.Vec
