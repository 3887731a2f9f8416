/-
Operations and their spellings.

One operation can be asked for in several ways: as an edit in place, as a
function that returns a changed copy, by an operator between operands, by an
operator that assigns its result, or with the number in front of the vector.  Not
every operation has every spelling.  Whichever is chosen, what can be seen of it
is the same kind of thing: the vector that comes out, the arguments of the calls
of a given function, and the notes.
-/
import Planar.Vec.InPlace

namespace Planar

/-- An operation that turns one vector into another. -/
inductive Operation where
  | normalize
  | rotateRadians (angle : Binary64)
  | rotateDegrees (angle : Binary64)
  | add (w : Vec)
  | sub (w : Vec)
  | mul (w : Vec)
  | div (w : Vec)
  | addScalar (s : Binary64)
  | subScalar (s : Binary64)
  | mulScalar (s : Binary64)
  | divScalar (s : Binary64)
  | invert
  | flip
  | abs
  | round
  | clamp (lo hi : Vec)
  | repair (defaultX defaultY : Option Binary64)
  /-- By a function with a memory. -/
  | apply (f : Vec.Closure)

/-- A way to ask for an operation. -/
inductive Spelling where
  /-- An edit of the vector itself. -/
  | inPlace
  /-- A function that returns a changed copy. -/
  | copying
  /-- An operator between the operands, or in front of the one operand. -/
  | operator
  /-- An operator that assigns its result. -/
  | assigning
  /-- The product with the number on the left. -/
  | numberFirst
deriving DecidableEq, Repr

/-- What can be seen of an operation. -/
structure Outcome where
  vector : Vec
  /-- The arguments with which a given function was called, in order. -/
  calls : List Binary64
  /-- The notes, in order. -/
  notes : List Note

namespace Outcome

/-- The outcome of a computation that calls nothing. -/
def ofTraced (t : Traced Vec) : Outcome := ⟨t.value, [], t.notes⟩

/-- The outcome of a computation that calls nothing and notes nothing. -/
def ofVec (v : Vec) : Outcome := ⟨v, [], []⟩

/-- The outcome of an edit that calls nothing. -/
def ofEdit (e : Edit Unit) (v : Vec) : Outcome :=
  let t := e.run v
  ⟨t.value.2, [], t.notes⟩

/-- The outcome of an edit that returns the arguments of its calls. -/
def ofCallingEdit (e : Edit (List Binary64)) (v : Vec) : Outcome :=
  let t := e.run v
  ⟨t.value.2, t.value.1, t.notes⟩

end Outcome

namespace Operation

/-- The operation as an edit in place. -/
def inPlace : Operation → Vec → Outcome
  | normalize => .ofEdit Edit.normalize
  | rotateRadians a => .ofEdit (Edit.rotateRadians a)
  | rotateDegrees a => .ofEdit (Edit.rotateDegrees a)
  | add w => .ofEdit (Edit.add w)
  | sub w => .ofEdit (Edit.sub w)
  | mul w => .ofEdit (Edit.mul w)
  | div w => .ofEdit (Edit.div w)
  | addScalar s => .ofEdit (Edit.addScalar s)
  | subScalar s => .ofEdit (Edit.subScalar s)
  | mulScalar s => .ofEdit (Edit.mulScalar s)
  | divScalar s => .ofEdit (Edit.divScalar s)
  | invert => .ofEdit Edit.invert
  | flip => .ofEdit Edit.flip
  | abs => .ofEdit Edit.abs
  | round => .ofEdit Edit.round
  | clamp lo hi => .ofEdit (Edit.clamp lo hi)
  | repair dx dy => .ofEdit (Edit.repair dx dy)
  | apply f => .ofCallingEdit (Edit.apply f)

/-- The operation as a function that returns a copy. -/
def copying (op : Operation) (v : Vec) : Outcome :=
  match op with
  | normalize => .ofTraced v.normalize
  | rotateRadians a => .ofVec (v.rotateRadians a)
  | rotateDegrees a => .ofVec (v.rotateDegrees a)
  | add w => .ofVec (v.add w)
  | sub w => .ofVec (v.sub w)
  | mul w => .ofVec (v.mul w)
  | div w => .ofVec (v.div w)
  | addScalar s => .ofVec (v.addScalar s)
  | subScalar s => .ofVec (v.subScalar s)
  | mulScalar s => .ofVec (v.mulScalar s)
  | divScalar s => .ofVec (v.divScalar s)
  | invert => .ofVec v.invert
  | flip => .ofVec v.flip
  | abs => .ofVec v.abs
  | round => .ofVec v.round
  | clamp lo hi => .ofVec (v.clamp lo hi)
  | repair dx dy => .ofTraced (v.repair dx dy)
  | apply f => let (w, calls) := v.apply f; ⟨w, calls, []⟩

/-- The operation written with an operator, if there is one. -/
def operator? (op : Operation) (v : Vec) : Option Vec :=
  match op with
  | add w => some (v + w)
  | sub w => some (v - w)
  | mul w => some (v * w)
  | div w => some (v / w)
  | addScalar s => some (v + s)
  | subScalar s => some (v - s)
  | mulScalar s => some (v * s)
  | divScalar s => some (v / s)
  | invert => some (-v)
  | _ => none

/-- The operation written with an operator that assigns, if there is one: the
cell is given what the operator makes of what it held. -/
def assigning? (op : Operation) : Option (Edit Unit) :=
  match op with
  | add w => some (modify fun v : Vec => v + w)
  | sub w => some (modify fun v : Vec => v - w)
  | mul w => some (modify fun v : Vec => v * w)
  | div w => some (modify fun v : Vec => v / w)
  | addScalar s => some (modify fun v : Vec => v + s)
  | subScalar s => some (modify fun v : Vec => v - s)
  | mulScalar s => some (modify fun v : Vec => v * s)
  | divScalar s => some (modify fun v : Vec => v / s)
  | _ => none

/-- The product with the number on the left. -/
def numberFirst? (op : Operation) (v : Vec) : Option Vec :=
  match op with
  | mulScalar s => some (s * v)
  | _ => none

/-- The outcome of an operation in one of its spellings; none if it has no such
spelling. -/
def perform? (op : Operation) (s : Spelling) (v : Vec) : Option Outcome :=
  match s with
  | .inPlace => some (op.inPlace v)
  | .copying => some (op.copying v)
  | .operator => (op.operator? v).map .ofVec
  | .assigning => op.assigning?.map fun e => .ofEdit e v
  | .numberFirst => (op.numberFirst? v).map .ofVec

/-- The outcomes of operations in chosen spellings, each starting from the vector
that the one before it left. -/
def run? : List (Operation × Spelling) → Vec → Option (List Outcome)
  | [], _ => some []
  | (op, s) :: rest, v => do
    let outcome ← op.perform? s v
    let outcomes ← run? rest outcome.vector
    return outcome :: outcomes

end Operation

end Planar
