/-
Vectors as JSON.

A vector is written as an object with the members `x` and `y`, in which a
component that is not finite is `null`.  There are two ways to the text: through a
value (`toJson`), whose printer sorts members and knows every kind of value, and
directly (`jsonText`), one component after the other.  Both give the same text
(`text_toJson`), because the printer puts `x` before `y` too.

It is read leniently from any value: from the first two items of an array, or
from the members `x` and `y` of an object, of which the last one counts if there
are several.  A missing component is zero, one that is not a number is NaN, and
from anything else both are NaN.
-/
import Planar.Reading
import Planar.Vec.Basic

namespace Planar

/-! ### Writing -/

namespace Json

/-- The text of a component; one that is not finite is `null`. -/
def componentText (c : Binary64) : List Char :=
  if c.isFinite then realLayout.write c else ['n', 'u', 'l', 'l']

/-- The text of two components, as an object with the members `x` and `y`. -/
def componentsText (x y : Binary64) : List Char :=
  ['\x7b', '"', 'x', '"', ':'] ++ componentText x ++ [',', '"', 'y', '"', ':'] ++ componentText y
    ++ ['\x7d']

/-- The printer of values writes a component in the same way. -/
theorem Scalar.text_ofBinary64 (c : Binary64) : (Scalar.ofBinary64 c).text = componentText c := by
  unfold Scalar.ofBinary64 componentText
  split <;> rfl

/-- The printer of values writes an object of two components in the same way. -/
theorem text_components (x y : Binary64) :
    text (.object [("x", .scalar (.ofBinary64 x)), ("y", .scalar (.ofBinary64 y))])
      = componentsText x y := by
  have sorted (a b : List Char) : sortMembers [("x", a), ("y", b)] = [("x", a), ("y", b)] := by
    have apart : ¬ "y" < "x" ∧ "y" ≠ "x" := by decide
    simp [sortMembers, insertMember, apart]
  have names : stringText "x" = ['"', 'x', '"'] ∧ stringText "y" = ['"', 'y', '"'] := by decide
  simp [text, memberTexts, objectText, sorted, names, joinWithCommas, Scalar.text_ofBinary64,
    componentsText]

end Json

/-- The JSON text of a record. -/
def Record.jsonText (r : Record) : List Char := Json.componentsText r.x r.y

namespace Vec

/-- The vector as JSON. -/
def toJson (v : Vec) : Json :=
  .object [("x", .scalar (.ofBinary64 v.x)), ("y", .scalar (.ofBinary64 v.y))]

/-- The JSON text of the vector. -/
def jsonText (v : Vec) : List Char := Json.componentsText v.x v.y

/-- The vector's JSON, printed, is its JSON text. -/
theorem text_toJson (v : Vec) : v.toJson.text = v.jsonText := Json.text_components v.x v.y

/-! ### Reading -/

/-- A component that may be missing. -/
def readOptional (value : Option Json) : Traced (Option Binary64) :=
  match value with
  | some j => some <$> readComponent j
  | none => pure none

/-- The vector of two components that may be missing. -/
def ofComponents (x y : Option Json) : Traced Vec := do
  let x ← readOptional x
  let y ← readOptional y
  return ofOptions x y

/-- The vector that a JSON value describes. -/
def ofJson (value : Json) : Traced Vec :=
  match value with
  | .array items => ofComponents items[0]? items[1]?
  | .object members => ofComponents (Json.member? "x" members) (Json.member? "y" members)
  | .scalar _ => .noting (.notAVector value) ⟨.nan, .nan⟩

end Vec

end Planar
