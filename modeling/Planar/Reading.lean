/-
Lenient reading of numbers.

A number is read from the start of a text, after white space, and whatever
follows the longest numeral there does not matter.  A JSON value is read if it is
a number.  Where there is no number the result is NaN, and a note says so; `repair`
can replace it later.
-/
import Planar.Note
import Planar.Numeral

namespace Planar

/-- The number at the start of a text. -/
def readNumber (text : String) : Traced Binary64 :=
  match Numeral.scan? (Text.trimStart text.toList) with
  | some (n, _) => pure n.value
  | none => .noting (.noNumber text) .nan

/-- The number that a JSON value is. -/
def readComponent (value : Json) : Traced Binary64 :=
  match value.number? with
  | some n => pure n.toBinary64
  | none => .noting (.notNumeric value) .nan

end Planar
