/-
JSON values.

A value is kept as it stands in its text: an object keeps its members in the
order in which they were written, and it keeps both of two members with the same
key.  What a repeated key means is a matter of looking it up (`member?`, the last
one counts) and of printing.

A number is a whole number if it was written as one and fits 64 bits, with or
without a sign; every other number is a binary64 number.
-/
import Planar.Binary64.Rounding

namespace Planar

namespace Json

/-- A JSON number. -/
inductive Number where
  /-- A whole number of 64 bits, signed or unsigned. -/
  | integer (n : Int)
  /-- Any other number. -/
  | real (x : Binary64)
deriving DecidableEq, Repr

/-- The number as a binary64 number. -/
def Number.toBinary64 : Number → Binary64
  | integer n => Binary64.ofInt n
  | real x => x

/-- A JSON value without parts. -/
inductive Scalar where
  | null
  | boolean (b : Bool)
  | number (n : Number)
  | string (s : String)
deriving DecidableEq, Repr

/-- The scalar that stands for a binary64 number; JSON has no word for one that
is not finite. -/
def Scalar.ofBinary64 (x : Binary64) : Scalar :=
  if x.isFinite then number (.real x) else null

end Json

/-- A JSON value. -/
inductive Json where
  | scalar (s : Json.Scalar)
  | array (items : List Json)
  /-- An object, with its members as they were written. -/
  | object (members : List (String × Json))
deriving Repr

namespace Json

instance : Inhabited Json := ⟨scalar .null⟩

/-- The number that a value is, if it is one. -/
def number? : Json → Option Number
  | scalar (.number n) => some n
  | _ => none

/-- The value of the last member with a key. -/
def member? (key : String) : List (String × Json) → Option Json
  | [] => none
  | (k, v) :: rest => (member? key rest).or (if k = key then some v else none)

end Json

end Planar
