/-
Writing a decimal.

A layout settles what the digits leave open: for which sizes the number is
written positionally, whether a whole number keeps a fraction `.0`, whether a
positive exponent has a plus sign, and how ties between two shortest decimals go.
The size of a decimal is the power of ten of its first digit.

Positionally, digits `d₁ … dₙ` with exponent `e` become

    d₁ … dₙ 0 … 0            if 0 ≤ e
    d₁ … dₖ . dₖ₊₁ … dₙ       if the size is at least 0
    0 . 0 … 0 d₁ … dₙ         otherwise

and in scientific form `d₁ . d₂ … dₙ e size`, without the point when there is
just one digit.
-/
import Planar.Decimal.Shortest

namespace Planar

/-- How numbers are written. -/
structure Layout where
  /-- How a tie between two shortest decimals goes. -/
  tie : Tie
  /-- The least and the greatest size written positionally; all, if absent. -/
  positionalSizes : Option (Int × Int)
  /-- Whether a positional whole number ends in `.0`. -/
  keepsFraction : Bool
  /-- Whether a positive exponent has a plus sign. -/
  marksPlus : Bool
deriving Repr

namespace Decimal

/-- The digits of the coefficient. -/
def digits (d : Decimal) : List Char := Nat.toDigits 10 d.coefficient

/-- The power of ten of the first digit. -/
def size (d : Decimal) : Int := d.exponent + d.digits.length - 1

end Decimal

namespace Layout

/-- Whether a decimal of this size is written positionally. -/
def isPositional (l : Layout) (size : Int) : Bool :=
  match l.positionalSizes with
  | none => true
  | some (least, greatest) => decide (least ≤ size) && decide (size ≤ greatest)

/-- The positional form. -/
def positional (l : Layout) (d : Decimal) : List Char :=
  let ds := d.digits
  if 0 ≤ d.exponent then
    ds ++ List.replicate d.exponent.toNat '0' ++ (if l.keepsFraction then ['.', '0'] else [])
  else if 0 ≤ d.size then
    let whole := d.size.toNat + 1
    ds.take whole ++ '.' :: ds.drop whole
  else
    '0' :: '.' :: (List.replicate (-d.size - 1).toNat '0' ++ ds)

/-- The sign and the digits of an exponent. -/
def exponentDigits (l : Layout) (e : Int) : List Char :=
  let sign := if e < 0 then ['-'] else if l.marksPlus then ['+'] else []
  sign ++ Nat.toDigits 10 e.natAbs

/-- The scientific form. -/
def scientific (l : Layout) (d : Decimal) : List Char :=
  let mantissa :=
    match d.digits with
    | first :: second :: rest => first :: '.' :: second :: rest
    | ds => ds
  mantissa ++ 'e' :: l.exponentDigits d.size

/-- A decimal in the form that its size calls for. -/
def decimal (l : Layout) (d : Decimal) : List Char :=
  if l.isPositional d.size then l.positional d else l.scientific d

/-- A number: its sign and the shortest decimal that reads back; words for the
numbers that are not finite. -/
def write (l : Layout) : Binary64 → List Char
  | .nan => ['N', 'a', 'N']
  | .infinite negative => (if negative then ['-'] else []) ++ ['i', 'n', 'f']
  | .finite negative r =>
    (if negative then ['-'] else []) ++ l.decimal (Decimal.shortest l.tie r)

/-- Positional at every size, whole numbers without a fraction. -/
def plain : Layout := ⟨.up, none, false, false⟩

end Layout

end Planar
