/-
The shortest decimal that reads back as a given binary64 number.

The candidates for a magnitude are the multiples of a power of ten.  On one grid
`10^g` only the two neighbours of the magnitude matter: if any multiple reads
back, then so does the neighbour on its side, because everything between it and
the magnitude rounds the same way.  The grids are tried from coarse to fine, and
the first one with a hit gives the fewest digits; were its coefficient divisible
by ten, a coarser grid would have had the same hit.

Counted in units of 2^-1074, the step of the grid `10^g` is

    10^g · 2^1074 = 10^i / 5^1074        with  g = i - 1074,

so the index `i` is a natural number, a magnitude of `u` units is `u · 5^1074`
steps of the finest grid `i = 0`, and it lies on that grid exactly.  So the walk
down to 0 always ends with an answer and needs no bound on the number of digits.

"Reads back" is tested by rounding itself, so the digits read back by
construction.  When both neighbours do, the nearer one is taken; how an exact tie
goes is up to the layout in which the number will be written.
-/
import Planar.Binary64.Rounding

namespace Planar

/-- A decimal: a whole coefficient times a power of ten. -/
structure Decimal where
  /-- The digits, read as one whole number. -/
  coefficient : Nat
  /-- The power of ten. -/
  exponent : Int
deriving DecidableEq, Repr

/-- Which of two equally near neighbours is taken. -/
inductive Tie where
  | up
  | even
deriving DecidableEq, Repr

namespace Decimal

/-- How many steps of the finest grid make up the unit 2^-1074. -/
def stepsInUnit : Nat := Nat.pow 5 1074

/-- The coefficient `c` on the grid of index `i` reads back as rank `r`. -/
def readsBack (r i c : Nat) : Bool := nearestRank (c * Nat.pow 10 i) stepsInUnit == r

/-- The neighbour of a magnitude of `steps` that reads back as its rank `r`, on
the grid of index `i`; the nearer one if both do. -/
def neighbour? (tie : Tie) (r steps i : Nat) : Option Nat :=
  let step := Nat.pow 10 i
  let below := steps / step
  let above := below + 1
  match readsBack r i below, readsBack r i above with
  | false, false => none
  | true, false => some below
  | false, true => some above
  | true, true =>
    let rest := 2 * (steps % step)
    if rest < step then some below
    else if step < rest then some above
    else match tie with
      | .up => some above
      | .even => some (below + below % 2)

/-- The first hit on the grids from index `i` down to the finest. -/
def searchFrom (tie : Tie) (r steps : Nat) : Nat → Decimal
  | 0 => ⟨steps, -1074⟩
  | i + 1 =>
    match neighbour? tie r steps (i + 1) with
    | some c => ⟨c, (i + 1 : Nat) - 1074⟩
    | none => searchFrom tie r steps i

/-- An index whose power of ten is greater than `n`.  It follows the bit length
of `n`: 93 bits are at most 28 digits, and of the rest three bits are at most
one. -/
def indexAbove (n : Nat) : Nat :=
  let bits := n.log2 + 1
  28 * (bits / 93) + bits % 93 / 3 + 1

/-- The shortest decimal that reads back as rank `r`, and the nearest of those. -/
def shortest (tie : Tie) (r : Nat) : Decimal :=
  if r = 0 then ⟨0, 0⟩
  else
    let steps := Rank.units r * stepsInUnit
    searchFrom tie r steps (indexAbove steps)

end Decimal

end Planar
