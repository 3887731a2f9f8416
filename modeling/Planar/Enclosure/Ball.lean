/-
Real numbers enclosed in balls.

A ball is a midpoint and a radius, both counted in units of 2^-p for a precision
`p` that the operations are given.  It stands for every real number within the
radius of the midpoint.  An operation returns a ball that holds every result of
exact operands from its operand balls: whatever is lost by cutting a midpoint or
a radius down to whole units is added to the radius of the result.

A convergent series is summed term by term, and what is left out is added to the
radius as well.  Twice the first omitted term is enough where every term is at
most half of the one before it, and also where the signs alternate and the terms
shrink.
-/

namespace Planar

/-- The real numbers within `radius` of `mid`, in units of a power of two. -/
structure Ball where
  /-- The midpoint. -/
  mid : Int
  /-- The greatest distance from the midpoint. -/
  radius : Nat
deriving Repr

namespace Ball

/-- A bound on the magnitudes in a ball. -/
def bound (a : Ball) : Nat := a.mid.natAbs + a.radius

/-- The quotient of two natural numbers, at precision `p`. -/
def ofRatio (p n d : Nat) : Ball := ⟨(((n <<< p) / d : Nat) : Int), 1⟩

/-- The ball of the negated numbers. -/
def neg (a : Ball) : Ball := ⟨-a.mid, a.radius⟩

/-- The ball of the sums. -/
def add (a b : Ball) : Ball := ⟨a.mid + b.mid, a.radius + b.radius⟩

/-- The ball of the differences. -/
def sub (a b : Ball) : Ball := a.add b.neg

/-- The ball of the products, at precision `p`. -/
def mul (p : Nat) (a b : Ball) : Ball :=
  ⟨(a.mid * b.mid) >>> p,
    ((a.mid.natAbs * b.radius + a.radius * b.bound) >>> p) + 2⟩

/-- The ball of the multiples by a natural number. -/
def times (a : Ball) (n : Nat) : Ball := ⟨a.mid * n, a.radius * n⟩

/-- The ball of the quotients by a positive natural number. -/
def dividedBy (a : Ball) (n : Nat) : Ball := ⟨a.mid / n, a.radius / n + 2⟩

/-- The same numbers in units that are `2^bits` times as long. -/
def coarsen (bits : Nat) (a : Ball) : Ball := ⟨a.mid >>> bits, (a.radius >>> bits) + 2⟩

/-- The sum of `count` terms, each made from the one before it, with room for the
rest of the series. -/
def series (next : Nat → Ball → Ball) : Nat → Nat → Ball → Ball
  | 0, _, term => ⟨0, 2 * term.bound⟩
  | count + 1, k, term => term.add (series next count (k + 1) (next k term))

end Ball

end Planar
