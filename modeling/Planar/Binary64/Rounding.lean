/-
Rounding to the nearest binary64 number, ties to even.

Every operation of this library that rounds does so through one function:
`nearestRank n d` is the rank nearest to the magnitude `n / d`, counted in units
of 2^-1074.  Let `q = n / d` rounded down.  If `q < 2^53` the magnitude lies in
the first two blocks, where the step is one unit; otherwise it lies where the
step is `2^k` with `k = log₂ q - 52`.  Natural subtraction makes `k` come out
right in both cases.  Rounding `n / (d · 2^k)` to a whole number `m` of steps
then gives the rank `k · 2^52 + m`.  When `m` reaches `2^53` this sum is the
first rank of the next block, so a carry needs no case of its own, and since
`k · 2^52` is even a tie goes to the even rank exactly when it goes to the even
`m`.

A rank past the last finite one means that the magnitude is at least half a step
beyond the greatest finite number, which is where infinity begins.
-/
import Planar.Binary64.Basic

namespace Planar

/-- The whole number nearest to `n / d`; of two equally near ones, the even one. -/
def roundHalfEven (n d : Nat) : Nat :=
  let q := n / d
  let rest := 2 * (n % d)
  if rest < d then q
  else if d < rest then q + 1
  else q + q % 2

/-- The rank nearest to the magnitude `n / d`, counted in units of 2^-1074. -/
def nearestRank (n d : Nat) : Nat :=
  let k := (n / d).log2 - 52
  (k <<< 52) + roundHalfEven n (d <<< k)

namespace Binary64

/-- The number nearest to `± n / d`, counted in units of 2^-1074. -/
def ofUnits (negative : Bool) (n d : Nat) : Binary64 :=
  ofRank negative (nearestRank n d)

/-- The number nearest to `± n / d`. -/
def ofRatio (negative : Bool) (n d : Nat) : Binary64 :=
  ofUnits negative (n * unitsInOne) d

/-- The number nearest to an integer; the integer 0 gives the positive zero. -/
def ofInt (n : Int) : Binary64 := ofRatio (decide (n < 0)) n.natAbs 1

/-! ### Decimal literals

`± c · 10^e` can have an exponent of any length, while only exponents within a
few hundred of the digits' own length matter.  A positive exponent above 309 on
a nonzero coefficient is past the greatest finite number.  A negative one that
exceeds the coefficient's bit length by more than 330 leaves less than
10^-330, which is far below half a unit.  Between those bounds the power of ten
is computed exactly.
-/

/-- The number nearest to `± c · 10^e`. -/
def ofDecimal (negative : Bool) (c : Nat) (e : Int) : Binary64 :=
  if c = 0 then zero negative
  else
    match e with
    | .ofNat n =>
      if 309 < n then infinite negative else ofRatio negative (c * Nat.pow 10 n) 1
    | .negSucc n =>
      if c.log2 + 330 < n then zero negative else ofRatio negative c (Nat.pow 10 (n + 1))

instance : OfScientific Binary64 where
  ofScientific c down e := ofDecimal false c (if down then -(e : Int) else (e : Int))

end Binary64

end Planar
