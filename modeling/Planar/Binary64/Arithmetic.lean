/-
Arithmetic on binary64 numbers.

Each operation on finite numbers is the exact result, written as a ratio of whole
numbers counted in units of 2^-1074, rounded once:

    x + y     signed sum of units, over 1
    x · y     product of units, over 2^1074
    x / y     units of x times 2^1074, over the units of y
    √x        root of (units of x times 2^1074), see below

What is left for each operation are the cases in which an operand is infinite or
NaN and the sign of a zero.  A remainder and the roundings to whole numbers are
exact, so they go through the same function without being changed by it.

For the square root let `n` be the units of `x` times 2^1074 and `r` its root
rounded down.  When `r² = n` the root is `r`; otherwise it lies strictly between
`r` and `r + 1`, and since `n ≥ 2^1074` makes `r` a number of more than 500 bits,
every boundary between two roundings is a whole number.  So `r + 1/2` rounds as
the root does.
-/
import Planar.Binary64.Rounding

namespace Planar

/-- The square root of `n` rounded down, for `n` below `4^bits`. -/
def rootBelow : Nat → Nat → Nat
  | 0, _ => 0
  | bits + 1, n =>
    let r := 2 * rootBelow bits (n / 4)
    if (r + 1) * (r + 1) ≤ n then r + 1 else r

/-- The square root of a natural number, rounded down. -/
def floorRoot (n : Nat) : Nat := rootBelow (n.log2 / 2 + 1) n

namespace Binary64

/-! ### Signs -/

/-- The number with the other sign. -/
def neg : Binary64 → Binary64
  | nan => nan
  | infinite s => infinite !s
  | finite s r => finite (!s) r

/-- The number without its sign. -/
def abs : Binary64 → Binary64
  | nan => nan
  | infinite _ => infinite false
  | finite _ r => finite false r

/-! ### The four operations -/

/-- The sum.  An exact sum of zero is negative only when both terms are. -/
def add : Binary64 → Binary64 → Binary64
  | nan, _ => nan
  | _, nan => nan
  | infinite s, infinite t => if s = t then infinite s else nan
  | infinite s, finite _ _ => infinite s
  | finite _ _, infinite t => infinite t
  | finite s a, finite t b =>
    let sum := signedUnits s a + signedUnits t b
    if sum = 0 then zero (s && t) else ofUnits (decide (sum < 0)) sum.natAbs 1

/-- The difference: the sum with the second operand's sign turned. -/
def sub (a b : Binary64) : Binary64 := add a (neg b)

/-- The product. -/
def mul : Binary64 → Binary64 → Binary64
  | nan, _ => nan
  | _, nan => nan
  | infinite s, infinite t => infinite (s ^^ t)
  | infinite s, finite t b => if b.val = 0 then nan else infinite (s ^^ t)
  | finite s a, infinite t => if a.val = 0 then nan else infinite (s ^^ t)
  | finite s a, finite t b => ofUnits (s ^^ t) (Rank.units a * Rank.units b) unitsInOne

/-- The quotient. -/
def div : Binary64 → Binary64 → Binary64
  | nan, _ => nan
  | _, nan => nan
  | infinite _, infinite _ => nan
  | infinite s, finite t _ => infinite (s ^^ t)
  | finite s _, infinite t => zero (s ^^ t)
  | finite s a, finite t b =>
    if b.val = 0 then
      if a.val = 0 then nan else infinite (s ^^ t)
    else ofUnits (s ^^ t) (Rank.units a * unitsInOne) (Rank.units b)

instance : Add Binary64 := ⟨add⟩
instance : Sub Binary64 := ⟨sub⟩
instance : Mul Binary64 := ⟨mul⟩
instance : Div Binary64 := ⟨div⟩
instance : Neg Binary64 := ⟨neg⟩

/-! ### Square root, remainder, whole numbers -/

/-- The square root; a negative number other than the zero has none. -/
def sqrt : Binary64 → Binary64
  | nan => nan
  | infinite s => if s then nan else infinite false
  | finite s a =>
    if a.val = 0 then finite s a
    else if s then nan
    else
      let n := Rank.units a * unitsInOne
      let r := floorRoot n
      ofUnits false (if r * r = n then 2 * r else 2 * r + 1) 2

/-- The exact remainder of a division that rounds its quotient toward zero; it
has the sign of the dividend. -/
def remainder : Binary64 → Binary64 → Binary64
  | finite s a, finite _ b =>
    if b.val = 0 then nan else ofUnits s (Rank.units a % Rank.units b) 1
  | finite s a, infinite _ => finite s a
  | _, _ => nan

/-- The whole number next to a finite number, away from zero if `away` holds and
toward zero if not.  The sign stays, so that what falls to zero keeps it. -/
def wholeNext (negative away : Bool) (r : Rank) : Binary64 :=
  let u := Rank.units r
  let whole := if away && u % unitsInOne != 0 then u / unitsInOne + 1 else u / unitsInOne
  ofUnits negative (whole * unitsInOne) 1

/-- The greatest whole number that is not above. -/
def floor : Binary64 → Binary64
  | finite s r => wholeNext s s r
  | x => x

/-- The least whole number that is not below. -/
def ceil : Binary64 → Binary64
  | finite s r => wholeNext s (!s) r
  | x => x

/-- The whole part, without the fraction. -/
def trunc : Binary64 → Binary64
  | finite s r => wholeNext s false r
  | x => x

end Binary64

end Planar
