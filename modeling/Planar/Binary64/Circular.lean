/-
Sine, cosine and the angle of a direction, correctly rounded.

A value is enclosed in a ball at some precision.  If both ends of the ball round
to the same number, that number is the value's rounding; if not, the value is
enclosed again at a higher precision.  256 bits settle all but very small
results, which need as many bits as the format has places (1280), and directions
whose slope lies exactly between two numbers, from which the angle differs only
by the cube of the slope (4096).

An angle is at most π in magnitude, so its rounding is at most the number nearest
to π, and the rank of that number is where the ranks of angles end.
-/
import Planar.Binary64.Arithmetic
import Planar.Enclosure.Circular

namespace Planar.Binary64

/-- The precisions at which a value is enclosed, in turn. -/
def precisions : List Nat := [256, 1280, 4096]

/-- The rank nearest to a magnitude in units of 2^-p. -/
def rankAt (p n : Nat) : Nat := nearestRank (n * unitsInOne) (1 <<< p)

/-- The sign and the rank of an enclosed value, at the first precision that
settles the rank, or from the midpoint at the last one. -/
def settle (enclose : Nat → Ball) : List Nat → Bool × Nat
  | [] => (false, 0)
  | p :: rest =>
    let ball := enclose p
    let size := ball.mid.natAbs
    let low := rankAt p (size - ball.radius)
    if rest.isEmpty || low == rankAt p (size + ball.radius) then (decide (ball.mid < 0), low)
    else settle enclose rest

/-- The sine; an infinite angle has none. -/
def sin : Binary64 → Binary64
  | finite s r =>
    if r.val = 0 then finite s r
    else
      let (t, rank) := settle (fun p => Ball.sin p (Rank.units r) unitsInOne) precisions
      ofRank (s ^^ t) rank
  | _ => nan

/-- The cosine; an infinite angle has none. -/
def cos : Binary64 → Binary64
  | finite _ r =>
    let (t, rank) := settle (fun p => Ball.cos p (Rank.units r) unitsInOne) precisions
    ofRank t rank
  | _ => nan

/-! ### The angle of a direction -/

/-- The magnitudes of two numbers as whole numbers in the same ratio; beside an
infinite one, a finite one does not count. -/
def ratio? : Binary64 → Binary64 → Option (Nat × Nat)
  | nan, _ => none
  | _, nan => none
  | infinite _, infinite _ => some (1, 1)
  | infinite _, finite _ _ => some (1, 0)
  | finite _ _, infinite _ => some (0, 1)
  | finite _ a, finite _ b => some (Rank.units a, Rank.units b)

/-- The rank of the number nearest to π. -/
def halfTurnRank : Nat := 0x400921fb54442d18

/-- The angle, between -π and π, of the direction that goes `x` along the first
axis and `y` along the second.  It has the sign of `y`, and the direction of the
two zeros goes along the first axis, backwards if `x` is the negative zero. -/
def angle (y x : Binary64) : Binary64 :=
  match ratio? y x with
  | none => nan
  | some (a, b) =>
    if a = 0 && !x.isNegative then zero y.isNegative
    else
      let (_, rank) := settle (fun p => Ball.halfAngle p a b x.isNegative) precisions
      ofRank y.isNegative (min rank halfTurnRank)

end Planar.Binary64
