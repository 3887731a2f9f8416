/-
Enclosures of the circular functions.

The arc tangent of a ratio `a / b` is summed by the series

    arctan (a/b) = Σ tₖ      t₀ = ab / (a² + b²)
                             tₖ₊₁ = tₖ · w · 2(k+1) / (2k+3)      w = a² / (a² + b²)

all of whose terms are positive and shrink at least by the factor `w`.  Only
ratios up to about 0.43 are given to it, for which `w` is less than 1/6, so every
term adds two bits and more: a greater ratio up to 1 is turned by an eighth of
the circle, where it becomes `(b - a) / (b + a)`, and one above 1 by a quarter.

For the sine and the cosine the angle is brought near zero by taking away a whole
number of quarter circles.  An angle with a long whole part needs π to as many
more bits as that part has, or the difference would have none left.  What remains
is at most an eighth of the circle, where the power series converge quickly.
-/
import Planar.Enclosure.Ball

namespace Planar.Ball

/-- The arc tangent of `a / b`, from `count` terms of its series. -/
def arctanSeries (p count a b : Nat) : Ball :=
  let square := a * a + b * b
  let w := ofRatio p (a * a) square
  series (fun k t => ((t.mul p w).times (2 * (k + 1))).dividedBy (2 * k + 3)) count 0
    (ofRatio p (a * b) square)

/-- The number π, as sixteen times the arc tangent of 1/5 less four times that of
1/239. -/
def pi (p : Nat) : Ball :=
  ((arctanSeries p (p / 4 + 4) 1 5).times 16).sub ((arctanSeries p (p / 4 + 4) 1 239).times 4)

/-- The arc tangent of `a / b` for `a` up to `b`. -/
def arctanBelowOne (p a b : Nat) : Ball :=
  if 5 * a ≤ 2 * b then arctanSeries p (p / 2 + 4) a b
  else ((pi p).dividedBy 4).sub (arctanSeries p (p / 2 + 4) (b - a) (b + a))

/-- The angle between the first axis and the direction `b` along it and `a`
across it. -/
def quarterAngle (p a b : Nat) : Ball :=
  if a ≤ b then arctanBelowOne p a b
  else ((pi p).dividedBy 2).sub (arctanBelowOne p b a)

/-- The angle of the direction across `a` and along `b`, or along `-b`. -/
def halfAngle (p a b : Nat) (backwards : Bool) : Ball :=
  let angle := quarterAngle p a b
  if backwards then (pi p).sub angle else angle

/-- The sine of a small angle. -/
def sinSmall (p : Nat) (a : Ball) : Ball :=
  let square := a.mul p a
  series (fun k t => ((t.mul p square).dividedBy ((2 * k + 2) * (2 * k + 3))).neg) (p / 8 + 8) 0 a

/-- The cosine of a small angle. -/
def cosSmall (p : Nat) (a : Ball) : Ball :=
  let square := a.mul p a
  series (fun k t => ((t.mul p square).dividedBy ((2 * k + 1) * (2 * k + 2))).neg) (p / 8 + 8) 0
    ⟨(1 <<< p : Nat), 0⟩

/-- The angle `n / d` as a number of quarter circles and what remains. -/
def quarters (p n d : Nat) : Nat × Ball :=
  let extra := (n / d).log2 + 8
  let fine := p + extra
  let quarter := (pi fine).dividedBy 2
  let angle := ofRatio fine n d
  let count := ((angle.mid + quarter.mid / 2) / quarter.mid).toNat
  (count, (angle.sub (quarter.times count)).coarsen extra)

/-- The sine of the angle `n / d`. -/
def sin (p n d : Nat) : Ball :=
  let (count, rest) := quarters p n d
  match count % 4 with
  | 0 => sinSmall p rest
  | 1 => cosSmall p rest
  | 2 => (sinSmall p rest).neg
  | _ => (cosSmall p rest).neg

/-- The cosine of the angle `n / d`. -/
def cos (p n d : Nat) : Ball :=
  let (count, rest) := quarters p n d
  match count % 4 with
  | 0 => cosSmall p rest
  | 1 => (sinSmall p rest).neg
  | 2 => (cosSmall p rest).neg
  | _ => sinSmall p rest

end Planar.Ball
