/-
The binary64 numbers, named by rank.

The nonnegative finite numbers of the format form one increasing sequence

    0, u, 2u, 3u, …        where u = 2^-1074 is the least positive one,

first in steps of `u`, and in steps twice as long after every further power of
two.  A magnitude is named here by its place in that sequence, its rank.  Rank
`r` lies in block `r / 2^52`; the blocks `0` and `1` share the step `u`, block
`k + 1` has the step `2^k · u`, and there are 2047 blocks.  So

    scale r       = r / 2^52 - 1                    (0 in the first two blocks)
    significand r = r - scale r · 2^52
    units r       = significand r · 2^(scale r)     (the magnitude, counted in u)

and nothing else has to be said of subnormal numbers, hidden bits or exponents.

There is one NaN: its sign and payload carry no meaning here.  The two zeros are
the two signs of rank 0, and they are different as data; that they are equal as
numbers is what `numEq` says.
-/

namespace Planar

/-- A place in the increasing sequence of finite magnitudes: 2047 blocks of 2^52. -/
abbrev Rank : Type := Fin 0x7ff0000000000000

/-- A number of the IEEE 754 binary64 format. -/
inductive Binary64 where
  /-- Not a number. -/
  | nan
  /-- An infinity. -/
  | infinite (negative : Bool)
  /-- A finite number: its sign and the rank of its magnitude. -/
  | finite (negative : Bool) (rank : Rank)
deriving DecidableEq, Repr

/-- How many units of 2^-1074 make up the number 1. -/
def unitsInOne : Nat := 1 <<< 1074

namespace Rank

/-- The power of two by which the step at rank `r` exceeds the least step. -/
def scale (r : Nat) : Nat := (r >>> 52) - 1

/-- How many steps of its own block's length make up the magnitude of rank `r`. -/
def significand (r : Nat) : Nat := r - (scale r <<< 52)

/-- The magnitude of rank `r`, counted in units of 2^-1074. -/
def units (r : Nat) : Nat := significand r <<< scale r

end Rank

namespace Binary64

instance : Inhabited Binary64 := ⟨nan⟩

/-- The zero of the given sign. -/
def zero (negative : Bool) : Binary64 := finite negative ⟨0, by decide⟩

/-- The number of a sign and a rank; ranks past the last finite one are infinite. -/
def ofRank (negative : Bool) (r : Nat) : Binary64 :=
  if h : r < 0x7ff0000000000000 then finite negative ⟨r, h⟩ else infinite negative

/-- A finite number counted in units of 2^-1074. -/
def signedUnits (negative : Bool) (r : Rank) : Int :=
  if negative then -(Rank.units r : Int) else (Rank.units r : Int)

/-! ### Classes of numbers -/

/-- Neither infinite nor NaN. -/
def isFinite : Binary64 → Bool
  | finite _ _ => true
  | _ => false

/-- Not a number. -/
def isNaN : Binary64 → Bool
  | nan => true
  | _ => false

/-- The sign bit; NaN has none. -/
def isNegative : Binary64 → Bool
  | nan => false
  | infinite s => s
  | finite s _ => s

/-! ### Order

Every number but NaN has a place on one integer line: a finite number at its
signed rank, so that both zeros share the place 0, and the infinities just past
the ends.  Comparing numbers is comparing places, and a comparison with NaN is
false.
-/

/-- The place of a number on the line of signed ranks; NaN has none. -/
def place? : Binary64 → Option Int
  | nan => none
  | infinite s => some (if s then -0x7ff0000000000000 else 0x7ff0000000000000)
  | finite s r => some (if s then -(r.val : Int) else (r.val : Int))

/-- Both places exist and stand in the relation `r`. -/
def compareBy (r : Int → Int → Bool) (a b : Binary64) : Bool :=
  match a.place?, b.place? with
  | some i, some j => r i j
  | _, _ => false

/-- Numeric less-than: false when either side is NaN. -/
def numLt (a b : Binary64) : Bool := compareBy (fun i j => decide (i < j)) a b

/-- Numeric less-or-equal: false when either side is NaN. -/
def numLe (a b : Binary64) : Bool := compareBy (fun i j => decide (i ≤ j)) a b

/-- Numeric equality: the zeros are equal, and NaN differs from everything. -/
def numEq (a b : Binary64) : Bool := compareBy (fun i j => decide (i = j)) a b

end Binary64

end Planar
