/-
The bit patterns of the interchange format.

The lower 63 bits of a nonnegative finite number are its rank, and those of the
infinity are the first rank that is no longer finite: the format orders its
patterns as the numbers they stand for.  What lies beyond infinity is NaN.  Every
NaN pattern reads as the one NaN, which is written back as the quiet one without
payload.
-/
import Planar.Binary64.Basic

namespace Planar.Binary64

/-- The number that a pattern of 64 bits stands for; higher bits are ignored. -/
def ofBits (bits : Nat) : Binary64 :=
  let negative := decide ((bits >>> 63) % 2 = 1)
  let r := bits % 0x8000000000000000
  if 0x7ff0000000000000 < r then nan else ofRank negative r

/-- The 64 bits of a number. -/
def toBits : Binary64 → Nat
  | nan => 0x7ff8000000000000
  | infinite s => (if s then 0x8000000000000000 else 0) + 0x7ff0000000000000
  | finite s r => (if s then 0x8000000000000000 else 0) + r.val

end Planar.Binary64
