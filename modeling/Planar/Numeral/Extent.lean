/-
The extent of a numeral in the bytes of a text.

`Numeral.scan?` walks over characters and keeps the parts.  Here the numeral at the
start of a text is found by position on the text's bytes, and only its extent is kept:
how many bytes it takes, and 0 if there is none.  Digits, signs, the point and the
letters of a numeral are one byte each in UTF-8, so no character is decoded.

Every access is checked.  A byte may be asked for only where there is one, the bytes
from a position on only if the position is not behind the end, and the distance between
two positions only if they are in order.  If not, there is no result.

Positions move forward only.  Where a part turns out to be incomplete, the position
in front of it stands: a point without a digit on either side, and the letter of a
power, with or without a sign, that no digits follow.
-/
import Planar.Numeral

namespace Planar.Numeral

/-! ### Checked access -/

/-- Whether a byte is a digit. -/
def isDigitByte (x : UInt8) : Bool := '0'.toUInt8 ≤ x && x ≤ '9'.toUInt8

/-- Whether one of the given characters stands at a position.  At the end no byte is asked
for. -/
def standsAt? (marks : List Char) (b : ByteArray) (i : Nat) : Option Bool :=
  if i < b.size then do
    let x ← b[i]?
    return marks.any fun c => x == c.toUInt8
  else return false

/-- The bytes from a position on. -/
def bytesFrom? (b : ByteArray) (i : Nat) : Option (List UInt8) :=
  if i ≤ b.size then some (b.data.toList.drop i) else none

/-- The distance from one position to a later one. -/
def distance? (i j : Nat) : Option Nat := if i ≤ j then some (j - i) else none

/-! ### The parts -/

/-- The position behind a sign, if there is one. -/
def behindSign? (b : ByteArray) (i : Nat) : Option Nat := do
  if ← standsAt? ['+', '-'] b i then return i + 1 else return i

/-- The position behind all the digits that stand at a position. -/
def behindDigits? (b : ByteArray) (i : Nat) : Option Nat :=
  if i < b.size then do
    let x ← b[i]?
    if isDigitByte x then behindDigits? b (i + 1) else return i
  else return i
termination_by b.size - i

/-- The position behind a point and its digits, and the number of the mantissa's digits
with them.  A point needs a digit before or after it. -/
def behindFraction? (b : ByteArray) (i digits : Nat) : Option (Nat × Nat) := do
  if ← standsAt? ['.'] b i then
    let j ← behindDigits? b (i + 1)
    let places ← distance? (i + 1) j
    return (if 0 < digits + places then j else i, digits + places)
  else return (i, digits)

/-- The position behind a power, if digits follow its letter. -/
def behindPower? (b : ByteArray) (i : Nat) : Option Nat := do
  if ← standsAt? ['e', 'E'] b i then
    let start ← behindSign? b (i + 1)
    let j ← behindDigits? b start
    return if start < j then j else i
  else return i

/-- The position behind a mantissa and its power; 0 if there are no digits. -/
def behindDecimal? (b : ByteArray) (start : Nat) : Option Nat := do
  let i ← behindDigits? b start
  let whole ← distance? start i
  let (j, digits) ← behindFraction? b i whole
  if digits = 0 then return 0 else behindPower? b j

/-- The bytes of the word for infinity. -/
def infinityBytes : List UInt8 := infinityWord.map Char.toUInt8

/-- How many bytes the numeral at the start takes; 0 if there is none. -/
def extent? (b : ByteArray) : Option Nat := do
  let start ← behindSign? b 0
  let unsigned ← bytesFrom? b start
  if infinityBytes.isPrefixOf unsigned then return start + infinityBytes.length
  else behindDecimal? b start

end Planar.Numeral
