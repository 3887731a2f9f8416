/-
Texts in double quotes, as messages show them.

A quote and a backslash get a backslash, and so do the letters that stand for
tab, line feed, carriage return and NUL.  Every other character that would not
show as a glyph of its own is written by its code point, `\u` with hexadecimal
digits in braces: the controls, the blanks other than the space, the format
characters, the marks that combine with what stands before them, and the private
use areas.  Everything else stands for itself.
-/
import Planar.Text.Blank

namespace Planar.Text

/-- The ranges of code points that do not show as glyphs of their own. -/
def hiddenRanges : List (Nat × Nat) :=
  [(0x00, 0x1f), (0x7f, 0xa0), (0xad, 0xad), (0x300, 0x36f), (0x483, 0x489),
    (0x591, 0x5bd), (0x600, 0x605), (0x610, 0x61a), (0x61c, 0x61c), (0x64b, 0x65f),
    (0x1680, 0x1680), (0x180b, 0x180f), (0x1ab0, 0x1ace), (0x1dc0, 0x1dff),
    (0x2000, 0x200f), (0x2028, 0x202f), (0x205f, 0x206f), (0x20d0, 0x20f0),
    (0x3000, 0x3000), (0xe000, 0xf8ff), (0xfe00, 0xfe0f), (0xfe20, 0xfe2f),
    (0xfeff, 0xfeff), (0xfff0, 0xfffb), (0xfffe, 0xffff), (0xe0000, 0x10ffff)]

/-- A character as it is written between double quotes. -/
def quoteChar (c : Char) : List Char :=
  if c = '"' then ['\\', '"']
  else if c = '\\' then ['\\', '\\']
  else if c = '\t' then ['\\', 't']
  else if c = '\n' then ['\\', 'n']
  else if c = '\r' then ['\\', 'r']
  else if c = '\x00' then ['\\', '0']
  else if inRanges hiddenRanges c.toNat then
    '\\' :: 'u' :: '\x7b' :: (Nat.toDigits 16 c.toNat ++ ['\x7d'])
  else [c]

/-- A text in double quotes. -/
def quoted (cs : List Char) : List Char := '"' :: (cs.flatMap quoteChar ++ ['"'])

end Planar.Text
