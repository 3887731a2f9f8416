/-
Compact JSON text.

No blanks are written.  The members of an object are written in the order of
their keys, by code point, and of several members with one key the last one is
written.

In a string, a quote, a backslash and the five controls that have a letter are
written with a backslash; the other controls below the space are written as `\u`
with four hexadecimal digits, and everything else as it is.
-/
import Planar.Decimal.Layout
import Planar.Json.Basic

namespace Planar.Json

/-- How a number that is not whole is written: positionally from 10^-5 up to
10^15, otherwise with an exponent that shows its sign. -/
def realLayout : Layout := ⟨.even, some (-5, 15), true, true⟩

/-- The text of a number. -/
def Number.text : Number → List Char
  | integer n => (if n < 0 then ['-'] else []) ++ Nat.toDigits 10 n.natAbs
  | real x => realLayout.write x

/-- A character as it is written in a string. -/
def escapeChar (c : Char) : List Char :=
  if c = '"' then ['\\', '"']
  else if c = '\\' then ['\\', '\\']
  else if c = '\x08' then ['\\', 'b']
  else if c = '\x0c' then ['\\', 'f']
  else if c = '\n' then ['\\', 'n']
  else if c = '\r' then ['\\', 'r']
  else if c = '\t' then ['\\', 't']
  else if c.toNat < 0x20 then
    ['\\', 'u', '0', '0', Nat.digitChar (c.toNat / 16), Nat.digitChar (c.toNat % 16)]
  else [c]

/-- The text of a string. -/
def stringText (s : String) : List Char := '"' :: (s.toList.flatMap escapeChar ++ ['"'])

/-- The text of a scalar. -/
def Scalar.text : Scalar → List Char
  | null => ['n', 'u', 'l', 'l']
  | boolean true => ['t', 'r', 'u', 'e']
  | boolean false => ['f', 'a', 'l', 's', 'e']
  | number n => n.text
  | string s => stringText s

/-- Puts a member at its place in a list sorted by key, in place of one with the
same key. -/
def insertMember {α : Type} (key : String) (value : α) : List (String × α) → List (String × α)
  | [] => [(key, value)]
  | (k, v) :: rest =>
    if key < k then (key, value) :: (k, v) :: rest
    else if key = k then (key, value) :: rest
    else (k, v) :: insertMember key value rest

/-- The members sorted by key; of several with one key, the last one. -/
def sortMembers {α : Type} (members : List (String × α)) : List (String × α) :=
  members.foldl (fun sorted (k, v) => insertMember k v sorted) []

/-- Texts with commas between them. -/
def joinWithCommas : List (List Char) → List Char
  | [] => []
  | [t] => t
  | t :: rest => t ++ ',' :: joinWithCommas rest

/-- An array of written items. -/
def arrayText (items : List (List Char)) : List Char :=
  '[' :: (joinWithCommas items ++ [']'])

/-- An object of members with written values. -/
def objectText (members : List (String × List Char)) : List Char :=
  '\x7b' ::
    (joinWithCommas ((sortMembers members).map fun (k, t) => stringText k ++ ':' :: t)
      ++ ['\x7d'])

mutual

/-- The text of a value. -/
def text : Json → List Char
  | scalar s => s.text
  | array items => arrayText (itemTexts items)
  | object members => objectText (memberTexts members)

/-- The texts of an array's items. -/
def itemTexts : List Json → List (List Char)
  | [] => []
  | v :: rest => text v :: itemTexts rest

/-- The members of an object with the texts of their values. -/
def memberTexts : List (String × Json) → List (String × List Char)
  | [] => []
  | (k, v) :: rest => (k, text v) :: memberTexts rest

end

end Planar.Json
