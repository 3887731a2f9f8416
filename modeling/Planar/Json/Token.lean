/-
The tokens of a JSON text.

A text is cut into tokens from the left, with blanks between them skipped, up to
its end or to the first place where no token starts; that place is marked by the
token `invalid`, after which there are no more.  So the tokens before it can be
read, and complained about, before the flaw is reached.

Two tokens have the right shape without standing for a value: a number beyond
the range of binary64, and a string with half of a surrogate pair.  Whether they
are flaws is up to the reader; one that only skips a value passes over them.

Numbers are the numerals of this library with less freedom: no plus sign, no
leading zeros, digits on both sides of a point, and digits after an `e`.
-/
import Planar.Json.Basic
import Planar.Numeral

namespace Planar

namespace Json

/-- A token of a JSON text. -/
inductive Token where
  | openArray
  | closeArray
  | openObject
  | closeObject
  | comma
  | colon
  | scalar (s : Scalar)
  /-- A number that no finite binary64 number is near. -/
  | outOfRange
  /-- A string with half of a surrogate pair. -/
  | unpaired
  /-- The place where no token starts. -/
  | invalid
deriving DecidableEq, Repr

/-! ### Strings

The contents of a string are first read as code units, in which an escape may
name a surrogate; then pairs of surrogates are joined.  A character that stands
for itself is never a surrogate, so every surrogate comes from an escape.
-/

/-- The value of a hexadecimal digit. -/
def hexValue? (c : Char) : Option Nat :=
  if '0' ≤ c ∧ c ≤ '9' then some (c.toNat - '0'.toNat)
  else if 'a' ≤ c ∧ c ≤ 'f' then some (c.toNat - 'a'.toNat + 10)
  else if 'A' ≤ c ∧ c ≤ 'F' then some (c.toNat - 'A'.toNat + 10)
  else none

/-- The value of four hexadecimal digits. -/
def codeUnit? (a b c d : Char) : Option Nat := do
  let a ← hexValue? a
  let b ← hexValue? b
  let c ← hexValue? c
  let d ← hexValue? d
  return ((a * 16 + b) * 16 + c) * 16 + d

/-- What a letter after a backslash stands for. -/
def escaped? (c : Char) : Option Char :=
  match c with
  | '"' => some '"'
  | '\\' => some '\\'
  | '/' => some '/'
  | 'b' => some '\x08'
  | 'f' => some '\x0c'
  | 'n' => some '\n'
  | 'r' => some '\r'
  | 't' => some '\t'
  | _ => none

/-- The contents of a string up to its closing quote, and what follows it. -/
def stringUnits? : List Char → Option (List Nat × List Char)
  | [] => none
  | '"' :: cs => some ([], cs)
  | '\\' :: 'u' :: a :: b :: c :: d :: cs =>
    match codeUnit? a b c d, stringUnits? cs with
    | some n, some (ns, rest) => some (n :: ns, rest)
    | _, _ => none
  | '\\' :: c :: cs =>
    match escaped? c, stringUnits? cs with
    | some e, some (ns, rest) => some (e.toNat :: ns, rest)
    | _, _ => none
  | c :: cs =>
    if c.toNat < 0x20 ∨ c = '\\' then none
    else
      match stringUnits? cs with
      | some (ns, rest) => some (c.toNat :: ns, rest)
      | none => none

/-- Whether a code unit is the first half of a surrogate pair. -/
def isHighSurrogate (n : Nat) : Bool := decide (0xd800 ≤ n) && decide (n < 0xdc00)

/-- Whether a code unit is the second half of a surrogate pair. -/
def isLowSurrogate (n : Nat) : Bool := decide (0xdc00 ≤ n) && decide (n < 0xe000)

/-- The characters that code units stand for, if no surrogate is alone. -/
def joinSurrogates? : List Nat → Option (List Char)
  | [] => some []
  | [n] => if isHighSurrogate n || isLowSurrogate n then none else some [Char.ofNat n]
  | n :: m :: rest =>
    if isHighSurrogate n then
      if isLowSurrogate m then
        (joinSurrogates? rest).map
          (Char.ofNat (0x10000 + (n - 0xd800) * 0x400 + (m - 0xdc00)) :: ·)
      else none
    else if isLowSurrogate n then none
    else (joinSurrogates? (m :: rest)).map (Char.ofNat n :: ·)

/-- The token of a string with the given contents. -/
def Token.ofUnits (units : List Nat) : Token :=
  match joinSurrogates? units with
  | some cs => scalar (.string (String.ofList cs))
  | none => unpaired

/-! ### Numbers -/

/-- The token of a number that is not whole, or too long to be kept as such. -/
def Token.ofReal (x : Binary64) : Token :=
  if x.isFinite then scalar (.number (.real x)) else outOfRange

/-- Whether a numeral keeps to the grammar of JSON numbers.  `rest` is what
follows it: an `e` there would have to open a power. -/
def isJsonNumeral (rest : List Char) : Numeral → Bool
  | .infinity _ => false
  | .decimal sign whole fraction power =>
    sign != .plus && whole != [] && (whole.head? != some '0' || whole.length == 1)
      && fraction != some []
      && (power.isSome || (rest.head? != some 'e' && rest.head? != some 'E'))

/-- The token of a numeral.  One without fraction and power is a whole number
if it fits; a whole zero with a minus sign is the negative zero. -/
def Token.ofNumeral (n : Numeral) : Token :=
  match n with
  | .decimal sign whole none none =>
    let size := Nat.ofDigitChars 10 whole 0
    if sign.isMinus then
      if 0 < size ∧ size ≤ 0x8000000000000000 then scalar (.number (.integer (-size))) else ofReal n.value
    else if size < 0x10000000000000000 then scalar (.number (.integer size))
    else ofReal n.value
  | _ => ofReal n.value

/-! ### Cutting -/

/-- Whether a character may stand between tokens. -/
def isBlank (c : Char) : Bool := c = ' ' || c = '\t' || c = '\n' || c = '\r'

/-- The token of a word, if the text goes on with the rest of the word. -/
def wordToken (rest : List Char) (s : Scalar) (cs : List Char) : Token × List Char :=
  match Text.afterWord? rest cs with
  | some after => (.scalar s, after)
  | none => (.invalid, [])

/-- The token that starts with a character, and what follows it. -/
def Token.read (c : Char) (cs : List Char) : Token × List Char :=
  match c with
  | '[' => (openArray, cs)
  | ']' => (closeArray, cs)
  | '\x7b' => (openObject, cs)
  | '\x7d' => (closeObject, cs)
  | ',' => (comma, cs)
  | ':' => (colon, cs)
  | '"' =>
    match stringUnits? cs with
    | some (units, rest) => (ofUnits units, rest)
    | none => (invalid, [])
  | 'n' => wordToken ['u', 'l', 'l'] .null cs
  | 't' => wordToken ['r', 'u', 'e'] (.boolean true) cs
  | 'f' => wordToken ['a', 'l', 's', 'e'] (.boolean false) cs
  | _ =>
    if c = '-' ∨ c.isDigit then
      match Numeral.scan? (c :: cs) with
      | some (n, rest) => if isJsonNumeral rest n then (ofNumeral n, rest) else (invalid, [])
      | none => (invalid, [])
    else (invalid, [])

theorem length_le_of_stringUnits? {cs rest : List Char} {units : List Nat}
    (h : stringUnits? cs = some (units, rest)) : rest.length ≤ cs.length := by
  fun_induction stringUnits? cs generalizing units rest with
  | case1 => cases h
  | case2 => cases h; simp
  | case3 a b c d cs n ns rest' hs hn ih =>
    cases h
    have := ih hs
    simp only [List.length_cons]
    omega
  | case5 c cs hu e ns rest' hs he ih =>
    cases h
    have := ih hs
    simp only [List.length_cons]
    omega
  | case8 c cs hu hq hb hc ns rest' hs ih =>
    cases h
    have := ih hs
    simp only [List.length_cons]
    omega
  | _ => cases h

theorem wordToken_length_le (word cs : List Char) (s : Scalar) :
    (wordToken word s cs).2.length ≤ cs.length := by
  unfold wordToken
  split
  · next after h =>
    rw [Text.afterWord?_eq_some_iff] at h
    simp [h]
  · simp

/-- What follows a token is shorter than the text that starts with it. -/
theorem Token.read_length_le (c : Char) (cs : List Char) :
    (Token.read c cs).2.length ≤ cs.length := by
  unfold Token.read
  split
  case h_7 =>
    split
    · next h => exact length_le_of_stringUnits? h
    · simp
  case h_11 =>
    split
    · split
      · next h =>
        have hlt := Numeral.length_lt_of_scan? h
        split
        · simpa using Nat.lt_succ_iff.mp hlt
        · simp
      · simp
    · simp
  all_goals first
    | exact wordToken_length_le _ _ _
    | exact Nat.le_refl _

/-- The tokens of a text. -/
def tokens : List Char → List Token
  | [] => []
  | c :: cs =>
    if isBlank c then tokens cs
    else (Token.read c cs).1 :: tokens (Token.read c cs).2
termination_by cs => cs.length
decreasing_by
  · simp
  · exact Nat.lt_succ_of_le (Token.read_length_le c cs)

end Json

end Planar
