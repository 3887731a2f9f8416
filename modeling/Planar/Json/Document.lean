/-
Reading a whole JSON text.

The reader is a machine that takes one token after another.  It remembers what
must come next and, for every array or object that is still open, what has been
read of it.  The text is a value if the machine accepts every token and ends with
one value read and nothing open.

At most 127 arrays and objects may be open at once.
-/
import Planar.Json.Token

namespace Planar.Json

/-- An array or object that is still open. -/
inductive Frame where
  /-- An array, with the items read so far, the last one first. -/
  | items (before : List Json)
  /-- An object, with the members read so far, the last one first, and the key
  whose value is being read. -/
  | member (before : List (String × Json)) (key : String)

/-- What the reader has read and what must come next. -/
inductive Builder where
  /-- A value must come. -/
  | value (opened : List Frame)
  /-- An array has just been opened: a value or its end must come. -/
  | firstItem (opened : List Frame)
  /-- An object has just been opened: a key or its end must come. -/
  | firstKey (opened : List Frame)
  /-- A comma in an object has been read: a key must come. -/
  | key (before : List (String × Json)) (opened : List Frame)
  /-- A key has been read: a colon must come. -/
  | colon (before : List (String × Json)) (key : String) (opened : List Frame)
  /-- A value has been read: a comma or the end of what holds it must come. -/
  | read (v : Json) (opened : List Frame)

namespace Builder

/-- How many arrays and objects may be open at once. -/
def maxOpen : Nat := 127

/-- A value starts with the given token. -/
def beginValue (opened : List Frame) : Token → Option Builder
  | .scalar s => some (read (.scalar s) opened)
  | .openArray => if opened.length < maxOpen then some (firstItem opened) else none
  | .openObject => if opened.length < maxOpen then some (firstKey opened) else none
  | _ => none

/-- A key is the given token. -/
def beginMember (before : List (String × Json)) (opened : List Frame) : Token → Option Builder
  | .scalar (.string k) => some (colon before k opened)
  | _ => none

/-- The state after one more token; none if the token may not come. -/
def step : Builder → Token → Option Builder
  | value opened, t => beginValue opened t
  | firstItem opened, .closeArray => some (read (.array []) opened)
  | firstItem opened, t => beginValue (.items [] :: opened) t
  | firstKey opened, .closeObject => some (read (.object []) opened)
  | firstKey opened, t => beginMember [] opened t
  | key before opened, t => beginMember before opened t
  | colon before k opened, .colon => some (value (.member before k :: opened))
  | read v (.items before :: opened), .comma => some (value (.items (v :: before) :: opened))
  | read v (.items before :: opened), .closeArray =>
    some (read (.array (v :: before).reverse) opened)
  | read v (.member before k :: opened), .comma => some (key ((k, v) :: before) opened)
  | read v (.member before k :: opened), .closeObject =>
    some (read (.object ((k, v) :: before).reverse) opened)
  | _, _ => none

/-- The value, if one has been read and nothing is open. -/
def result? : Builder → Option Json
  | read v [] => some v
  | _ => none

end Builder

/-- The value that a sequence of tokens stands for. -/
def ofTokens? (ts : List Token) : Option Json :=
  (ts.foldlM Builder.step (.value [])).bind Builder.result?

/-- The value that a text stands for. -/
def parse? (cs : List Char) : Option Json := ofTokens? (tokens cs)

end Planar.Json
