/-
Passing over a JSON value.

A reader that does not want a value still has to find its end.  This one checks
the shape alone: it keeps no contents, does not mind how many arrays and objects
are open, and accepts a number that is out of range and a string with half of a
surrogate pair.
-/
import Planar.Json.Token

namespace Planar.Json

/-- What kind of value is open. -/
inductive Bracket where
  | array
  | object
deriving DecidableEq, Repr

/-- What must come next while a value is passed over. -/
inductive Skip where
  /-- A value. -/
  | value (opened : List Bracket)
  /-- A value or the end of the array just opened. -/
  | firstItem (opened : List Bracket)
  /-- A key or the end of the object just opened. -/
  | firstKey (opened : List Bracket)
  /-- A key. -/
  | key (opened : List Bracket)
  /-- A colon. -/
  | colon (opened : List Bracket)
  /-- A comma or the end of what is open; the end of the value, if nothing is. -/
  | read (opened : List Bracket)
deriving DecidableEq, Repr

namespace Skip

/-- A value starts with the given token. -/
def beginValue (opened : List Bracket) : Token → Option Skip
  | .scalar _ => some (read opened)
  | .outOfRange => some (read opened)
  | .unpaired => some (read opened)
  | .openArray => some (firstItem opened)
  | .openObject => some (firstKey opened)
  | _ => none

/-- A key is the given token. -/
def beginMember (opened : List Bracket) : Token → Option Skip
  | .scalar (.string _) => some (colon opened)
  | .unpaired => some (colon opened)
  | _ => none

/-- The state after one more token; none if the token may not come. -/
def step : Skip → Token → Option Skip
  | value opened, t => beginValue opened t
  | firstItem opened, .closeArray => some (read opened)
  | firstItem opened, t => beginValue (.array :: opened) t
  | firstKey opened, .closeObject => some (read opened)
  | firstKey opened, t => beginMember opened t
  | key opened, t => beginMember opened t
  | colon opened, .colon => some (value (.object :: opened))
  | read (.array :: opened), .comma => some (value (.array :: opened))
  | read (.array :: opened), .closeArray => some (read opened)
  | read (.object :: opened), .comma => some (key opened)
  | read (.object :: opened), .closeObject => some (read opened)
  | _, _ => none

end Skip

end Planar.Json
