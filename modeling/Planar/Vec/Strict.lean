/-
Strict reading of vectors from JSON text.

A vector is an array of exactly two numbers, or an object in which `x` and `y`
occur exactly once and are numbers; other members are passed over.  The text is
read token by token from the left, and the first problem ends it.  It is either
malformed, if no JSON text goes on like this, or refused, if it is well formed so
far but describes no vector.

Where a problem lies decides which one is found.  A scalar in a wrong place is
refused as soon as it has been read, and an opened array or object at once.  A
second member of one name is refused at its key.  An array that is too short and
an object that lacks a member are refused where they end, before what follows
them is looked at, while an array that goes on after two numbers is malformed.
-/
import Planar.Json.Printer
import Planar.Json.Skip
import Planar.Text.Quoted
import Planar.Note
import Planar.Vec.Basic

namespace Planar

/-- What a text was expected to describe. -/
inductive Expected where
  | vector
  | record
  | component
deriving DecidableEq, Repr

/-- What was found in a text. -/
inductive Found where
  | scalar (s : Json.Scalar)
  | array
  | object
deriving DecidableEq, Repr

/-- Why a well-formed text describes no vector. -/
inductive Refusal where
  /-- Something of another kind was expected. -/
  | invalidType (found : Found) (expected : Expected)
  /-- An array is too short. -/
  | invalidLength (length : Nat) (expected : Expected)
  | duplicateField (axis : Axis)
  | missingField (axis : Axis)
deriving DecidableEq, Repr

/-- Why a text could not be read. -/
inductive ReadError where
  /-- The text is not JSON. -/
  | malformed
  /-- The text is JSON as far as it was read, but describes no vector. -/
  | refused (r : Refusal)
deriving DecidableEq, Repr

/-! ### Messages -/

/-- The words for what was expected. -/
def Expected.text : Expected → String
  | vector => "struct Vector2"
  | record => "struct VectorDict"
  | component => "f64"

/-- The words for what was found. -/
def Found.text : Found → String
  | scalar .null => "null"
  | scalar (.boolean b) => "boolean `" ++ (if b then "true" else "false") ++ "`"
  | scalar (.number (.integer n)) =>
    "integer `" ++ String.ofList (Json.Number.integer n).text ++ "`"
  | scalar (.number (.real x)) =>
    "floating point `" ++ String.ofList (Json.Number.real x).text ++ "`"
  | scalar (.string s) => "string " ++ String.ofList (Text.quoted s.toList)
  | array => "sequence"
  | object => "map"

/-- What a refusal says. -/
def Refusal.message : Refusal → String
  | invalidType found expected =>
    "invalid type: " ++ found.text ++ ", expected " ++ expected.text
  | invalidLength length expected =>
    "invalid length " ++ toString length ++ ", expected " ++ expected.text
      ++ " with 2 elements"
  | duplicateField axis => "duplicate field `" ++ String.singleton axis.letter ++ "`"
  | missingField axis => "missing field `" ++ String.singleton axis.letter ++ "`"

/-! ### The reader -/

/-- The components read so far from an object. -/
structure Components where
  x : Option Binary64
  y : Option Binary64
deriving DecidableEq, Repr

namespace Components

/-- The component on an axis, if it has been read. -/
def get? (c : Components) : Axis → Option Binary64
  | .x => c.x
  | .y => c.y

/-- The components with one more of them read. -/
def put (c : Components) (axis : Axis) (value : Binary64) : Components :=
  match axis with
  | .x => { c with x := some value }
  | .y => { c with y := some value }

/-- The vector of the components, if none is missing. -/
def toVec (c : Components) : Except ReadError Vec :=
  match c.x, c.y with
  | none, _ => throw (.refused (.missingField .x))
  | _, none => throw (.refused (.missingField .y))
  | some x, some y => pure ⟨x, y⟩

end Components

/-- What has been read and what must come next. -/
inductive StrictReader where
  /-- The value itself. -/
  | start
  /-- The first number of an array. -/
  | firstItem
  /-- What follows the first number. -/
  | afterFirst (x : Binary64)
  /-- The second number. -/
  | secondItem (x : Binary64)
  /-- The end of the array. -/
  | afterSecond (x y : Binary64)
  /-- A key, or the end of an empty object. -/
  | firstKey
  /-- A key. -/
  | key (c : Components)
  /-- A colon after a key, of a component or of something else. -/
  | colon (field : Option Axis) (c : Components)
  /-- A component. -/
  | component (axis : Axis) (c : Components)
  /-- The rest of a value that is passed over. -/
  | skipping (s : Json.Skip) (c : Components)
  /-- A comma or the end of the object. -/
  | afterMember (c : Components)
  /-- Nothing. -/
  | done (v : Vec)
deriving DecidableEq, Repr

namespace StrictReader

open Json (Token)

/-- What stands in the place of something else. -/
def unexpected (expected : Expected) : Token → ReadError
  | .scalar s => .refused (.invalidType (.scalar s) expected)
  | .openArray => .refused (.invalidType .array expected)
  | .openObject => .refused (.invalidType .object expected)
  | _ => .malformed

/-- The number that a component is. -/
def readNumber : Token → Except ReadError Binary64
  | .scalar (.number n) => pure n.toBinary64
  | t => throw (unexpected .component t)

/-- The component that a key names. -/
def fieldOfKey (key : String) : Option Axis :=
  if key = "x" then some .x else if key = "y" then some .y else none

/-- After a key. -/
def readKey (c : Components) : Token → Except ReadError StrictReader
  | .scalar (.string k) =>
    match fieldOfKey k with
    | some axis =>
      if (c.get? axis).isSome then throw (.refused (.duplicateField axis))
      else pure (colon (some axis) c)
    | none => pure (colon none c)
  | _ => throw .malformed

/-- After a token of a value that is passed over. -/
def skip (s : Json.Skip) (c : Components) (t : Token) : Except ReadError StrictReader :=
  match s.step t with
  | none => throw .malformed
  | some (.read []) => pure (afterMember c)
  | some s => pure (skipping s c)

/-- The state after one more token. -/
def step (target : Expected) : StrictReader → Token → Except ReadError StrictReader
  | start, .openArray => pure firstItem
  | start, .openObject => pure firstKey
  | start, t => throw (unexpected target t)
  | firstItem, .closeArray => throw (.refused (.invalidLength 0 target))
  | firstItem, t => afterFirst <$> readNumber t
  | afterFirst x, .comma => pure (secondItem x)
  | afterFirst _, .closeArray => throw (.refused (.invalidLength 1 target))
  | secondItem x, t => afterSecond x <$> readNumber t
  | afterSecond x y, .closeArray => pure (done ⟨x, y⟩)
  | firstKey, .closeObject => done <$> (Components.mk none none).toVec
  | firstKey, t => readKey ⟨none, none⟩ t
  | key c, t => readKey c t
  | colon (some axis) c, .colon => pure (component axis c)
  | colon none c, .colon => pure (skipping (.value []) c)
  | component axis c, t => (fun n => afterMember (c.put axis n)) <$> readNumber t
  | skipping s c, t => skip s c t
  | afterMember c, .comma => pure (key c)
  | afterMember c, .closeObject => done <$> c.toVec
  | _, _ => throw .malformed

/-- The vector, if the text may end here. -/
def finish : StrictReader → Except ReadError Vec
  | done v => pure v
  | _ => throw .malformed

end StrictReader

/-- The components that a sequence of tokens describes. -/
def readStrictly (target : Expected) (ts : List Json.Token) : Except ReadError Vec := do
  (← ts.foldlM (StrictReader.step target) .start).finish

/-- The vector that a text describes. -/
def Vec.ofJsonText (text : String) : Except ReadError Vec :=
  readStrictly .vector (Json.tokens text.toList)

/-- The record that a text describes. -/
def Record.ofJsonText (text : String) : Except ReadError Record :=
  Vec.toRecord <$> readStrictly .record (Json.tokens text.toList)

end Planar
