/-
Vectors read back from their JSON texts.

A vector is written as an object of two members.  Each of its readers works on the
tokens of the text, and those are known as soon as the text of each component is
known to be one token.  So the readers are first run on two components whose tokens
are scalars, whichever these are: the value that the text stands for
(`parse?_recordText`), what the lenient reader makes of it (`value_ofJson_object`),
and what a strict reader makes of the tokens (`readStrictly_recordText`).  The array
of two items is treated along with the object.

What remains for the round trip is that a component is written as one scalar, the
number if it is finite and `null` if it is not (`tokenText_componentText`).
-/
import Planar.Json.Document
import Planar.Proofs.Json.Printer
import Planar.Vec.Json
import Planar.Vec.Strict

namespace Planar

open Json (Scalar Token TokenText pairText recordText)

/-! ### The readers on two scalars -/

section Readers

variable {a b : List Char} {s t : Scalar}

theorem Json.parse?_pairText (ha : TokenText a (.scalar s)) (hb : TokenText b (.scalar t)) :
    Json.parse? (pairText a b) = some (.array [.scalar s, .scalar t]) := by
  unfold Json.parse?
  rw [Json.tokens_pairText ha hb]
  rfl

theorem Json.parse?_recordText (ha : TokenText a (.scalar s)) (hb : TokenText b (.scalar t)) :
    Json.parse? (recordText a b) = some (.object [("x", .scalar s), ("y", .scalar t)]) := by
  unfold Json.parse?
  rw [Json.tokens_recordText ha hb]
  rfl

/-- The components that two scalars are, read strictly and in turn. -/
def StrictReader.readPair (s t : Scalar) : Except ReadError Vec := do
  let x ← readNumber (.scalar s)
  let y ← readNumber (.scalar t)
  return ⟨x, y⟩

theorem readStrictly_pairText (target : Expected) (ha : TokenText a (.scalar s))
    (hb : TokenText b (.scalar t)) :
    readStrictly target (Json.tokens (pairText a b)) = StrictReader.readPair s t := by
  rw [Json.tokens_pairText ha hb]
  cases s <;> first | rfl | (cases t <;> rfl)

theorem readStrictly_recordText (target : Expected) (ha : TokenText a (.scalar s))
    (hb : TokenText b (.scalar t)) :
    readStrictly target (Json.tokens (recordText a b)) = StrictReader.readPair s t := by
  rw [Json.tokens_recordText ha hb]
  cases s <;> first | rfl | (cases t <;> rfl)

end Readers

namespace Vec

theorem value_ofJson_array (i j : Json) :
    (ofJson (.array [i, j])).value = ⟨(readComponent i).value, (readComponent j).value⟩ := rfl

theorem value_ofJson_object (i j : Json) :
    (ofJson (.object [("x", i), ("y", j)])).value
      = ⟨(readComponent i).value, (readComponent j).value⟩ := rfl

/-! ### Components -/

theorem tokenText_componentText (c : Binary64) :
    TokenText (Json.componentText c) (.scalar (.ofBinary64 c)) := by
  cases c with
  | nan => exact Json.tokenText_null
  | infinite s => exact Json.tokenText_null
  | finite s r => exact Json.tokenText_write s r

theorem value_readComponent (c : Binary64) :
    (readComponent (.scalar (.ofBinary64 c))).value = c.orNaN := by
  cases c <;> rfl

/-- Why a component that is not finite is refused. -/
def nullComponent : ReadError := .refused (.invalidType (.scalar .null) .component)

theorem readPair_ofBinary64 (v : Vec) :
    StrictReader.readPair (.ofBinary64 v.x) (.ofBinary64 v.y)
      = if v.isFinite then .ok v else .error nullComponent := by
  obtain ⟨x, y⟩ := v
  cases x with
  | finite s r => cases y <;> rfl
  | _ => rfl

/-! ### The round trip -/

theorem jsonText_eq (v : Vec) :
    v.jsonText = recordText (Json.componentText v.x) (Json.componentText v.y) := rfl

theorem parse?_jsonText (v : Vec) : Json.parse? v.jsonText = some v.toJson := by
  rw [jsonText_eq]
  exact Json.parse?_recordText (tokenText_componentText v.x) (tokenText_componentText v.y)

theorem readStrictly_jsonText (target : Expected) (v : Vec) :
    readStrictly target (Json.tokens v.jsonText)
      = if v.isFinite then .ok v else .error nullComponent := by
  rw [jsonText_eq, readStrictly_recordText target (tokenText_componentText v.x)
    (tokenText_componentText v.y), readPair_ofBinary64]

theorem ofJsonText_jsonText (v : Vec) :
    ofJsonText (String.ofList v.jsonText) = if v.isFinite then .ok v else .error nullComponent := by
  unfold ofJsonText
  rw [String.toList_ofList, readStrictly_jsonText]

theorem ofRecord_ofJsonText_jsonText (v : Vec) :
    ofRecord <$> Record.ofJsonText (String.ofList v.jsonText)
      = if v.isFinite then .ok v else .error nullComponent := by
  unfold Record.ofJsonText
  rw [String.toList_ofList, readStrictly_jsonText]
  split <;> rfl

/-- **The three ways of writing a vector as JSON give one text, with `null` for what
is not finite.  Reading the text as a value gives the value that was written, and
from it each finite component as it was and NaN for each other; the strict readers
give the vector if it is finite and refuse it if it is not.** -/
theorem jsonText_readBack (v : Vec) :
    v.toJson.text = v.jsonText ∧ v.toRecord.jsonText = v.jsonText ∧
    v.jsonText = recordText (if v.x.isFinite then Json.realLayout.write v.x else "null".toList)
      (if v.y.isFinite then Json.realLayout.write v.y else "null".toList) ∧
    Json.parse? v.jsonText = some v.toJson ∧ (ofJson v.toJson).value = ⟨v.x.orNaN, v.y.orNaN⟩ ∧
    ofJsonText (String.ofList v.jsonText)
      = (if v.isFinite then .ok v else .error nullComponent) ∧
    ofRecord <$> Record.ofJsonText (String.ofList v.jsonText)
      = if v.isFinite then .ok v else .error nullComponent := by
  refine ⟨text_toJson v, rfl, jsonText_eq v, parse?_jsonText v, ?_, ofJsonText_jsonText v,
    ofRecord_ofJsonText_jsonText v⟩
  unfold toJson
  rw [value_ofJson_object, value_readComponent, value_readComponent]

end Vec

end Planar
