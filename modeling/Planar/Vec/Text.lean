/-
Vectors as texts.

The plain text of a vector is its components with a comma between them.  A
template has marks in it, `%x` and `%y`, which are replaced by the components,
first every `%x` and then every `%y`; the empty template stands for the one that
gives the plain text.  For inspection, a vector is shown so that its components
can be told from whole numbers.

A vector is read from the first two parts of a text between commas, each of them
leniently.
-/
import Planar.Reading
import Planar.Vec.Basic

namespace Planar

/-- How components are shown for inspection: with a fraction, positionally from
10^-4 up to 10^15, otherwise with an exponent. -/
def inspectionLayout : Layout := ⟨.up, some (-4, 15), true, false⟩

namespace Vec

/-! ### Writing -/

/-- A component as it is written in plain text. -/
def componentText (c : Binary64) : List Char := Layout.plain.write c

/-- The plain text. -/
def text (v : Vec) : String :=
  String.ofList (componentText v.x ++ ',' :: componentText v.y)

/-- The vector, shown for inspection. -/
def inspect (v : Vec) : String :=
  String.ofList ('(' :: (inspectionLayout.write v.x ++ ',' :: ' ' ::
    (inspectionLayout.write v.y ++ [')'])))

/-- The record, shown for inspection. -/
def inspectRecord (r : Record) : String :=
  "VectorDict \x7b x: " ++ String.ofList (inspectionLayout.write r.x) ++ ", y: "
    ++ String.ofList (inspectionLayout.write r.y) ++ " \x7d"

/-! ### Templates -/

/-- The template that gives the plain text. -/
def defaultTemplate : String := "%x,%y"

/-- A text with every mark, a percent sign and the given letter, replaced. -/
def replaceMark (letter : Char) (value : List Char) : List Char → List Char
  | [] => []
  | [c] => [c]
  | c :: d :: rest =>
    if c = '%' ∧ d = letter then value ++ replaceMark letter value rest
    else c :: replaceMark letter value (d :: rest)

/-- The template with its marks replaced by the components. -/
def format (v : Vec) (template : String) : String :=
  let chars := if template.isEmpty then defaultTemplate.toList else template.toList
  String.ofList
    (replaceMark 'y' (componentText v.y) (replaceMark 'x' (componentText v.x) chars))

/-! ### Reading -/

/-- The parts of a text before and after its first comma. -/
def cutAtComma (cs : List Char) : List Char × Option (List Char) :=
  (cs.takeWhile (· != ','),
    match cs.dropWhile (· != ',') with
    | [] => none
    | _ :: rest => some rest)

/-- The vector whose components start the first two parts of a text. -/
def ofText (text : String) : Traced Vec := do
  let (first, after) := cutAtComma text.toList
  let x ← readNumber (String.ofList first)
  let y ← match after with
    | some rest => readNumber (String.ofList (cutAtComma rest).1)
    | none => .noting (.noSecondComponent text) .nan
  return ⟨x, y⟩

end Vec

end Planar
