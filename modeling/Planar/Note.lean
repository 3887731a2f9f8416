/-
Notes: what the library reports while it computes.

Nothing here fails.  Where a value cannot be had, a substitute is given, and a
note says so.  A computation with notes is `Traced`: a value, and the notes in
the order in which they arose.
-/
import Planar.Json.Printer
import Planar.Text.Quoted

namespace Planar

/-- One of the two axes of the plane. -/
inductive Axis where
  | x
  | y
deriving DecidableEq, Repr

/-- The letter of an axis. -/
def Axis.letter : Axis → Char
  | x => 'x'
  | y => 'y'

/-- How important a note is. -/
inductive Level where
  /-- A value was replaced. -/
  | debug
  /-- Nothing was done. -/
  | trace
deriving DecidableEq, Repr

/-- The word for a level. -/
def Level.word : Level → String
  | debug => "DEBUG"
  | trace => "TRACE"

/-- Something worth reporting. -/
inductive Note where
  /-- A text that was to start with a number does not. -/
  | noNumber (text : String)
  /-- A text of two components has just one. -/
  | noSecondComponent (text : String)
  /-- A component in JSON is not a number. -/
  | notNumeric (value : Json)
  /-- A JSON value is neither an array nor an object. -/
  | notAVector (value : Json)
  /-- A component that is not finite was replaced. -/
  | repaired (axis : Axis) (value replacement : Binary64)
  /-- A vector of length zero has no direction to keep. -/
  | zeroLength
deriving Repr

namespace Note

/-- How important a note is. -/
def level : Note → Level
  | zeroLength => .trace
  | _ => .debug

/-- What a note says. -/
def message : Note → String
  | noNumber text =>
    "no number in " ++ String.ofList (Text.quoted text.toList) ++ ", using NaN"
  | noSecondComponent text =>
    "no y component in " ++ String.ofList (Text.quoted text.toList) ++ ", using NaN"
  | notNumeric value => "non-numeric component " ++ String.ofList value.text ++ ", using NaN"
  | notAVector value =>
    "cannot read a vector from " ++ String.ofList value.text ++ ", using NaN"
  | repaired axis value replacement =>
    "repair: " ++ String.singleton axis.letter ++ " = "
      ++ String.ofList (Layout.plain.write value) ++ " replaced with "
      ++ String.ofList (Layout.plain.write replacement)
  | zeroLength => "normalize: zero-length vector left unchanged"

/-- A note as a line of a log. -/
def line (n : Note) : String := n.level.word ++ " " ++ n.message

end Note

/-- A value, and the notes that arose on the way to it. -/
structure Traced (α : Type) where
  value : α
  /-- The notes, in order. -/
  notes : List Note

namespace Traced

instance : Monad Traced where
  pure a := ⟨a, []⟩
  bind t f := ⟨(f t.value).value, t.notes ++ (f t.value).notes⟩

/-- A value that is given with one note. -/
def noting {α : Type} (n : Note) (a : α) : Traced α := ⟨a, [n]⟩

@[simp] theorem value_pure {α : Type} (a : α) : (pure a : Traced α).value = a := rfl

@[simp] theorem notes_pure {α : Type} (a : α) : (pure a : Traced α).notes = [] := rfl

@[simp] theorem value_bind {α β : Type} (t : Traced α) (f : α → Traced β) :
    (t >>= f).value = (f t.value).value := rfl

@[simp] theorem notes_bind {α β : Type} (t : Traced α) (f : α → Traced β) :
    (t >>= f).notes = t.notes ++ (f t.value).notes := rfl

@[simp] theorem value_noting {α : Type} (n : Note) (a : α) : (noting n a).value = a := rfl

@[simp] theorem notes_noting {α : Type} (n : Note) (a : α) : (noting n a).notes = [n] := rfl

end Traced

end Planar
